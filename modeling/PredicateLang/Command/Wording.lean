/-!
# Texts from elsewhere

The program leaves it to libraries to read JSON and to read its arguments. What they accept is
known, but their own words for what they do not accept are not: whatever is said here of the program
holds with any such words.
-/

namespace PredicateLang

/-- The texts that are not the program's own. Each depends on what was read and on nothing else. -/
class Wording where
  /-- Why a text is no JSON, and where. -/
  refusal (json : String) : String
  /-- What is printed for arguments that ask for help. -/
  help (arguments : List String) : String
  /-- What is reported of arguments that make no sense. -/
  misuse (arguments : List String) : String

/-- The texts of a program that is run without these libraries. -/
instance : Wording where
  refusal _ := "not a JSON document"
  help _ :=
    "Evaluates predicate expressions against JSON data.\n\n" ++
      "Usage: sprig [--log-level LEVEL] COMMAND\n\n" ++
      "Commands:\n" ++
      "  check EXPRESSION [-c JSON | --context-file PATH] [-p] [--syntax-only]\n" ++
      "  tokens EXPRESSION\n" ++
      "  ast EXPRESSION\n\n" ++
      "Options:\n" ++
      "  -c, --context JSON       the JSON object with the variables\n" ++
      "      --context-file PATH  a file with that object\n" ++
      "  -p, --pretty             print the result over several lines\n" ++
      "      --syntax-only        read the expression and do not evaluate it\n" ++
      "      --log-level LEVEL    accepted by every command\n" ++
      "  -h, --help               print this text\n" ++
      "  -V, --version            print the version\n"
  misuse _ := "error: invalid arguments; see sprig --help\n"

end PredicateLang
