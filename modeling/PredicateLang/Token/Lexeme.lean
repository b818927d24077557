import PredicateLang.Token.Basic

/-!
# Lexemes

A lexeme is the piece of source text that makes one token. `Lexeme.split` takes the longest one
off the head of a text, and `Lexeme.kind` says which token it makes, by its text alone.

* A word is an ASCII letter and the ASCII letters, digits and underscores after it. It is a
  keyword only as a whole.
* A number is a run of digits and dots that starts with a digit and has at most one dot.
* A string stands between single quotes. A backslash takes the character after it literally,
  also a quote or another backslash.
-/

namespace PredicateLang

inductive Lexeme
  | symbol (s : Symbol)
  | word (letters : List Char)
  | number (run : List Char)
  /-- What stands between the quotes, with its backslashes. -/
  | string (body : List Char)
  deriving DecidableEq

inductive Lexeme.Fault
  | unexpectedCharacter
  | unterminatedString
  | malformedNumber
  deriving DecidableEq, Inhabited

def isWordChar (c : Char) : Bool :=
  c.isAlphanum || c == '_'

def isNumberChar (c : Char) : Bool :=
  c.isDigit || c == '.'

def Symbol.split? : List Char → Option (Symbol × List Char)
  | '(' :: rest => some (openParen, rest)
  | ')' :: rest => some (closeParen, rest)
  | '&' :: '&' :: rest => some (doubleAmpersand, rest)
  | '|' :: '|' :: rest => some (doubleBar, rest)
  | '!' :: rest => some (exclamation, rest)
  | '=' :: rest => some (equals, rest)
  | '.' :: rest => some (dot, rest)
  | '?' :: '.' :: rest => some (questionDot, rest)
  | '?' :: '?' :: rest => some (doubleQuestion, rest)
  | _ => none

namespace Lexeme

/-- Splits a text that follows an opening quote at the quote that closes it: the body, and what
comes after the closing quote. -/
def splitString? : List Char → Option (List Char × List Char)
  | [] => none
  | '\'' :: rest => some ([], rest)
  | '\\' :: c :: rest =>
      (splitString? rest).map fun (body, rest) => ('\\' :: c :: body, rest)
  | c :: rest => (splitString? rest).map fun (body, rest) => (c :: body, rest)

def unescape : List Char → List Char
  | '\\' :: c :: rest => c :: unescape rest
  | c :: rest => c :: unescape rest
  | [] => []

/-- The body that stands for a string: quotes and backslashes take a backslash in front. -/
def escape : List Char → List Char
  | [] => []
  | c :: rest => if c = '\'' ∨ c = '\\' then '\\' :: c :: escape rest else c :: escape rest

/-- The number that a run of digits with at most one dot denotes. Without a dot it is an
integer where 64 bits hold it; otherwise it is the nearest double. -/
def numberValue (run : List Char) : Number :=
  let whole := run.takeWhile Char.isDigit
  let fraction := (run.dropWhile Char.isDigit).drop 1
  if '.' ∉ run ∧ ofNumeral whole < Nat.pow 2 63 then .integer (.ofNat (ofNumeral whole))
  else .real (.nearestDecimal false (ofNumeral (whole ++ fraction)) (-fraction.length))

def wordKind (word : String) : Token.Kind :=
  match Keyword.ofText? word with
  | some k => .keyword k
  | none => .name word

def kind : Lexeme → Token.Kind
  | symbol s => .symbol s
  | word letters => wordKind (.ofList letters)
  | number run => .number (numberValue run)
  | string body => .string (.ofList (unescape body))

def chars : Lexeme → List Char
  | symbol s => s.chars
  | word letters => letters
  | number run => run
  | string body => '\'' :: (body ++ ['\''])

/-- Splits the text `first :: rest` after its longest lexeme. -/
def split (first : Char) (rest : List Char) : Except Fault (Lexeme × List Char) :=
  match Symbol.split? (first :: rest) with
  | some (s, rest) => .ok (symbol s, rest)
  | none =>
      if first = '\'' then
        match splitString? rest with
        | some (body, rest) => .ok (string body, rest)
        | none => .error .unterminatedString
      else if first.isAlpha then
        .ok (word (first :: rest.takeWhile isWordChar), rest.dropWhile isWordChar)
      else if first.isDigit then
        let run := first :: rest.takeWhile isNumberChar
        if 1 < run.count '.' then .error .malformedNumber
        else .ok (number run, rest.dropWhile isNumberChar)
      else .error .unexpectedCharacter

end Lexeme

end PredicateLang
