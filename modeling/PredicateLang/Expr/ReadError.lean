import PredicateLang.Token.Scan

/-!
# Errors of reading

Why a stream of tokens is no expression: the stream itself holds a fault, or its tokens do not
form one. A `ParseError` carries the token it blames.
-/

namespace PredicateLang

inductive Expected
  | expression
  | closeParen
  | name
  deriving DecidableEq, Inhabited

def Expected.text : Expected → String
  | .expression => "expression"
  | .closeParen => "')'"
  | .name => "identifier"

inductive ParseError
  /-- The token cannot start an expression. -/
  | expectedExpression (found : Token)
  | unexpectedToken (expected : Expected) (found : Token)
  | unexpectedEnd (expected : Expected)
  /-- The token follows a complete expression and cannot continue it. -/
  | trailingInput (found : Token)
  /-- The tree would be too high at the token. -/
  | tooDeep (token : Token)
  deriving DecidableEq, Inhabited

namespace ParseError

def token? : ParseError → Option Token
  | .expectedExpression t | .unexpectedToken _ t | .trailingInput t | .tooDeep t => some t
  | .unexpectedEnd _ => none

def position? (e : ParseError) : Option Nat :=
  e.token?.map Token.position

def message : ParseError → String
  | .expectedExpression t =>
      "Expected expression at " ++ natText t.position ++ ", found " ++ t.kind.text
  | .unexpectedToken expected t =>
      "Parsing error at " ++ natText t.position ++ ". Expected " ++ expected.text ++
        " found " ++ t.kind.text
  | .unexpectedEnd expected => "Unexpected end of input, expected " ++ expected.text
  | .trailingInput t =>
      "Unexpected " ++ t.kind.text ++ " at " ++ natText t.position ++
        " after end of expression"
  | .tooDeep t => "Expression nested too deeply at " ++ natText t.position

end ParseError

inductive ReadError
  | scan (e : ScanError)
  | parse (e : ParseError)
  deriving DecidableEq, Inhabited

def ReadError.message : ReadError → String
  | .scan e => "Lex error: " ++ e.message
  | .parse e => "Parse error: " ++ e.message

end PredicateLang
