import PredicateLang.Value.Basic

/-!
# Tokens

The words of the language: symbols, the keywords for constants, names, and literals. A token
also carries the byte offset in the source at which it starts.
-/

namespace PredicateLang

inductive Symbol
  | openParen
  | closeParen
  | dot
  | questionDot
  | equals
  | doubleAmpersand
  | doubleBar
  | exclamation
  | doubleQuestion
  deriving DecidableEq, Inhabited

def Symbol.chars : Symbol → List Char
  | .openParen => ['(']
  | .closeParen => [')']
  | .dot => ['.']
  | .questionDot => ['?', '.']
  | .equals => ['=']
  | .doubleAmpersand => ['&', '&']
  | .doubleBar => ['|', '|']
  | .exclamation => ['!']
  | .doubleQuestion => ['?', '?']

def Symbol.text (s : Symbol) : String :=
  .ofList s.chars

inductive Keyword
  | null
  | undefined
  | true
  | false
  deriving DecidableEq, Inhabited

def Keyword.text : Keyword → String
  | .null => "null"
  | .undefined => "undefined"
  | .true => "true"
  | .false => "false"

def Keyword.value : Keyword → Value
  | .null => .null
  | .undefined => .undefined
  | .true => .boolean Bool.true
  | .false => .boolean Bool.false

def Keyword.ofText? (word : String) : Option Keyword :=
  if word = "null" then some .null
  else if word = "undefined" then some .undefined
  else if word = "true" then some .true
  else if word = "false" then some .false
  else none

inductive Token.Kind
  | symbol (s : Symbol)
  | keyword (k : Keyword)
  | name (s : String)
  | number (n : Number)
  | string (s : String)
  deriving DecidableEq, Inhabited

structure Token where
  kind : Token.Kind
  position : Nat
  deriving DecidableEq, Inhabited

def Token.Kind.text : Token.Kind → String
  | .symbol s => "'" ++ s.text ++ "'"
  | .keyword k => k.text
  | .name s => "identifier '" ++ s ++ "'"
  | .number n => "number " ++ n.text
  | .string s => "string '" ++ s ++ "'"

end PredicateLang
