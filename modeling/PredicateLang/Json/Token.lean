import PredicateLang.Decimal.Numeral
import PredicateLang.Double.Nearest
import PredicateLang.Json.Document
import PredicateLang.Text.Blank

/-!
# JSON tokens

`Token.ofText?` splits a text into the tokens of JSON, and fails if it has a part that is
none. A string holds no raw control character, and an escaped surrogate only as half of a pair.

A number without fraction and exponent is a whole number where 64 bits hold it. Every other
number is taken to be the nearest double, as `Number.ofDecimal?` explains; a number beyond the
largest double is refused.
-/

namespace PredicateLang.Json

inductive Token
  | openArray
  | closeArray
  | openObject
  | closeObject
  | comma
  | colon
  | null
  | boolean (b : Bool)
  | number (n : Number)
  | string (s : String)

/-! ### Strings -/

def hexDigit? (c : Char) : Option Nat :=
  if '0' ≤ c ∧ c ≤ '9' then some (c.toNat - '0'.toNat)
  else if 'a' ≤ c ∧ c ≤ 'f' then some (c.toNat - 'a'.toNat + 10)
  else if 'A' ≤ c ∧ c ≤ 'F' then some (c.toNat - 'A'.toNat + 10)
  else none

def hexUnit? (a b c d : Char) : Option Nat := do
  pure ((← hexDigit? a) * 4096 + (← hexDigit? b) * 256 + (← hexDigit? c) * 16 + (← hexDigit? d))

def simpleEscape? (c : Char) : Option Char :=
  match c with
  | '"' | '\\' | '/' => some c
  | 'b' => some '\x08'
  | 'f' => some '\x0c'
  | 'n' => some '\n'
  | 'r' => some '\r'
  | 't' => some '\t'
  | _ => none

def isHighSurrogate (unit : Nat) : Bool :=
  0xD800 ≤ unit && unit < 0xDC00

def isLowSurrogate (unit : Nat) : Bool :=
  0xDC00 ≤ unit && unit < 0xE000

def prepend (c : Char) (read : List Char × List Char) : List Char × List Char :=
  (c :: read.1, read.2)

def stringBody? : List Char → Option (List Char × List Char)
  | [] => none
  | '"' :: rest => some ([], rest)
  | '\\' :: 'u' :: a :: b :: c :: d :: rest =>
      match hexUnit? a b c d with
      | none => none
      | some unit =>
          if isHighSurrogate unit then
            match rest with
            | '\\' :: 'u' :: e :: f :: g :: h :: rest =>
                match hexUnit? e f g h with
                | none => none
                | some low =>
                    if isLowSurrogate low then
                      (stringBody? rest).map <| prepend <|
                        .ofNat (0x10000 + (unit - 0xD800) * 0x400 + (low - 0xDC00))
                    else none
            | _ => none
          else if isLowSurrogate unit then none
          else (stringBody? rest).map (prepend (.ofNat unit))
  | '\\' :: c :: rest =>
      match simpleEscape? c with
      | none => none
      | some c => (stringBody? rest).map (prepend c)
  | c :: rest => if c < ' ' then none else (stringBody? rest).map (prepend c)

/-! ### Numbers -/

/-- The number `digits * 10 ^ exponent` as a double, unless it is too large for one. The sign
of a zero is kept. Powers of ten that are out of reach of every double are not computed.

That the double is the nearest one is an assumption about the JSON reader that the program is built
with. It rounds correctly if its feature `float_roundtrip` is on. Otherwise the double may be a
neighbour of the nearest one, where the digits or the power of ten are no doubles themselves. -/
def Number.ofDecimal? (negative : Bool) (digits : List Char) (exponent : Int) :
    Option Number :=
  let digits := digits.dropWhile (· == '0')
  let above := exponent + digits.length
  if digits.isEmpty || above < -400 then some (.real negative .zero)
  else if 400 < above then none
  else
    match Double.nearestDecimal negative (ofNumeral digits) exponent with
    | .finite negative magnitude => some (.real negative magnitude)
    | _ => none

/-- The number written with these digits and neither a fraction nor an exponent. Minus zero is
a double, since no whole number has its sign. -/
def Number.ofWhole? (negative : Bool) (digits : List Char) : Option Number :=
  let n : Int := if negative then -(ofNumeral digits : Int) else ofNumeral digits
  if negative ∧ n = 0 then some (.real true .zero)
  else if h : -Int.pow 2 63 ≤ n ∧ n < Int.pow 2 64 then some (.whole n h.1 h.2)
  else Number.ofDecimal? negative digits 0

def fraction? : List Char → Option (Option (List Char) × List Char)
  | '.' :: rest =>
      let digits := rest.takeWhile Char.isDigit
      if digits.isEmpty then none else some (some digits, rest.dropWhile Char.isDigit)
  | rest => some (none, rest)

def exponentDigits? (negative : Bool) (rest : List Char) :
    Option (Option Int × List Char) :=
  let digits := rest.takeWhile Char.isDigit
  let n : Int := ofNumeral digits
  if digits.isEmpty then none
  else some (some (if negative then -n else n), rest.dropWhile Char.isDigit)

def exponent? : List Char → Option (Option Int × List Char)
  | e :: rest =>
      if e = 'e' ∨ e = 'E' then
        match rest with
        | '-' :: rest => exponentDigits? true rest
        | '+' :: rest => exponentDigits? false rest
        | rest => exponentDigits? false rest
      else some (none, e :: rest)
  | [] => some (none, [])

def unsigned? (negative : Bool) (cs : List Char) : Option (Number × List Char) := do
  let whole := cs.takeWhile Char.isDigit
  guard (!whole.isEmpty && (whole.length == 1 || whole.head? != some '0'))
  let (fraction, rest) ← fraction? (cs.dropWhile Char.isDigit)
  let (exponent, rest) ← exponent? rest
  let number ←
    if fraction.isNone && exponent.isNone then Number.ofWhole? negative whole
    else
      let digits := fraction.getD []
      Number.ofDecimal? negative (whole ++ digits) (exponent.getD 0 - digits.length)
  pure (number, rest)

/-! ### The tokens of a text -/

namespace Token

def ofHead? : List Char → Option (Token × List Char)
  | '[' :: rest => some (openArray, rest)
  | ']' :: rest => some (closeArray, rest)
  | '{' :: rest => some (openObject, rest)
  | '}' :: rest => some (closeObject, rest)
  | ',' :: rest => some (comma, rest)
  | ':' :: rest => some (colon, rest)
  | 'n' :: 'u' :: 'l' :: 'l' :: rest => some (null, rest)
  | 't' :: 'r' :: 'u' :: 'e' :: rest => some (boolean true, rest)
  | 'f' :: 'a' :: 'l' :: 's' :: 'e' :: rest => some (boolean false, rest)
  | '"' :: rest => (stringBody? rest).map fun read => (string (.ofList read.1), read.2)
  | '-' :: rest => (unsigned? true rest).map fun read => (number read.1, read.2)
  | rest => (unsigned? false rest).map fun read => (number read.1, read.2)

def list? : (count : Nat) → List Char → Option (List Token)
  | 0, cs => if cs.all isBlank then some [] else none
  | count + 1, cs =>
      match cs.dropWhile isBlank with
      | [] => some []
      | rest =>
          match ofHead? rest with
          | none => none
          | some (token, rest) => (list? count rest).map (token :: ·)

/-- The tokens of a text. Each takes a character at least. -/
def ofText? (text : String) : Option (List Token) :=
  list? text.length text.toList

end Token

end PredicateLang.Json
