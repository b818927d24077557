import PredicateLang.Text.Blank
import PredicateLang.Token.Lexeme

/-!
# Scanning

A `Cursor` is a place in a source text: what is left of the text, and the byte offset at which
that starts. `Cursor.read` takes the next token; `Cursor.next` does the same until the text ends
or a fault turns up, and gives nothing from then on. `scan` is everything that `next` gives.

Only spaces, line feeds, tabs and carriage returns may separate tokens.
-/

namespace PredicateLang

inductive ScanError
  | unexpectedCharacter (position : Nat) (character : Char)
  /-- `position` is that of the opening quote. -/
  | unterminatedString (position : Nat)
  /-- `position` is that of the first digit. -/
  | malformedNumber (position : Nat)
  deriving DecidableEq, Inhabited

namespace ScanError

def position : ScanError → Nat
  | .unexpectedCharacter p _ | .unterminatedString p | .malformedNumber p => p

def message : ScanError → String
  | .unexpectedCharacter p c =>
      "Unexpected character '" ++ c.toString ++ "' at " ++ natText p
  | .unterminatedString p => "Unterminated string at " ++ natText p
  | .malformedNumber p => "Invalid number at " ++ natText p ++ ": contains two dots"

end ScanError

abbrev ScanItem : Type := Except ScanError Token

def byteLength (text : List Char) : Nat :=
  text.foldr (fun c length => c.utf8Size + length) 0

structure Cursor where
  /-- The text that has not been read. -/
  rest : List Char
  /-- The byte offset of that text in the source. -/
  position : Nat
  /-- Whether `next` has come to an end or to a fault. -/
  finished : Bool
  deriving DecidableEq, Inhabited

namespace Cursor

def ofText (source : String) : Cursor :=
  ⟨source.toList, 0, false⟩

def pass (c : Cursor) (read rest : List Char) : Cursor :=
  { c with rest := rest, position := c.position + byteLength read }

def passBlanks (c : Cursor) : Cursor :=
  c.pass (c.rest.takeWhile isBlank) (c.rest.dropWhile isBlank)

/-- Reads the token at a cursor that stands at `first :: rest`. A fault leaves the cursor where
it is, but for an unterminated string, which is read to the end of the text. -/
def readFrom (c : Cursor) (first : Char) (rest : List Char) :
    Except ScanError Token × Cursor :=
  match Lexeme.split first rest with
  | .ok (lexeme, after) => (.ok ⟨lexeme.kind, c.position⟩, c.pass lexeme.chars after)
  | .error .unexpectedCharacter => (.error (.unexpectedCharacter c.position first), c)
  | .error .malformedNumber => (.error (.malformedNumber c.position), c)
  | .error .unterminatedString =>
      (.error (.unterminatedString c.position), c.pass (first :: rest) [])

def read (c : Cursor) : Option ScanItem × Cursor :=
  let c := c.passBlanks
  match c.rest with
  | [] => (none, c)
  | first :: rest =>
      let (item, c) := c.readFrom first rest
      (some item, c)

def next (c : Cursor) : Option ScanItem × Cursor :=
  if c.finished then (none, c)
  else
    match c.read with
    | (some (.ok token), c) => (some (.ok token), c)
    | (item, c) => (item, { c with finished := true })

def items : (count : Nat) → Cursor → List ScanItem
  | 0, _ => []
  | count + 1, c =>
      match c.next with
      | (none, _) => []
      | (some item, c) => item :: items count c

end Cursor

/-- The tokens of a source text up to its end, or up to and including a fault. None of them is
empty, so there are no more of them than characters. -/
def scan (source : String) : List ScanItem :=
  Cursor.items source.length (.ofText source)

end PredicateLang
