import PredicateLang.Json.Token

/-!
# Reading JSON

`Document.ofText?` reads a JSON text. The tokens are taken one by one; the arrays and objects
that are still open are kept in a list of frames, innermost first, which may hold 127 of them.
A later member replaces an earlier one of the same name.
-/

namespace PredicateLang.Json

def maxNesting : Nat := 127

inductive Frame
  /-- An array and the items it has so far, the latest first. -/
  | array (items : List Document)
  /-- An object, the members it has so far, and the name whose value is being read. -/
  | object (members : KeyMap Document) (name : String)

inductive Stage
  /-- A value has to follow. -/
  | value
  /-- An array has just been opened: an item or its end has to follow. -/
  | firstItem
  /-- A member name has to follow, or the end of the object if it has no members yet. -/
  | name (members : KeyMap Document) (first : Bool)
  /-- A colon has to follow the name. -/
  | colon (members : KeyMap Document) (name : String)
  /-- A value is complete. -/
  | complete (d : Document)

def startValue (frames : List Frame) : Token → Option (Stage × List Frame)
  | .null => some (.complete .null, frames)
  | .boolean b => some (.complete (.boolean b), frames)
  | .number n => some (.complete (.number n), frames)
  | .string s => some (.complete (.string s), frames)
  | .openArray => if frames.length < maxNesting then some (.firstItem, frames) else none
  | .openObject =>
      if frames.length < maxNesting then some (.name .empty true, frames) else none
  | _ => none

def extendFrame (d : Document) : List Frame → Token → Option (Stage × List Frame)
  | .array items :: frames, .comma => some (.value, .array (d :: items) :: frames)
  | .array items :: frames, .closeArray =>
      some (.complete (.array (d :: items).reverse), frames)
  | .object members name :: frames, .comma => some (.name (members.insert name d) false, frames)
  | .object members name :: frames, .closeObject =>
      some (.complete (.object (members.insert name d)), frames)
  | _, _ => none

def Stage.step : Stage × List Frame → Token → Option (Stage × List Frame)
  | (.value, frames), token => startValue frames token
  | (.firstItem, frames), .closeArray => some (.complete (.array []), frames)
  | (.firstItem, frames), token => startValue (.array [] :: frames) token
  | (.name members true, frames), .closeObject => some (.complete (.object members), frames)
  | (.name members _, frames), .string s => some (.colon members s, frames)
  | (.colon members key, frames), .colon => some (.value, .object members key :: frames)
  | (.complete d, frames), token => extendFrame d frames token
  | _, _ => none

def Document.ofTokens? (tokens : List Token) : Option Document :=
  match tokens.foldlM Stage.step (.value, []) with
  | some (.complete d, []) => some d
  | _ => none

def Document.ofText? (text : String) : Option Document :=
  Token.ofText? text >>= Document.ofTokens?

end PredicateLang.Json
