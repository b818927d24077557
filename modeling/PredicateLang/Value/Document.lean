import PredicateLang.Json.Document
import PredicateLang.Value.Basic

/-!
# Values and JSON documents

Every document is a value, and every value can be written as a document. A number of the
document that fits a signed 64-bit integer becomes an integer; the whole numbers beyond become
the nearest doubles. JSON has neither `undefined` nor NaN nor infinities: they are written as
`null`.
-/

namespace PredicateLang

def Number.ofJson : Json.Number → Number
  | .whole n _ _ => if n < Int.pow 2 63 then .integer (.ofInt n) else .real (.ofInt n)
  | .real negative magnitude => .real (.finite negative magnitude)

def Number.toDocument : Number → Json.Document
  | .integer n =>
      .number <| .whole n.toInt n.le_toInt
        (Int.lt_trans n.toInt_lt (by decide))
  | .real (.finite negative magnitude) => .number (.real negative magnitude)
  | .real _ => .null

namespace Value

mutual

def ofDocument : Json.Document → Value
  | .null => .null
  | .boolean b => .boolean b
  | .number n => .number (.ofJson n)
  | .string s => .string s
  | .array items => .array (ofItems items)
  | .object members => .object (ofMembers members)

def ofItems : List Json.Document → List Value
  | [] => []
  | item :: items => ofDocument item :: ofItems items

def ofMembers : {bound : Option String} → Entries Json.Document bound → Entries Value bound
  | _, .nil => .nil
  | _, .cons name item above members => .cons name (ofDocument item) above (ofMembers members)

end

mutual

def toDocument : Value → Json.Document
  | .undefined => .null
  | .null => .null
  | .boolean b => .boolean b
  | .number n => n.toDocument
  | .string s => .string s
  | .array items => .array (documentItems items)
  | .object members => .object (documentMembers members)

def documentItems : List Value → List Json.Document
  | [] => []
  | item :: items => toDocument item :: documentItems items

def documentMembers : {bound : Option String} → Entries Value bound →
    Entries Json.Document bound
  | _, .nil => .nil
  | _, .cons name value above members =>
      .cons name (toDocument value) above (documentMembers members)

end

end Value

end PredicateLang
