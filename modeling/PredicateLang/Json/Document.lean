import PredicateLang.Double.Basic
import PredicateLang.KeyMap.Basic

/-!
# JSON documents

A JSON document as a tree. Its numbers are whole numbers that fit 64 bits, signed or unsigned,
or finite doubles; a document holds no other number. The members of an object are ordered by
their names.
-/

namespace PredicateLang.Json

inductive Number
  | whole (n : Int) (low : -Int.pow 2 63 ≤ n) (high : n < Int.pow 2 64)
  | real (negative : Bool) (magnitude : Magnitude)

inductive Document
  | null
  | boolean (b : Bool)
  | number (n : Number)
  | string (s : String)
  | array (items : List Document)
  | object (members : Entries Document none)

instance : Inhabited Document := ⟨.null⟩

end PredicateLang.Json
