import PredicateLang.KeyMap.Basic
import PredicateLang.Number

/-!
# Values

The values that an expression computes with: the JSON types, and `undefined` for what is
missing. Objects are maps from member names to values.
-/

namespace PredicateLang

inductive Value
  | undefined
  | null
  | boolean (b : Bool)
  | number (n : Number)
  | string (s : String)
  | array (items : List Value)
  | object (members : Entries Value none)

namespace Value

instance : Inhabited Value := ⟨.undefined⟩

inductive Kind
  | undefined
  | null
  | boolean
  | number
  | string
  | array
  | object
  deriving DecidableEq, Inhabited

def Kind.name : Kind → String
  | .undefined => "undefined"
  | .null => "null"
  | .boolean => "boolean"
  | .number => "number"
  | .string => "string"
  | .array => "array"
  | .object => "object"

def kind : Value → Kind
  | .undefined => .undefined
  | .null => .null
  | .boolean _ => .boolean
  | .number _ => .number
  | .string _ => .string
  | .array _ => .array
  | .object _ => .object

def isNullish : Value → Bool
  | .undefined | .null => true
  | _ => false

/-- Whether the value counts as true in a condition. Arrays and objects do, also empty ones;
strings do unless they are empty. -/
def isTruthy : Value → Bool
  | .undefined | .null => false
  | .boolean b => b
  | .number n => n.isTruthy
  | .string s => s != ""
  | .array _ | .object _ => true

def ofLength (n : Nat) : Value :=
  .number (.integer (.ofNat n))

/-- The member or property `name`. An object has its members, an array and a string have a
`length`, and everything else is `undefined`. -/
def field (v : Value) (name : String) : Value :=
  match v with
  | .object members => (members.find? name).getD .undefined
  | .array items => if name = "length" then ofLength items.length else .undefined
  | .string s => if name = "length" then ofLength s.length else .undefined
  | _ => .undefined

end Value

end PredicateLang
