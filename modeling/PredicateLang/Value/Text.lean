import PredicateLang.Json.Text
import PredicateLang.Value.Document

/-!
# The text of a value

Scalars are written plainly, and a string as it is, without quotes. Arrays and objects are
written as compact JSON.
-/

namespace PredicateLang.Value

def text : Value → String
  | .undefined => "undefined"
  | .null => "null"
  | .boolean b => if b then "true" else "false"
  | .number n => n.text
  | .string s => s
  | .array items => (toDocument (.array items)).compact
  | .object members => (toDocument (.object members)).compact

end PredicateLang.Value
