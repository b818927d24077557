import PredicateLang.Double.Shortest
import PredicateLang.Json.Document

/-!
# JSON text

A document is written compactly, or over several lines with two blanks to a level. Strings
escape what JSON requires to be escaped and nothing else. A double is written with the fewest
digits that read back, in full from `0.00001` up to sixteen digits before the point and with an
exponent beyond.
-/

namespace PredicateLang.Json

/-- How a double is written: with a point, or with an exponent if the leading digit lies below
the fifth decimal place or above the sixteenth digit. -/
def style : Decimal.Style :=
  ⟨.even, fun leading => -5 ≤ leading && leading ≤ 15, true⟩

def Number.text : Number → String
  | .whole n _ _ => intText n
  | .real negative magnitude => Double.finiteText style negative magnitude

def escaped (c : Char) : List Char :=
  if c = '"' ∨ c = '\\' then ['\\', c]
  else if c = '\x08' then ['\\', 'b']
  else if c = '\t' then ['\\', 't']
  else if c = '\n' then ['\\', 'n']
  else if c = '\x0c' then ['\\', 'f']
  else if c = '\r' then ['\\', 'r']
  else if c < ' ' then
    ['\\', 'u', '0', '0', Nat.digitChar (c.toNat / 16), Nat.digitChar (c.toNat % 16)]
  else [c]

def quoted (s : String) : String :=
  .ofList ('"' :: (s.toList.flatMap escaped ++ ['"']))

namespace Document

mutual

def compact : Document → String
  | .null => "null"
  | .boolean b => if b then "true" else "false"
  | .number n => n.text
  | .string s => quoted s
  | .array items => "[" ++ ",".intercalate (compactItems items) ++ "]"
  | .object members => "\x7b" ++ ",".intercalate (compactMembers members) ++ "\x7d"

def compactItems : List Document → List String
  | [] => []
  | item :: items => item.compact :: compactItems items

def compactMembers : {bound : Option String} → Entries Document bound → List String
  | _, .nil => []
  | _, .cons name value _ members =>
      (quoted name ++ ":" ++ value.compact) :: compactMembers members

end

def indent (level : Nat) : String :=
  .ofList (List.replicate (2 * level) ' ')

/-- The parts of an array or object, each on a line of its own one level further in. Nothing
stands between the brackets if there are no parts. -/
def block (left right : String) (level : Nat) (parts : List String) : String :=
  if parts.isEmpty then left ++ right
  else
    left ++ "\n" ++ ",\n".intercalate (parts.map (indent (level + 1) ++ ·)) ++
      "\n" ++ indent level ++ right

mutual

def prettyAt (level : Nat) : Document → String
  | .null => "null"
  | .boolean b => if b then "true" else "false"
  | .number n => n.text
  | .string s => quoted s
  | .array items => block "[" "]" level (prettyItems (level + 1) items)
  | .object members => block "\x7b" "\x7d" level (prettyMembers (level + 1) members)

def prettyItems (level : Nat) : List Document → List String
  | [] => []
  | item :: items => item.prettyAt level :: prettyItems level items

def prettyMembers (level : Nat) :
    {bound : Option String} → Entries Document bound → List String
  | _, .nil => []
  | _, .cons name value _ members =>
      (quoted name ++ ": " ++ value.prettyAt level) :: prettyMembers level members

end

def pretty (d : Document) : String :=
  d.prettyAt 0

end Document

end PredicateLang.Json
