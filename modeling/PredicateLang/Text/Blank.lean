/-!
# Blanks and white space

Blanks are the four characters that may separate the tokens of an expression, and those of a
JSON text. White space is the wider class of all characters with the Unicode property
`White_Space`.
-/

namespace PredicateLang

def isBlank (c : Char) : Bool :=
  c == ' ' || c == '\n' || c == '\t' || c == '\r'

def whiteSpaceRanges : List (Nat × Nat) :=
  [(0x0009, 0x000D), (0x0020, 0x0020), (0x0085, 0x0085), (0x00A0, 0x00A0), (0x1680, 0x1680),
    (0x2000, 0x200A), (0x2028, 0x2029), (0x202F, 0x202F), (0x205F, 0x205F), (0x3000, 0x3000)]

def isWhiteSpace (c : Char) : Bool :=
  whiteSpaceRanges.any fun range => range.1 ≤ c.toNat && c.toNat ≤ range.2

def isAllWhiteSpace (text : String) : Bool :=
  text.toList.all isWhiteSpace

/-- The property has 25 characters. -/
example : (whiteSpaceRanges.map fun range => range.2 + 1 - range.1).sum = 25 := by decide

end PredicateLang
