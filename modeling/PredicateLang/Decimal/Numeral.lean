/-!
# Decimal numerals

Whole numbers as digit strings, written without leading zeros and read with any number of
them.
-/

namespace PredicateLang

def numeral (n : Nat) : List Char :=
  Nat.toDigits 10 n

def ofNumeral (digits : List Char) : Nat :=
  Nat.ofDigitChars 10 digits 0

@[simp] theorem ofNumeral_numeral (n : Nat) : ofNumeral (numeral n) = n :=
  Nat.ofDigitChars_toDigits (by decide) (by decide)

def natText (n : Nat) : String :=
  .ofList (numeral n)

def intText (n : Int) : String :=
  .ofList (if n < 0 then '-' :: numeral n.natAbs else numeral n.natAbs)

end PredicateLang
