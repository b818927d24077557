import PredicateLang.Decimal.Numeral

/-!
# Decimals and how they are written

A `Decimal` is a whole number of digits scaled by a power of ten. A `Decimal.Style` says which
decimals are written out in full, which take an exponent, and whether a whole number keeps a
decimal point; `Decimal.chars` writes a decimal in a style.
-/

namespace PredicateLang

structure Decimal where
  digits : Nat
  exponent : Int
  deriving DecidableEq, Inhabited

inductive Tie
  | up
  | even
  deriving DecidableEq, Inhabited

namespace Decimal

structure Style where
  /-- Which neighbour is taken where two decimals of a double are equally near. -/
  tie : Tie
  /-- The exponents of the leading digit at which no exponent is written. -/
  positional : Int → Bool
  /-- Whether a whole number that is written out in full ends in `.0`. -/
  pointed : Bool

/-- A digit string with its last `places` digits behind a point. Zeros in front make up for
missing digits, so that at least one digit stands before the point. -/
def withPoint (places : Nat) (digits : List Char) : List Char :=
  let padded := List.replicate (places + 1 - digits.length) '0' ++ digits
  let whole := padded.length - places
  padded.take whole ++ '.' :: padded.drop whole

def leadingExponent (d : Decimal) : Int :=
  d.exponent + (numeral d.digits).length - 1

def written (pointed : Bool) (d : Decimal) : List Char :=
  match d.exponent with
  | .ofNat up =>
      numeral d.digits ++ List.replicate up '0' ++ if pointed then ['.', '0'] else []
  | .negSucc down => withPoint (down + 1) (numeral d.digits)

def scientific (d : Decimal) : List Char :=
  let mantissa := match numeral d.digits with
    | first :: second :: more => first :: '.' :: second :: more
    | short => short
  let power := d.leadingExponent
  mantissa ++ 'e' :: (if power < 0 then '-' else '+') :: numeral power.natAbs

def chars (style : Style) (d : Decimal) : List Char :=
  if style.positional d.leadingExponent then d.written style.pointed else d.scientific

end Decimal

end PredicateLang
