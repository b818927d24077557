import PredicateLang.Double.Basic

/-!
# Rounding to the nearest double

`Double.nearest num den` is the double nearest to the quotient `num / den`, an exact half
going to the neighbour of even rank and everything beyond the largest double to infinity.

The quotient is counted in units of `2 ^ -1074`. Where it needs more than 53 binary digits,
the lowest ones are rounded away; the rank of the result is then the number of digits dropped,
times the length of a block, plus the digits kept. A carry into a new binary digit needs no
case of its own, because ranks run on from one block to the next.
-/

namespace PredicateLang

/-- The whole number nearest to `num / den`, an exact half going to the even neighbour. -/
def roundHalfEven (num den : Nat) : Nat :=
  let whole := num / den
  let twice := 2 * (num % den)
  if twice < den then whole
  else if twice = den ∧ whole % 2 = 0 then whole
  else whole + 1

def excessDigits (units : Nat) : Nat :=
  units.log2 - 52

/-- The rank of the double nearest to `num / den`; `magnitudeCount` or more stands for
infinity. -/
def nearestRank (num den : Nat) : Nat :=
  let scaled := num * Nat.pow 2 1074
  let dropped := excessDigits (scaled / den)
  dropped * Nat.pow 2 52 + roundHalfEven scaled (den * Nat.pow 2 dropped)

def nearestDecimalRank (digits : Nat) : (exponent : Int) → Nat
  | .ofNat up => nearestRank (digits * Nat.pow 10 up) 1
  | .negSucc down => nearestRank digits (Nat.pow 10 (down + 1))

namespace Double

def ofRank (negative : Bool) (rank : Nat) : Double :=
  if h : rank < magnitudeCount then .finite negative ⟨rank, h⟩ else .infinite negative

def nearest (negative : Bool) (num den : Nat) : Double :=
  ofRank negative (nearestRank num den)

def nearestDecimal (negative : Bool) (digits : Nat) (exponent : Int) : Double :=
  ofRank negative (nearestDecimalRank digits exponent)

def ofInt (n : Int) : Double :=
  nearest (n < 0) n.natAbs 1

end Double

end PredicateLang
