import PredicateLang.Double.Nearest

/-!
# Decimals of 96 bits

A `Decimal96` is a signed whole number below `2 ^ 96` over a power of ten of at most 28. Whole
numbers and doubles are compared as such decimals, so `Double.toDecimal96?` fixes which of
them count as equal.

The conversion starts from the exact value `m * 2 ^ e` of a double and trades powers of two
and five for powers of ten, one at a time. It keeps the coefficient below the limit by giving
up low digits, and ends with a coefficient below `2 ^ 52` unless the value is a whole number.
It is exact on whole numbers and approximate on fractions: `1.0000000000000002` becomes 1.
-/

namespace PredicateLang

structure Decimal96 where
  negative : Bool
  coefficient : Nat
  scale : Nat
  deriving DecidableEq, Inhabited

namespace Decimal96

def limit : Nat := Nat.pow 2 96

/-- Takes the factors of five out of the number `m * 10 ^ e * 5 ^ fives`. While an odd `m` has room
for it, a factor is multiplied in; otherwise it goes into the power of ten, at the price of a
binary digit. -/
def divideFives : (fives m : Nat) → (e : Int) → Nat × Int
  | 0, m, e => (m, e)
  | fives + 1, m, e =>
      if m % 2 = 1 ∧ 5 * m < limit then divideFives fives (5 * m) e
      else divideFives fives (m / 2) (e + 1)

/-- Takes the factors of five out of the number `m * 10 ^ e / 5 ^ fives`. While `m` has room for
it, a factor is taken from a power of ten by doubling `m`; after that `m` is divided by it, unless
so many of the powers of ten are left that the result cannot be held. -/
def multiplyFives : (fives m : Nat) → (e : Int) → Option (Nat × Int)
  | 0, m, e => some (m, e)
  | fives + 1, m, e =>
      if m < limit / 2 then multiplyFives fives (2 * m) (e - 1)
      else if 2 * e > fives + 1 then none
      else multiplyFives fives (m / 5) e

def multiplyTens : (tens m : Nat) → Option Nat
  | 0, m => some m
  | tens + 1, m => if 10 * m < limit then multiplyTens tens (10 * m) else none

def roundedTenth (m : Nat) : Nat :=
  m / 10 + if 5 ≤ m % 10 then 1 else 0

/-- Drops `extra` decimal places of `m / 10 ^ scale`. What falls below one unit of the last
place on the way is zero. -/
def dropPlaces : (extra m scale : Nat) → Nat × Nat
  | 0, m, scale => (m, scale)
  | extra + 1, m, scale =>
      if m / 10 = 0 then (0, 0) else dropPlaces extra (roundedTenth m) (scale - 1)

def dropToDouble : (scale m : Nat) → Nat × Nat
  | 0, m => (m, 0)
  | scale + 1, m =>
      if Nat.pow 2 52 ≤ m then dropToDouble scale (roundedTenth m) else (m, scale + 1)

def ofScaled? (negative : Bool) (m : Nat) (e : Int) : Option Decimal96 := do
  let m ← multiplyTens e.toNat m
  let scale := (-e).toNat
  let (m, scale) := dropPlaces (scale - 28) m scale
  let (m, scale) := dropToDouble scale m
  pure ⟨negative, m, scale⟩

def equalsInt (d : Decimal96) (n : Int) : Bool :=
  (if d.negative then -(d.coefficient : Int) else d.coefficient) == n * Int.pow 10 d.scale

end Decimal96

def Magnitude.toDecimal96? (negative : Bool) (x : Magnitude) : Option Decimal96 :=
  let e : Int := x.shift - 1074
  if e ≤ 0 then
    let (m, e) := Decimal96.divideFives e.natAbs x.significand e
    Decimal96.ofScaled? negative m e
  else do
    let (m, e) ← Decimal96.multiplyFives e.natAbs x.significand e
    Decimal96.ofScaled? negative m e

namespace Double

def toDecimal96? : Double → Option Decimal96
  | .finite negative x => x.toDecimal96? negative
  | _ => none

/-- Whether a double counts as equal to a whole number. A double that has no decimal is
compared with the double nearest to the number. -/
def equalsInt (x : Double) (n : Int) : Bool :=
  match x with
  | .nan => false
  | x =>
      match x.toDecimal96? with
      | some d => d.equalsInt n
      | none => (ofInt n).same x

end Double

end PredicateLang
