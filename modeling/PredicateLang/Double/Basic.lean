/-!
# Double-precision numbers

The values of the IEEE 754 binary64 format, by what they mean. The finite magnitudes are
numbered in ascending order: rank 0 is zero, rank 1 the smallest positive double, and rank
`2047 * 2 ^ 52 - 1` the largest. `Magnitude.units` is the exact value of a magnitude, counted
in units of `2 ^ -1074`, of which every finite double is a whole number.

Zero has two signs, which `same` does not tell apart; a NaN differs from everything.
-/

namespace PredicateLang

/-- How many finite magnitudes there are: 2047 blocks, each of `2 ^ 52` doubles. -/
def magnitudeCount : Nat := 2047 * Nat.pow 2 52

/-- A finite nonnegative double, numbered in ascending order from zero. -/
abbrev Magnitude : Type := Fin magnitudeCount

inductive Double
  | finite (negative : Bool) (magnitude : Magnitude)
  | infinite (negative : Bool)
  | nan
  deriving DecidableEq, Inhabited

namespace Magnitude

def zero : Magnitude := ⟨0, by decide⟩

/-- The significant digits of a magnitude, as a whole number of at most 53 binary digits. Only
the lowest block, of the magnitudes below `2 ^ -1022`, has no leading digit. -/
def significand (x : Magnitude) : Nat :=
  if x.val < Nat.pow 2 52 then x.val else Nat.pow 2 52 + x.val % Nat.pow 2 52

/-- The power of two that scales the significand, counted from `2 ^ -1074`. The two lowest
blocks are evenly spaced; from then on each is spaced twice as widely as the one below. -/
def shift (x : Magnitude) : Nat :=
  x.val / Nat.pow 2 52 - 1

/-- The exact value of a magnitude, in units of `2 ^ -1074`. -/
def units (x : Magnitude) : Nat :=
  x.significand * Nat.pow 2 x.shift

end Magnitude

namespace Double

def zero : Double := .finite false .zero

def same : Double → Double → Bool
  | .finite s x, .finite t y => x == y && (s == t || x == .zero)
  | .infinite s, .infinite t => s == t
  | _, _ => false

def isFinite : Double → Bool
  | .finite .. => true
  | _ => false

def isTruthy : Double → Bool
  | .finite _ x => x != .zero
  | .infinite _ => true
  | .nan => false

def neg : Double → Double
  | .finite s x => .finite (!s) x
  | .infinite s => .infinite (!s)
  | .nan => .nan

/-- The double of a 64-bit pattern: the sign bit, then the rank. Patterns above the rank of
infinity are NaNs. -/
def ofBits (bits : UInt64) : Double :=
  let rank := bits.toNat % Nat.pow 2 63
  let negative := decide (Nat.pow 2 63 ≤ bits.toNat)
  if h : rank < magnitudeCount then .finite negative ⟨rank, h⟩
  else if rank = magnitudeCount then .infinite negative
  else .nan

def toBits : Double → UInt64
  | .finite s x => .ofNat ((if s then Nat.pow 2 63 else 0) + x.val)
  | .infinite s => .ofNat ((if s then Nat.pow 2 63 else 0) + magnitudeCount)
  | .nan => 0x7ff8000000000000

end Double

end PredicateLang
