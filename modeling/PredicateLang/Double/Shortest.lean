import PredicateLang.Decimal.Basic
import PredicateLang.Double.Nearest

/-!
# The shortest decimal of a double

`Magnitude.shortest tie x` is the decimal with the fewest digits that reads back as `x`. The
grids of the multiples of `10 ^ e` are tried from coarse to fine. On each the only candidates
are the two neighbours of `x`, for if any point of a grid reads back as `x`, so does one of
them. Where both do, the nearer one is taken, and `tie` decides between two equally near.

A candidate is accepted because it reads back, so the result does by construction.
-/

namespace PredicateLang

namespace Magnitude

def inUnitsOf (x : Magnitude) : (exponent : Int) → Nat × Nat
  | .ofNat up => (x.units, Nat.pow 2 1074 * Nat.pow 10 up)
  | .negSucc down => (x.units * Nat.pow 10 (down + 1), Nat.pow 2 1074)

def readsBack (x : Magnitude) (digits : Nat) (exponent : Int) : Bool :=
  nearestDecimalRank digits exponent == x.val

def prefersUpper (tie : Tie) (num den : Nat) : Bool :=
  let twice := 2 * (num % den)
  if twice = den then
    match tie with
    | .up => true
    | .even => num / den % 2 == 1
  else decide (den < twice)

/-- The multiple of `10 ^ exponent` that reads back as `x` and is nearest to it, if there is
one. -/
def onGrid? (tie : Tie) (x : Magnitude) (exponent : Int) : Option Nat :=
  let (num, den) := x.inUnitsOf exponent
  let low := num / den
  let lowReads := x.readsBack low exponent
  let highReads := x.readsBack (low + 1) exponent
  if highReads && (!lowReads || prefersUpper tie num den) then some (low + 1)
  else if lowReads then some low
  else none

def exact (x : Magnitude) : Decimal :=
  ⟨x.units * Nat.pow 5 1074, -1074⟩

def search (tie : Tie) (x : Magnitude) : (grids : Nat) → (exponent : Int) → Decimal
  | 0, _ => x.exact
  | grids + 1, exponent =>
      match onGrid? tie x exponent with
      | some digits => ⟨digits, exponent⟩
      | none => search tie x grids (exponent - 1)

/-- An exponent of ten whose power lies above the magnitude, and above it by less than a
hundredfold: `0.30103` is slightly more than the decimal logarithm of two. -/
def ceilingExponent (x : Magnitude) : Int :=
  ((x.units.log2 : Int) - 1073) * 30103 / 100000 + 1

/-- The decimal with the fewest digits that reads back as `x`, and the nearest of these.
Seventeen digits are always enough, so twenty grids below the ceiling hold one. -/
def shortest (tie : Tie) (x : Magnitude) : Decimal :=
  if x = zero then ⟨0, 0⟩ else search tie x 20 x.ceilingExponent

end Magnitude

namespace Double

def finiteText (style : Decimal.Style) (negative : Bool) (x : Magnitude) : String :=
  let digits := (x.shortest style.tie).chars style
  .ofList (if negative then '-' :: digits else digits)

/-- Plain text never takes an exponent and writes a whole number without a point. -/
def plainStyle : Decimal.Style :=
  ⟨.up, fun _ => true, false⟩

def text : Double → String
  | .finite negative x => finiteText plainStyle negative x
  | .infinite negative => if negative then "-inf" else "inf"
  | .nan => "NaN"

end Double

end PredicateLang
