import PredicateLang.Double.Decimal96
import PredicateLang.Double.Shortest

/-!
# Numbers

A number is held as a 64-bit integer or as a double. The two are representations of one type:
`Number.equals` compares by value across them, while `Number.same` also tells them apart.
-/

namespace PredicateLang

inductive Number
  | integer (n : Int64)
  | real (x : Double)
  deriving DecidableEq, Inhabited

namespace Number

/-- Equality of representation and value: an integer is no double, and a NaN is not even the
same as itself. -/
def same : Number → Number → Bool
  | .integer m, .integer n => m == n
  | .real x, .real y => x.same y
  | _, _ => false

def equals : Number → Number → Bool
  | .integer m, .integer n => m == n
  | .real x, .real y => x.same y
  | .integer n, .real x => x.equalsInt n.toInt
  | .real x, .integer n => x.equalsInt n.toInt

def isTruthy : Number → Bool
  | .integer n => n != 0
  | .real x => x.isTruthy

def text : Number → String
  | .integer n => intText n.toInt
  | .real x => x.text

end Number

end PredicateLang
