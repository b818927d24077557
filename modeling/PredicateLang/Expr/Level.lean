import PredicateLang.Expr.Basic

/-!
# Binding levels

Which tokens may start an expression, which may continue one, and how tightly they bind. From
loosest to tightest: `||`, `&&`, `=`, `??`, `!`, and the accesses `.` and `?.`.
-/

namespace PredicateLang

inductive Level
  | none
  | or
  | and
  | equality
  | coalesce
  | not
  | access
  | primary
  deriving DecidableEq, Inhabited

namespace Level

def rank : Level → Nat
  | none => 0
  | or => 1
  | and => 2
  | equality => 3
  | coalesce => 4
  | not => 5
  | access => 6
  | primary => 7

/-- The next tighter level. Nothing is tighter than `primary`. -/
def next : Level → Level
  | none => or
  | or => and
  | and => equality
  | equality => coalesce
  | coalesce => not
  | not => access
  | access => primary
  | primary => primary

theorem rank_next (l : Level) : l.next.rank = min (l.rank + 1) 7 := by
  cases l <;> rfl

end Level

inductive Opening
  /-- The token is an expression by itself. -/
  | leaf (e : Expr)
  /-- An expression and a closing parenthesis follow. -/
  | group
  /-- The operand of a negation follows. -/
  | not

inductive Continuation
  /-- The right operand follows. -/
  | binary (op : Connective)
  /-- The name of a field follows. -/
  | access (kind : Access)
  deriving DecidableEq

def Connective.level : Connective → Level
  | .or => .or
  | .and => .and
  | .equals => .equality
  | .coalesce => .coalesce

def Continuation.level : Continuation → Level
  | .binary op => op.level
  | .access _ => .access

namespace Token.Kind

def opening? : Kind → Option Opening
  | symbol .openParen => some .group
  | symbol .exclamation => some .not
  | symbol _ => none
  | keyword k => some (.leaf (.literal k.value))
  | name s => some (.leaf (.name s))
  | number n => some (.leaf (.literal (.number n)))
  | string s => some (.leaf (.literal (.string s)))

def continuation? : Kind → Option Continuation
  | symbol .equals => some (.binary .equals)
  | symbol .doubleAmpersand => some (.binary .and)
  | symbol .doubleBar => some (.binary .or)
  | symbol .doubleQuestion => some (.binary .coalesce)
  | symbol .dot => some (.access .strict)
  | symbol .questionDot => some (.access .lenient)
  | _ => none

def level (k : Kind) : Level :=
  match k.continuation?, k.opening? with
  | some c, _ => c.level
  | none, some .not => .not
  | none, _ => .none

def name? : Kind → Option String
  | name s => some s
  | _ => none

end Token.Kind

end PredicateLang
