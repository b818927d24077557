import PredicateLang.Token.Lexeme
import PredicateLang.Value.Equality
import PredicateLang.Value.Text

/-!
# Expressions

The trees of the predicate language, their fully parenthesized text, and their height. A tree
records the parentheses of its source as `group` nodes, which mean nothing.

The field of an access is a tree of its own, although reading a source puts a name there.
-/

namespace PredicateLang

inductive Connective
  | equals
  | and
  | or
  | coalesce
  deriving DecidableEq, Inhabited

def Connective.symbol : Connective → Symbol
  | .equals => .equals
  | .and => .doubleAmpersand
  | .or => .doubleBar
  | .coalesce => .doubleQuestion

inductive Access
  /-- A nullish value has no fields. -/
  | strict
  /-- Every field of a nullish value is `null`. -/
  | lenient
  deriving DecidableEq, Inhabited

def Access.symbol : Access → Symbol
  | .strict => .dot
  | .lenient => .questionDot

inductive Expr
  | name (s : String)
  | literal (v : Value)
  | not (operand : Expr)
  | binary (op : Connective) (left right : Expr)
  | access (kind : Access) (base field : Expr)
  | group (inner : Expr)
  deriving Inhabited

namespace Expr

def quoted (s : String) : String :=
  .ofList (Lexeme.string (Lexeme.escape s.toList)).chars

def literalText : Value → String
  | .string s => quoted s
  | v => v.text

def text : Expr → String
  | name s => s
  | literal v => literalText v
  | not operand => "(" ++ Symbol.exclamation.text ++ operand.text ++ ")"
  | binary op left right =>
      "(" ++ left.text ++ " " ++ op.symbol.text ++ " " ++ right.text ++ ")"
  | access kind base field => "(" ++ base.text ++ kind.symbol.text ++ field.text ++ ")"
  | group inner => "(" ++ inner.text ++ ")"

/-- The number of nodes on the longest path from the root to a leaf. -/
def height : Expr → Nat
  | name _ | literal _ => 1
  | not operand => operand.height + 1
  | binary _ left right => max left.height right.height + 1
  | access _ base field => max base.height field.height + 1
  | group inner => inner.height + 1

def same : Expr → Expr → Bool
  | name s, name t => s == t
  | literal v, literal w => v.same w
  | not a, not b => a.same b
  | binary op a b, binary op' a' b' => op == op' && (a.same a' && b.same b')
  | access k a b, access k' a' b' => k == k' && (a.same a' && b.same b')
  | group a, group b => a.same b
  | _, _ => false

end Expr

end PredicateLang
