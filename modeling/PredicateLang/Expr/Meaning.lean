import PredicateLang.Expr.Reader
import PredicateLang.Scope

/-!
# The value of an expression

`Expr.evaluate` computes the value of an expression in a scope. Both operands of a connective
are always evaluated, the left one first. The only way to fail is to take a field of a nullish
value by a strict access.
-/

namespace PredicateLang

inductive EvalError
  /-- A strict access to a field of a value that is null or undefined. -/
  | nullFieldAccess (field : String) (base : Value.Kind)
  deriving DecidableEq, Inhabited

def EvalError.message : EvalError → String
  | .nullFieldAccess field base =>
      "Cannot access property '" ++ field ++ "' of " ++ base.name ++ " value"

/-- The value of two operands joined by a connective. Apart from equality, it is one of
them. -/
def Connective.apply (op : Connective) (left right : Value) : Value :=
  match op with
  | .equals => .boolean (left.equals right)
  | .and => if left.isTruthy then right else left
  | .or => if left.isTruthy then left else right
  | .coalesce => if left.isNullish then right else left

def Access.apply (kind : Access) (base : Value) (field : String) : Except EvalError Value :=
  if base.isNullish then
    match kind with
    | .strict => .error (.nullFieldAccess field base.kind)
    | .lenient => .ok .null
  else .ok (base.field field)

namespace Expr

/-- The value of an expression in a scope. A field that is not a name is `undefined`, whatever
it is taken from. -/
def evaluate (scope : Scope) : Expr → Except EvalError Value
  | name s => .ok (scope.get s)
  | literal v => .ok v
  | not operand => do
      let v ← operand.evaluate scope
      pure (.boolean (!v.isTruthy))
  | binary op left right => do
      let l ← left.evaluate scope
      let r ← right.evaluate scope
      pure (op.apply l r)
  | access kind base field => do
      let v ← base.evaluate scope
      match field with
      | name s => kind.apply v s
      | _ => pure .undefined
  | group inner => inner.evaluate scope

end Expr

inductive Error
  | read (e : ReadError)
  | eval (e : EvalError)
  deriving DecidableEq, Inhabited

def Error.message : Error → String
  | .read e => e.message
  | .eval e => "Runtime error: " ++ e.message

def evaluateText (source : String) (scope : Scope) : Except Error Value := do
  let e ← (Expr.ofText source).mapError .read
  (e.evaluate scope).mapError .eval

end PredicateLang
