import PredicateLang.Proofs.Evaluation.Failure

/-!
# Making accesses lenient

`Expr.RelaxesTo` relates an expression to what it becomes when some of its strict accesses, any of
them, are made lenient. The two kinds of access differ only in what they do to null and undefined,
where the strict one fails. So an expression that has a value keeps it, and one that is left without
strict accesses has a value in every scope (`Expr.evaluate_relaxed`).
-/

namespace PredicateLang

/-- The second outcome has the value of the first, if that has one. -/
def EvalError.Keeps (r r' : Except EvalError Value) : Prop :=
  ∀ v : Value, r = .ok v → r' = .ok v

namespace EvalError.Keeps

variable {r r' : Except EvalError Value}

theorem refl (r : Except EvalError Value) : Keeps r r :=
  fun _ h => h

theorem bind {next next' : Value → Except EvalError Value} (h : Keeps r r')
    (onward : ∀ v : Value, Keeps (next v) (next' v)) : Keeps (r >>= next) (r' >>= next') := by
  intro w value
  cases r with
  | error err => contradiction
  | ok v =>
      rw [h v rfl]
      exact onward v w value

end EvalError.Keeps

theorem Access.keeps_apply_lenient (kind : Access) (v : Value) (field : String) :
    EvalError.Keeps (kind.apply v field) (Access.lenient.apply v field) := by
  intro w value
  cases kind with
  | lenient => exact value
  | strict =>
      cases nullish : v.isNullish with
      | true => simp [apply, nullish] at value
      | false => simpa [apply, nullish] using value

namespace Expr

/-- The second expression is the first with some of its strict accesses made lenient. -/
inductive RelaxesTo : Expr → Expr → Prop
  | name (s : String) : RelaxesTo (name s) (name s)
  | literal (v : Value) : RelaxesTo (literal v) (literal v)
  | not {a a' : Expr} : RelaxesTo a a' → RelaxesTo (not a) (not a')
  | binary (op : Connective) {a a' b b' : Expr} :
      RelaxesTo a a' → RelaxesTo b b' → RelaxesTo (binary op a b) (binary op a' b')
  | access (kind : Access) {a a' field field' : Expr} :
      RelaxesTo a a' → RelaxesTo field field' → RelaxesTo (access kind a field) (access kind a' field')
  | relax {a a' field field' : Expr} : RelaxesTo a a' → RelaxesTo field field' →
      RelaxesTo (access .strict a field) (access .lenient a' field')
  | group {a a' : Expr} : RelaxesTo a a' → RelaxesTo (group a) (group a')

def relaxed : Expr → Expr
  | name s => name s
  | literal v => literal v
  | not operand => not operand.relaxed
  | binary op left right => binary op left.relaxed right.relaxed
  | access _ base field => access .lenient base.relaxed field.relaxed
  | group inner => group inner.relaxed

variable {scope : Scope} {e e' n : Expr}

theorem relaxesTo_relaxed (e : Expr) : e.RelaxesTo e.relaxed := by
  induction e with
  | name s => exact .name s
  | literal v => exact .literal v
  | not a ih => exact .not ih
  | binary op a b ih ih' => exact .binary op ih ih'
  | access kind a field ih ih' =>
      cases kind with
      | strict => exact .relax ih ih'
      | lenient => exact .access .lenient ih ih'
  | group a ih => exact .group ih

theorem keeps_evaluate_access {kind kind' : Access} {a a' field field' : Expr}
    (base : EvalError.Keeps (a.evaluate scope) (a'.evaluate scope))
    (fields : field.RelaxesTo field')
    (weaker : ∀ (v : Value) (s : String), EvalError.Keeps (kind.apply v s) (kind'.apply v s)) :
    EvalError.Keeps ((access kind a field).evaluate scope)
      ((access kind' a' field').evaluate scope) := by
  refine base.bind fun v => ?_
  cases fields with
  | name s => exact weaker v s
  | _ => exact .refl _

/-- An expression that has a value keeps it when accesses are made lenient. -/
theorem RelaxesTo.keeps_evaluate (h : e.RelaxesTo e') (scope : Scope) :
    EvalError.Keeps (e.evaluate scope) (e'.evaluate scope) := by
  induction h with
  | name s | literal v => exact .refl _
  | not _ ih => exact ih.bind fun v => .refl _
  | binary op _ _ ih ih' => exact ih.bind fun v => ih'.bind fun w => .refl _
  | access kind _ fields ih _ => exact keeps_evaluate_access ih fields fun v s => .refl _
  | relax _ fields ih _ =>
      exact keeps_evaluate_access ih fields (Access.strict.keeps_apply_lenient)
  | group _ ih => exact ih

theorem operands_relaxed (e : Expr) : e.relaxed.operands = e.operands.map relaxed := by
  cases e <;> rfl

theorem Visits.exists_relaxed (h : e.relaxed.Visits n) : ∃ m : Expr, n = m.relaxed := by
  induction h with
  | root => exact ⟨e, rfl⟩
  | operand _ operand ih =>
      obtain ⟨m, rfl⟩ := ih
      rw [operands_relaxed] at operand
      obtain ⟨a, -, rfl⟩ := List.mem_map.1 operand
      exact ⟨a, rfl⟩

theorem not_blocked_relaxed (m : Expr) (err : EvalError) : ¬ m.relaxed.Blocked scope err := by
  rintro ⟨base, field, v, strict, -⟩
  cases m <;> simp [relaxed] at strict

theorem exists_evaluate_relaxed (e : Expr) (scope : Scope) :
    ∃ v : Value, e.relaxed.evaluate scope = .ok v := by
  refine exists_evaluate_eq_ok_iff.2 fun n err visits => ?_
  obtain ⟨m, rfl⟩ := visits.exists_relaxed
  exact not_blocked_relaxed m err

/-- Making strict accesses lenient, whichever of them, does not change a value that an expression
has. When all of them are made lenient, the expression has a value in every scope, also where it had
none before. -/
theorem evaluate_relaxed (e : Expr) (scope : Scope) :
    (∀ (e' : Expr) (v : Value), e.RelaxesTo e' → e.evaluate scope = .ok v →
      e'.evaluate scope = .ok v) ∧
    e.RelaxesTo e.relaxed ∧ ∃ v : Value, e.relaxed.evaluate scope = .ok v := by
  refine ⟨?_, relaxesTo_relaxed e, exists_evaluate_relaxed e scope⟩
  intro e' v relaxes value
  exact relaxes.keeps_evaluate scope v value

/-- In `a.length ?? a.b` the second access may be made lenient, where `a` is a text. -/
theorem evaluate_relaxed_text :
    (binary .coalesce (access .strict (name "a") (name "length"))
        (access .lenient (name "a") (name "b"))).evaluate (.ofList [("a", .string "x")]) =
      .ok (.ofLength 1) := by
  refine (evaluate_relaxed (binary .coalesce (access .strict (name "a") (name "length"))
    (access .strict (name "a") (name "b"))) _).1 _ _ ?_ rfl
  exact .binary _ (.access _ (.name _) (.name _)) (.relax (.name _) (.name _))

end Expr

end PredicateLang
