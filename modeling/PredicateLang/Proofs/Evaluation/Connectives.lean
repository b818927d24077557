import PredicateLang.Proofs.Evaluation.Failure

/-!
# Chains and conditions

The connectives `||`, `&&` and `??` do not compute anything: each of them has the value of one of
its operands, the left one if that settles the matter (`Connective.SelectsBy`). Two things follow.

Operands that are joined by one connective have the same value under every bracketing
(`Expr.Chain.evaluate_chain`): the first one that settles the matter, or else the last. All of them
are evaluated, so the first one that fails makes the chain fail, also behind one that settles it.

An expression made of `!`, `&&` and `||` counts as true just where the formula of propositional
logic that it looks like is true of its parts (`Condition.evaluate_condition`).
-/

namespace PredicateLang

/-- The connective has the value of its left operand if that passes the test, and otherwise the
value of its right operand. -/
inductive Connective.SelectsBy : Connective → (Value → Bool) → Prop
  | or : SelectsBy .or Value.isTruthy
  | and : SelectsBy .and fun v => !v.isTruthy
  | coalesce : SelectsBy .coalesce fun v => !v.isNullish

namespace Connective

variable {op : Connective} {settles : Value → Bool}

theorem SelectsBy.apply_eq (h : op.SelectsBy settles) (v w : Value) :
    op.apply v w = if settles v then v else w := by
  cases h with
  | or => rfl
  | and => cases truthy : v.isTruthy <;> simp [apply, truthy]
  | coalesce => cases nullish : v.isNullish <;> simp [apply, nullish]

theorem SelectsBy.apply_eq_or_eq (h : op.SelectsBy settles) (v w : Value) :
    op.apply v w = v ∨ op.apply v w = w := by
  rw [h.apply_eq]
  split
  · exact .inl rfl
  · exact .inr rfl

theorem isTruthy_apply_and (v w : Value) :
    (apply .and v w).isTruthy = (v.isTruthy && w.isTruthy) := by
  cases truthy : v.isTruthy <;> simp [apply, truthy]

theorem isTruthy_apply_or (v w : Value) :
    (apply .or v w).isTruthy = (v.isTruthy || w.isTruthy) := by
  cases truthy : v.isTruthy <;> simp [apply, truthy]

end Connective

/-- Of two lists of values the first one has the say, unless none of its values passes the test. -/
theorem Value.find?_or_getLast?_append {settles : Value → Bool} {vs ws : List Value}
    {v w : Value} (left : (vs.find? settles).or vs.getLast? = some v)
    (right : (ws.find? settles).or ws.getLast? = some w) :
    ((vs ++ ws).find? settles).or (vs ++ ws).getLast? = some (if settles v then v else w) := by
  rw [List.find?_append, List.getLast?_append]
  cases found : vs.find? settles with
  | some u =>
      rw [found] at left
      cases left
      rw [if_pos (List.find?_some found)]
      rfl
  | none =>
      -- The last value of the first list is left, which does not pass either.
      rw [found, Option.none_or] at left
      have passes : settles v = false :=
        Bool.eq_false_iff.2 (List.find?_eq_none.1 found v (List.mem_of_getLast? left))
      rw [Option.none_or, ← Option.or_assoc, right, passes]
      rfl

namespace Expr

variable {scope : Scope} {op : Connective} {settles : Value → Bool} {e e' a b : Expr}
  {es : List Expr} {v : Value}

theorem evaluate_not_eq_ok_iff :
    (not a).evaluate scope = .ok v ↔
      ∃ u : Value, a.evaluate scope = .ok u ∧ v = .boolean (!u.isTruthy) := by
  rw [evaluate]
  cases a.evaluate scope with
  | error err => exact ⟨by rintro ⟨⟩, by rintro ⟨_, ⟨⟩, -⟩⟩
  | ok u =>
      constructor
      · rintro ⟨⟩
        exact ⟨u, rfl, rfl⟩
      · rintro ⟨_, ⟨⟩, rfl⟩
        rfl

theorem evaluate_binary_eq_ok_iff :
    (binary op a b).evaluate scope = .ok v ↔
      ∃ u w : Value, a.evaluate scope = .ok u ∧ b.evaluate scope = .ok w ∧ v = op.apply u w := by
  rw [evaluate]
  cases a.evaluate scope with
  | error err => exact ⟨by rintro ⟨⟩, by rintro ⟨_, _, ⟨⟩, -⟩⟩
  | ok u =>
      cases b.evaluate scope with
      | error err => exact ⟨by rintro ⟨⟩, by rintro ⟨_, _, -, ⟨⟩, -⟩⟩
      | ok w =>
          constructor
          · rintro ⟨⟩
            exact ⟨u, w, rfl, rfl, rfl⟩
          · rintro ⟨_, _, ⟨⟩, ⟨⟩, rfl⟩
            rfl

/-! ### Chains of one connective -/

/-- The expression joins operands, in the order of the list, by one connective. They may be
bracketed in any way, also with parentheses around a single one. -/
inductive Chain (op : Connective) : List Expr → Expr → Prop
  | operand (e : Expr) : Chain op [e] e
  | group {es : List Expr} {e : Expr} : Chain op es e → Chain op es (group e)
  | link {es es' : List Expr} {e e' : Expr} :
      Chain op es e → Chain op es' e' → Chain op (es ++ es') (binary op e e')

theorem exists_values_or_failure (scope : Scope) (es : List Expr) :
    (∃ vs : List Value, es.map (evaluate scope) = vs.map .ok) ∨
      ∃ err : EvalError, es.findSome? (fun a => EvalError.of? (a.evaluate scope)) = some err := by
  induction es with
  | nil => exact .inl ⟨[], rfl⟩
  | cons a es ih =>
      cases outcome : a.evaluate scope with
      | error err => exact .inr ⟨err, by rw [List.findSome?_cons, outcome]; rfl⟩
      | ok v =>
          rcases ih with ⟨vs, values⟩ | ⟨err, failure⟩
          · exact .inl ⟨v :: vs, by rw [List.map_cons, List.map_cons, outcome, values]⟩
          · exact .inr ⟨err, by rw [List.findSome?_cons, outcome]; exact failure⟩

namespace Chain

theorem of?_evaluate (chain : Chain op es e) (scope : Scope) :
    EvalError.of? (e.evaluate scope) =
      es.findSome? fun a => EvalError.of? (a.evaluate scope) := by
  induction chain with
  | operand e => rw [List.findSome?_singleton]
  | group _ ih => exact ih
  | @link es es' e e' _ _ ih ih' =>
      rw [List.findSome?_append, ← ih, ← ih', evaluate]
      cases e.evaluate scope <;> cases e'.evaluate scope <;> rfl

/-- A chain whose operands have values has the first one of them that passes the test, or else the
last. -/
theorem exists_evaluate_eq_ok (chain : Chain op es e) (selects : op.SelectsBy settles)
    {vs : List Value} (values : es.map (evaluate scope) = vs.map .ok) :
    ∃ v : Value, (vs.find? settles).or vs.getLast? = some v ∧ e.evaluate scope = .ok v := by
  induction chain generalizing vs with
  | operand e =>
      obtain ⟨v, rfl, value⟩ := List.map_eq_singleton_iff.1 values.symm
      refine ⟨v, ?_, value.symm⟩
      cases passes : settles v <;> simp [passes]
  | group _ ih => exact ih values
  | link _ _ ih ih' =>
      rw [List.map_append] at values
      obtain ⟨us, ws, rfl, left, right⟩ := List.append_eq_map_iff.1 values
      obtain ⟨u, isFirst, value⟩ := ih left.symm
      obtain ⟨w, isFirst', value'⟩ := ih' right.symm
      refine ⟨_, Value.find?_or_getLast?_append isFirst isFirst', ?_⟩
      rw [← selects.apply_eq]
      exact evaluate_binary_eq_ok_iff.2 ⟨u, w, value, value', rfl⟩

theorem evaluate_eq (chain : Chain op es e) (chain' : Chain op es e')
    (selects : op.SelectsBy settles) (scope : Scope) : e'.evaluate scope = e.evaluate scope := by
  rcases exists_values_or_failure scope es with ⟨vs, values⟩ | ⟨err, failure⟩
  · obtain ⟨v, isFirst, value⟩ := chain.exists_evaluate_eq_ok selects values
    obtain ⟨v', isFirst', value'⟩ := chain'.exists_evaluate_eq_ok selects values
    rw [value, value', Option.some.inj (isFirst'.symm.trans isFirst)]
  · rw [EvalError.of?_eq_some_iff.1 ((chain.of?_evaluate scope).trans failure),
      EvalError.of?_eq_some_iff.1 ((chain'.of?_evaluate scope).trans failure)]

end Chain

/-- Operands joined by one of `||`, `&&` and `??` mean the same under every bracketing. If operands
fail, the error is that of the first one that does. Otherwise the value is that of the first operand
that passes the test of the connective, or else that of the last one: for `||` of the first that
counts as true, for `&&` of the first that does not, and for `??` of the first that is neither null
nor undefined. -/
theorem Chain.evaluate_chain (chain : Chain op es e) (selects : op.SelectsBy settles)
    (scope : Scope) :
    (∀ err : EvalError, e.evaluate scope = .error err ↔
      ∃ (before : List Expr) (a : Expr) (after : List Expr), es = before ++ a :: after ∧
        a.evaluate scope = .error err ∧ ∀ b ∈ before, ∃ v : Value, b.evaluate scope = .ok v) ∧
    (∀ vs : List Value, es.map (evaluate scope) = vs.map .ok →
      ∃ v : Value, (vs.find? settles).or vs.getLast? = some v ∧ e.evaluate scope = .ok v) ∧
    ∀ e' : Expr, Chain op es e' → e'.evaluate scope = e.evaluate scope := by
  refine ⟨fun err => ?_, fun vs => chain.exists_evaluate_eq_ok selects,
    fun e' chain' => chain.evaluate_eq chain' selects scope⟩
  rw [← EvalError.of?_eq_some_iff, chain.of?_evaluate, List.findSome?_eq_some_iff]
  simp only [EvalError.of?_eq_some_iff, EvalError.of?_eq_none_iff]

/-- In `a ?? (b ?? c)` and in `(a ?? b) ?? c` the value of `b` is taken, though it counts as false.
With a field of `a` in the place of `c` the chain fails, although `b` comes first. -/
theorem Chain.evaluate_chain_coalesce :
    ((binary .coalesce (name "a") (.group (binary .coalesce (name "b") (name "c")))).evaluate
        (.ofList [("b", .string "")]) = .ok (.string "") ∧
      (binary .coalesce (.group (binary .coalesce (name "a") (name "b"))) (name "c")).evaluate
        (.ofList [("b", .string "")]) = .ok (.string "")) ∧
    (binary .coalesce (name "a")
        (.group (binary .coalesce (name "b") (access .strict (name "a") (name "c"))))).evaluate
      (.ofList [("b", .string "")]) = .error (.nullFieldAccess "c" .undefined) := by
  have right (c : Expr) : Chain .coalesce [name "a", name "b", c]
      (binary .coalesce (name "a") (.group (binary .coalesce (name "b") c))) :=
    .link (.operand _) (.group (.link (.operand _) (.operand _)))
  have left : Chain .coalesce [name "a", name "b", name "c"]
      (binary .coalesce (.group (binary .coalesce (name "a") (name "b"))) (name "c")) :=
    .link (.group (.link (.operand _) (.operand _))) (.operand _)
  obtain ⟨-, values, same⟩ :=
    evaluate_chain (right (name "c")) .coalesce (.ofList [("b", .string "")])
  obtain ⟨v, isFirst, value⟩ := values [.undefined, .string "", .undefined] rfl
  cases isFirst
  refine ⟨⟨value, (same _ left).trans value⟩, ?_⟩
  refine ((evaluate_chain (right (access .strict (name "a") (name "c"))) .coalesce _).1 _).2
    ⟨[name "a", name "b"], _, [], rfl, rfl, ?_⟩
  simp [evaluate]

end Expr

/-! ### Conditions -/

/-- An expression that is put together by `!`, `&&`, `||` and parentheses. What is put together may
be any expressions. -/
inductive Condition
  | atom (e : Expr)
  | not (operand : Condition)
  | and (left right : Condition)
  | or (left right : Condition)
  | group (inner : Condition)

namespace Condition

def expr : Condition → Expr
  | atom e => e
  | not operand => .not operand.expr
  | and left right => .binary .and left.expr right.expr
  | or left right => .binary .or left.expr right.expr
  | group inner => .group inner.expr

def atoms : Condition → List Expr
  | atom e => [e]
  | not operand => operand.atoms
  | and left right | or left right => left.atoms ++ right.atoms
  | group inner => inner.atoms

def negated : Condition → List Condition
  | atom _ => []
  | not operand => operand :: operand.negated
  | and left right | or left right => left.negated ++ right.negated
  | group inner => inner.negated

/-- The condition as a formula of propositional logic, given which of its atoms are true. -/
def Holds (truth : Expr → Prop) : Condition → Prop
  | atom e => truth e
  | not operand => ¬ operand.Holds truth
  | and left right => left.Holds truth ∧ right.Holds truth
  | or left right => left.Holds truth ∨ right.Holds truth
  | group inner => inner.Holds truth

variable {scope : Scope} {c d : Condition} {v : Value}

theorem exists_evaluate_iff_holds
    (values : ∀ a ∈ c.atoms, ∃ v : Value, a.evaluate scope = .ok v) :
    ∃ v : Value, c.expr.evaluate scope = .ok v ∧
      (v.isTruthy = true ↔
        c.Holds fun a => ∃ w : Value, a.evaluate scope = .ok w ∧ w.isTruthy = true) := by
  induction c with
  | atom e =>
      obtain ⟨v, value⟩ := values e (List.mem_singleton_self e)
      refine ⟨v, value, fun truthy => ⟨v, value, truthy⟩, ?_⟩
      rintro ⟨w, same, truthy⟩
      cases value.symm.trans same
      exact truthy
  | not c ih =>
      obtain ⟨u, value, holds⟩ := ih values
      refine ⟨_, Expr.evaluate_not_eq_ok_iff.2 ⟨u, value, rfl⟩, ?_⟩
      rw [Holds, ← holds, Value.isTruthy, Bool.not_eq_true', Bool.not_eq_true]
  | and c d ih ih' =>
      obtain ⟨u, value, holds⟩ := ih fun a found => values a (List.mem_append_left _ found)
      obtain ⟨w, value', holds'⟩ := ih' fun a found => values a (List.mem_append_right _ found)
      refine ⟨_, Expr.evaluate_binary_eq_ok_iff.2 ⟨u, w, value, value', rfl⟩, ?_⟩
      rw [Holds, ← holds, ← holds', Connective.isTruthy_apply_and, Bool.and_eq_true]
  | or c d ih ih' =>
      obtain ⟨u, value, holds⟩ := ih fun a found => values a (List.mem_append_left _ found)
      obtain ⟨w, value', holds'⟩ := ih' fun a found => values a (List.mem_append_right _ found)
      refine ⟨_, Expr.evaluate_binary_eq_ok_iff.2 ⟨u, w, value, value', rfl⟩, ?_⟩
      rw [Holds, ← holds, ← holds', Connective.isTruthy_apply_or, Bool.or_eq_true]
  | group c ih => exact ih values

/-- A negation in the condition comes to the value, a boolean, or an atom does. -/
def Yields (scope : Scope) (c : Condition) (v : Value) : Prop :=
  (∃ d ∈ c.negated, (Expr.not d.expr).evaluate scope = .ok v ∧ ∃ b : Bool, v = .boolean b) ∨
    ∃ a ∈ c.atoms, a.evaluate scope = .ok v

theorem Yields.mono (negations : c.negated ⊆ d.negated) (atoms : c.atoms ⊆ d.atoms)
    (h : c.Yields scope v) : d.Yields scope v := by
  rcases h with ⟨n, found, value⟩ | ⟨a, found, value⟩
  · exact .inl ⟨n, negations found, value⟩
  · exact .inr ⟨a, atoms found, value⟩

/-- Conditions that are joined by a connective which selects one of them yield no more than
before. -/
theorem Yields.of_selects {op : Connective} {settles : Value → Bool} {whole : Condition}
    {u w : Value} (selects : op.SelectsBy settles) (negations : whole.negated = c.negated ++ d.negated)
    (atoms : whole.atoms = c.atoms ++ d.atoms) (left : c.Yields scope u)
    (right : d.Yields scope w) : whole.Yields scope (op.apply u w) := by
  rcases selects.apply_eq_or_eq u w with selected | selected
  · rw [selected]
    exact left.mono (negations ▸ List.subset_append_left ..) (atoms ▸ List.subset_append_left ..)
  · rw [selected]
    exact right.mono (negations ▸ List.subset_append_right ..)
      (atoms ▸ List.subset_append_right ..)

theorem yields_of_evaluate (value : c.expr.evaluate scope = .ok v) : c.Yields scope v := by
  induction c generalizing v with
  | atom e => exact .inr ⟨e, List.mem_singleton_self e, value⟩
  | not c ih =>
      obtain ⟨u, -, same⟩ := Expr.evaluate_not_eq_ok_iff.1 value
      exact .inl ⟨c, List.mem_cons_self .., value, _, same⟩
  | and c d ih ih' =>
      obtain ⟨u, w, left, right, rfl⟩ := Expr.evaluate_binary_eq_ok_iff.1 value
      exact .of_selects .and rfl rfl (ih left) (ih' right)
  | or c d ih ih' =>
      obtain ⟨u, w, left, right, rfl⟩ := Expr.evaluate_binary_eq_ok_iff.1 value
      exact .of_selects .or rfl rfl (ih left) (ih' right)
  | group c ih => exact ih value

/-- Conditions obey propositional logic. If the atoms of a condition have values, then so has the
condition. Its value counts as true if and only if the formula is true that says `not`, `and` and
`or` of the atoms, where an atom is true if its value counts as such. No value is made up: it is the
boolean of a negation, or that of an atom as it stands. -/
theorem evaluate_condition (values : ∀ a ∈ c.atoms, ∃ v : Value, a.evaluate scope = .ok v) :
    ∃ v : Value, c.expr.evaluate scope = .ok v ∧
      (v.isTruthy = true ↔
        c.Holds fun a => ∃ w : Value, a.evaluate scope = .ok w ∧ w.isTruthy = true) ∧
      c.Yields scope v := by
  obtain ⟨v, value, holds⟩ := exists_evaluate_iff_holds values
  exact ⟨v, value, holds, yields_of_evaluate value⟩

/-- In `a || (!b && c)` with a NaN, an empty text and an empty array, the array is what makes the
condition true, and its value. -/
theorem evaluate_condition_array :
    ∃ v : Value,
      (Expr.binary .or (.name "a") (.group (.binary .and (.not (.name "b")) (.name "c")))).evaluate
        (.ofList [("a", .number (.real .nan)), ("b", .string ""), ("c", .array [])]) = .ok v ∧
      v.isTruthy = true ∧ v = .array [] := by
  have values : ∀ a ∈ (or (atom (.name "a"))
      (group (and (not (atom (.name "b"))) (atom (.name "c"))))).atoms, ∃ v : Value,
        a.evaluate (.ofList [("a", .number (.real .nan)), ("b", .string ""), ("c", .array [])]) =
          .ok v := by
    simp [atoms, Expr.evaluate]
  obtain ⟨v, value, holds, -⟩ := evaluate_condition values
  refine ⟨v, value, holds.2 (.inr ⟨?_, ⟨.array [], rfl, rfl⟩⟩), ?_⟩
  · rintro ⟨w, same, truthy⟩
    cases same
    contradiction
  · cases value
    rfl

end Condition

end PredicateLang
