import PredicateLang.Expr.Meaning

/-!
# Where evaluation fails

`Expr.visited` lists the nodes of an expression in the order in which their values are found:
operands before the node they belong to, and left before right. The field of an access is not among
them, since it is not evaluated. No operand is passed over because of what another one comes to:
neither connectives nor lenient accesses cut an evaluation short.

A node is `Blocked` if it is a strict access to a field of what is null or undefined. The first
blocked node ends the evaluation with its error, and nothing else does (`Expr.evaluate_fails_iff`).
-/

namespace PredicateLang

def EvalError.of? : Except EvalError Value → Option EvalError
  | .ok _ => none
  | .error err => some err

theorem EvalError.of?_eq_some_iff {outcome : Except EvalError Value} {err : EvalError} :
    of? outcome = some err ↔ outcome = .error err := by
  cases outcome <;> simp [of?]

theorem EvalError.of?_eq_none_iff {outcome : Except EvalError Value} :
    of? outcome = none ↔ ∃ v : Value, outcome = .ok v := by
  cases outcome <;> simp [of?]

namespace Expr

def operands : Expr → List Expr
  | name _ | literal _ => []
  | not operand => [operand]
  | binary _ left right => [left, right]
  | access _ base _ => [base]
  | group inner => [inner]

/-- The root is visited, and so are the operands of what is visited. -/
inductive Visits (e : Expr) : Expr → Prop
  | root : Visits e e
  | operand {n a : Expr} : Visits e n → a ∈ n.operands → Visits e a

/-- The nodes that are visited, in left-to-right post-order. -/
def visited : Expr → List Expr
  | name s => [name s]
  | literal v => [literal v]
  | not operand => operand.visited ++ [not operand]
  | binary op left right => left.visited ++ right.visited ++ [binary op left right]
  | access kind base field => base.visited ++ [access kind base field]
  | group inner => inner.visited ++ [group inner]

/-- The node is a strict access to a named field of what is null or undefined; the error has that
name and that type. -/
def Blocked (scope : Scope) (node : Expr) (err : EvalError) : Prop :=
  ∃ (base : Expr) (field : String) (v : Value), node = access .strict base (name field) ∧
    base.evaluate scope = .ok v ∧ v.isNullish = true ∧ err = .nullFieldAccess field v.kind

def blame? (scope : Scope) : Expr → Option EvalError
  | access .strict base (name field) =>
      match base.evaluate scope with
      | .ok v => if v.isNullish then some (.nullFieldAccess field v.kind) else none
      | .error _ => none
  | _ => none

variable {scope : Scope} {e a n : Expr} {err : EvalError} {v : Value}

/-! ### What is visited -/

/-- Induction on expressions, through operands only. -/
theorem induction_operands {motive : Expr → Prop}
    (step : ∀ e : Expr, (∀ a ∈ e.operands, motive a) → motive e) (e : Expr) : motive e := by
  induction e with
  | name s | literal v => exact step _ (by simp [operands])
  | not a ih | access kind a field ih _ | group a ih => exact step _ (by simpa [operands] using ih)
  | binary op a b ih ih' => exact step _ (by simpa [operands] using ⟨ih, ih'⟩)

theorem mem_visited : n ∈ e.visited ↔ (∃ a ∈ e.operands, n ∈ a.visited) ∨ n = e := by
  cases e <;> simp [visited, operands, or_assoc]

theorem operand_mem_visited (h : n ∈ e.visited) (operand : a ∈ n.operands) : a ∈ e.visited := by
  induction e using induction_operands with
  | step e ih =>
      refine mem_visited.2 (.inl ?_)
      rcases mem_visited.1 h with ⟨b, below, found⟩ | rfl
      · exact ⟨b, below, ih b below found⟩
      · exact ⟨a, operand, mem_visited.2 (.inr rfl)⟩

theorem Visits.trans (h : e.Visits a) (h' : a.Visits n) : e.Visits n := by
  induction h' with
  | root => exact h
  | operand _ operand ih => exact ih.operand operand

theorem mem_visited_iff : n ∈ e.visited ↔ e.Visits n := by
  constructor
  · intro h
    induction e using induction_operands with
    | step e ih =>
        rcases mem_visited.1 h with ⟨a, below, found⟩ | rfl
        · exact (Visits.root.operand below).trans (ih a below found)
        · exact .root
  · intro h
    induction h with
    | root => exact mem_visited.2 (.inr rfl)
    | operand _ operand ih => exact operand_mem_visited ih operand

/-! ### What goes wrong -/

theorem blame?_eq_some_iff : n.blame? scope = some err ↔ n.Blocked scope err := by
  constructor
  · intro h
    unfold blame? at h
    split at h
    · next base field =>
        split at h
        · next v value =>
            split at h
            · next nullish => exact ⟨base, field, v, rfl, value, nullish, (Option.some.inj h).symm⟩
            · contradiction
        · contradiction
    · contradiction
  · rintro ⟨base, field, v, rfl, value, nullish, rfl⟩
    simp [blame?, value, nullish]

theorem blame?_eq_none_iff : n.blame? scope = none ↔ ∀ err : EvalError, ¬ n.Blocked scope err := by
  simp only [← blame?_eq_some_iff, Option.eq_none_iff_forall_ne_some, ne_eq]

theorem of?_evaluate_access (kind : Access) (base field : Expr) :
    EvalError.of? ((access kind base field).evaluate scope) =
      (EvalError.of? (base.evaluate scope)).or ((access kind base field).blame? scope) := by
  rw [evaluate]
  cases outcome : base.evaluate scope with
  | error err => rfl
  | ok v =>
      cases field with
      | name s =>
          change EvalError.of? (kind.apply v s) = (access kind base (name s)).blame? scope
          cases nullish : v.isNullish <;> cases kind <;>
            simp [Access.apply, blame?, EvalError.of?, outcome, nullish]
      | _ => cases kind <;> rfl

/-- The error of an expression is that of the first visited node that is blocked. -/
theorem findSome?_visited (scope : Scope) (e : Expr) :
    e.visited.findSome? (blame? scope) = EvalError.of? (e.evaluate scope) := by
  induction e with
  | name s | literal v => rfl
  | not a ih =>
      rw [visited, List.findSome?_append, ih, evaluate]
      cases a.evaluate scope <;> rfl
  | binary op a b ih ih' =>
      rw [visited, List.findSome?_append, List.findSome?_append, ih, ih', evaluate]
      cases a.evaluate scope <;> cases b.evaluate scope <;> rfl
  | access kind base field ih _ =>
      rw [visited, List.findSome?_append, ih, of?_evaluate_access, List.findSome?_singleton]
  | group a ih =>
      rw [visited, List.findSome?_append, ih, evaluate]
      cases a.evaluate scope <;> rfl

theorem evaluate_eq_error_iff :
    e.evaluate scope = .error err ↔ e.visited.findSome? (blame? scope) = some err := by
  rw [findSome?_visited, EvalError.of?_eq_some_iff]

theorem exists_evaluate_eq_ok_iff :
    (∃ v : Value, e.evaluate scope = .ok v) ↔
      ∀ (n : Expr) (err : EvalError), e.Visits n → ¬ n.Blocked scope err := by
  rw [← EvalError.of?_eq_none_iff, ← findSome?_visited, List.findSome?_eq_none_iff]
  constructor
  · intro clear n err visits
    exact blame?_eq_none_iff.1 (clear n (mem_visited_iff.2 visits)) err
  · intro clear n found
    exact blame?_eq_none_iff.2 fun err => clear n err (mem_visited_iff.1 found)

/-- An evaluation fails if and only if a node that it visits is blocked, and its error is that of the
first blocked node in left-to-right post-order. -/
theorem evaluate_fails_iff (e : Expr) (scope : Scope) :
    (∀ n : Expr, n ∈ e.visited ↔ e.Visits n) ∧
    ((∃ err : EvalError, e.evaluate scope = .error err) ↔
      ∃ (n : Expr) (err : EvalError), e.Visits n ∧ n.Blocked scope err) ∧
    (∀ err : EvalError, e.evaluate scope = .error err ↔
      ∃ (before : List Expr) (n : Expr) (after : List Expr), e.visited = before ++ n :: after ∧
        n.Blocked scope err ∧ ∀ m ∈ before, ∀ other : EvalError, ¬ m.Blocked scope other) ∧
    ((∃ v : Value, e.evaluate scope = .ok v) ↔
      ∀ (n : Expr) (err : EvalError), e.Visits n → ¬ n.Blocked scope err) := by
  refine ⟨fun n => mem_visited_iff, ?_, fun err => ?_, exists_evaluate_eq_ok_iff⟩
  · have otherwise : (∃ err : EvalError, e.evaluate scope = .error err) ↔
        ¬ ∃ v : Value, e.evaluate scope = .ok v := by
      cases e.evaluate scope <;> simp
    rw [otherwise, exists_evaluate_eq_ok_iff]
    simp only [Classical.not_forall, Classical.not_not, exists_prop]
  · rw [evaluate_eq_error_iff, List.findSome?_eq_some_iff]
    simp only [blame?_eq_some_iff, blame?_eq_none_iff]

/-- In `(a?.b).c && d.e` the access to `c` comes first, and fails: the lenient access below it has
made a `null` of what is undefined. -/
theorem evaluate_fails_iff_left :
    (binary .and (access .strict (group (access .lenient (name "a") (name "b"))) (name "c"))
        (access .strict (name "d") (name "e"))).evaluate .empty =
      .error (.nullFieldAccess "c" .null) := by
  refine ((evaluate_fails_iff _ _).2.2.1 _).2
    ⟨[name "a", access .lenient (name "a") (name "b"),
      group (access .lenient (name "a") (name "b"))], _, _, rfl, ⟨_, _, .null, rfl, rfl, rfl, rfl⟩, ?_⟩
  simp [Blocked]

end Expr

end PredicateLang
