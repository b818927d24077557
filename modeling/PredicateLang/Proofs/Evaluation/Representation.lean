import PredicateLang.Expr.Meaning
import PredicateLang.Proofs.Number.Whole
import PredicateLang.Proofs.Value.Shape

/-!
# Whole numbers held in two ways

An expression cannot tell whether a whole number is held as an integer or as a double. A relation
between numbers that comparisons and conditions do not notice is kept by evaluation
(`Expr.liftRel_evaluate`). To be the same whole number is such a relation, so in scopes that hold
the same whole numbers an expression has the same value (`Expr.evaluate_sameValue`).
-/

namespace PredicateLang

/-- The relation goes unnoticed: whatever is done with numbers gives the same on both sides. -/
structure Number.Unnoticed (R : Number → Number → Prop) : Prop where
  equals : ∀ m m' n n' : Number, R m m' → R n n' → m.equals n = m'.equals n'
  isTruthy : ∀ m m' : Number, R m m' → m.isTruthy = m'.isTruthy
  /-- What is computed is an integer on both sides. -/
  integer : ∀ i : Int64, R (.integer i) (.integer i)

/-- The outcomes are the same error, or related values. -/
inductive EvalError.LiftRel (S : Value → Value → Prop) :
    Except EvalError Value → Except EvalError Value → Prop
  | ok {v w : Value} : S v w → LiftRel S (.ok v) (.ok w)
  | error (e : EvalError) : LiftRel S (.error e) (.error e)

theorem EvalError.LiftRel.mono {S T : Value → Value → Prop} {r r' : Except EvalError Value}
    (weaker : ∀ v w : Value, S v w → T v w) (h : LiftRel S r r') : LiftRel T r r' := by
  cases h with
  | ok related => exact .ok (weaker _ _ related)
  | error e => exact .error e

theorem EvalError.LiftRel.bind {S T : Value → Value → Prop} {r r' : Except EvalError Value}
    {next next' : Value → Except EvalError Value} (h : LiftRel S r r')
    (onward : ∀ v w : Value, S v w → LiftRel T (next v) (next' w)) :
    LiftRel T (r >>= next) (r' >>= next') := by
  cases h with
  | ok related => exact onward _ _ related
  | error e => exact .error e

def Expr.literals : Expr → List Value
  | name _ => []
  | literal v => [v]
  | not operand => operand.literals
  | binary _ left right => left.literals ++ right.literals
  | access _ base field => base.literals ++ field.literals
  | group inner => inner.literals

section

variable {R : Number → Number → Prop} {v v' w w' : Value}

theorem Connective.liftRel_apply (unnoticed : Number.Unnoticed R) (op : Connective)
    (h : v.LiftRel R v') (h' : w.LiftRel R w') :
    (op.apply v w).LiftRel R (op.apply v' w') := by
  cases op with
  | equals =>
      rw [apply, apply, h.equals_eq unnoticed.equals h']
      exact .boolean _
  | and =>
      rw [apply, apply, h.isTruthy_eq unnoticed.isTruthy]
      split <;> assumption
  | or =>
      rw [apply, apply, h.isTruthy_eq unnoticed.isTruthy]
      split <;> assumption
  | coalesce =>
      rw [apply, apply, h.isNullish_eq]
      split <;> assumption

theorem Access.liftRel_apply (unnoticed : Number.Unnoticed R) (kind : Access) (name : String)
    (h : v.LiftRel R v') :
    EvalError.LiftRel (Value.LiftRel R) (kind.apply v name) (kind.apply v' name) := by
  unfold apply
  rw [h.isNullish_eq, h.kind_eq]
  split
  · cases kind with
    | strict => exact .error _
    | lenient => exact .ok .null
  · exact .ok (h.field unnoticed.integer name)

/-- An expression has related values in related scopes. -/
theorem Expr.liftRel_evaluate (unnoticed : Number.Unnoticed R) {e : Expr} {a b : Scope}
    (literals : ∀ v ∈ e.literals, v.LiftRel R v)
    (scopes : a.bindings.Related (Value.LiftRel R) b.bindings) :
    EvalError.LiftRel (Value.LiftRel R) (e.evaluate a) (e.evaluate b) := by
  induction e with
  | name s => exact .ok (.getD scopes s)
  | literal v => exact .ok (literals v (List.mem_singleton_self v))
  | not e ih =>
      refine (ih literals).bind fun v v' related => ?_
      rw [related.isTruthy_eq unnoticed.isTruthy]
      exact .ok (.boolean _)
  | binary op left right ihLeft ihRight =>
      refine (ihLeft fun v found => literals v (List.mem_append_left _ found)).bind
        fun v v' related => ?_
      refine (ihRight fun v found => literals v (List.mem_append_right _ found)).bind
        fun w w' related' => ?_
      exact .ok (op.liftRel_apply unnoticed related related')
  | access kind base field ih _ =>
      refine (ih fun v found => literals v (List.mem_append_left _ found)).bind
        fun v v' related => ?_
      cases field with
      | name s => exact kind.liftRel_apply unnoticed s related
      | _ => exact .ok .undefined
  | group e ih => exact ih literals

end

/-- The numbers are the same, or the same whole number held in two ways. -/
def Number.SameValue (m n : Number) : Prop :=
  m = n ∨ ∃ a : Int, m.IsInt a ∧ n.IsInt a

/-- Every double in the value, at any depth, is a whole number. -/
def Value.Whole (v : Value) : Prop :=
  ∀ x : Double, Value.PartOf (.number (.real x)) v → ∃ a : Int, x.IsInt a

/-- That numbers are the same whole number goes unnoticed. -/
theorem Number.unnoticed_isInt :
    Number.Unnoticed fun m n => ∃ a : Int, m.IsInt a ∧ n.IsInt a where
  equals := by
    rintro m m' n n' ⟨a, left, left'⟩ ⟨b, right, right'⟩
    rw [left.equals_eq right, left'.equals_eq right']
  isTruthy := by
    rintro m m' ⟨a, left, left'⟩
    rw [left.isTruthy_eq, left'.isTruthy_eq]
  integer i := ⟨i.toInt, rfl, rfl⟩

theorem Value.Whole.exists_isInt {v : Value} (h : v.Whole) {n : Number}
    (part : PartOf (.number n) v) : ∃ a : Int, n.IsInt a := by
  cases n with
  | integer i => exact ⟨i.toInt, rfl⟩
  | real x => exact h x part

theorem Value.LiftRel.isInt {v w : Value} (h : v.LiftRel Number.SameValue w) (whole : v.Whole) :
    v.LiftRel (fun m n => ∃ a : Int, m.IsInt a ∧ n.IsInt a) w := by
  refine h.imp fun m n part _ same => ?_
  rcases same with rfl | same
  · obtain ⟨a, isInt⟩ := whole.exists_isInt part
    exact ⟨a, isInt, isInt⟩
  · exact same

/-- Integers and doubles are two ways to hold whole numbers. Let two scopes bind the same names to
values of the same shape with the same numbers. If the doubles of one scope are whole, and so those
of the other, and the doubles of an expression are, then the expression has the same error in both
scopes, or values of the same shape with the same numbers. -/
theorem Expr.evaluate_sameValue {e : Expr} {a b : Scope} (literals : ∀ v ∈ e.literals, v.Whole)
    (same : a.bindings.Related (Value.LiftRel Number.SameValue) b.bindings)
    (whole : ∀ (name : String) (v : Value), a.find? name = some v → v.Whole) :
    EvalError.LiftRel (Value.LiftRel Number.SameValue) (e.evaluate a) (e.evaluate b) := by
  have scopes : a.bindings.Related
      (Value.LiftRel fun m n => ∃ a : Int, m.IsInt a ∧ n.IsInt a) b.bindings := by
    refine ⟨same.keys, fun name v w found found' => ?_⟩
    exact (same.values name v w found found').isInt (whole name v found)
  refine (liftRel_evaluate Number.unnoticed_isInt (fun v found => ?_) scopes).mono
    fun v w related => related.mono fun m n isInt => .inr isInt
  exact (Value.LiftRel.refl (fun n => .inl rfl) v).isInt (literals v found)

/-- An array with the integer 0 and an array with a negative zero compare alike to an array with a
positive zero. -/
theorem Expr.evaluate_sameValue_zeros :
    EvalError.LiftRel (Value.LiftRel Number.SameValue)
      ((binary .equals (name "x") (literal (.array [.number (.real .zero)]))).evaluate
        (.ofList [("x", .array [.number (.integer 0)])]))
      ((binary .equals (name "x") (literal (.array [.number (.real .zero)]))).evaluate
        (.ofList [("x", .array [.number (.real (.finite true .zero))])])) := by
  have whole (n : Number) (isInt : n.IsInt 0) : (Value.array [.number n]).Whole := by
    intro x part
    rcases part with _ | ⟨found, part⟩
    obtain rfl := List.mem_singleton.1 found
    cases part
    exact ⟨0, isInt⟩
  have positive : (Number.real .zero).IsInt 0 := Double.isInt_positive_iff.2 (Nat.zero_mul _).symm
  have negative : (Number.real (.finite true .zero)).IsInt 0 :=
    Double.isInt_negative_iff.2 ⟨rfl, rfl⟩
  refine evaluate_sameValue ?_ ?_ ?_
  · intro v found
    obtain rfl := List.mem_singleton.1 found
    exact whole _ positive
  · refine Entries.related_cons_iff.2 ⟨rfl, .array rfl fun i inside _ => ?_, .nil⟩
    obtain rfl : i = 0 := Nat.lt_one_iff.1 inside
    exact .number (.inr ⟨0, rfl, negative⟩)
  · intro name v found
    change (if name = "x" then some _ else none) = some v at found
    split at found
    · cases found
      exact whole _ rfl
    · cases found

end PredicateLang
