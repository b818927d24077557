import PredicateLang.Proofs.Number.Accuracy

/-!
# Integers and doubles in one comparison

A double equals an integer by its decimal: what has no decimal is too large for 64 bits
(`Double.exists_decimal_of_equalsInt`). So a double equals at most one integer, and is near to it
(`Double.near_of_equalsInt`). Several doubles may equal one integer, though. That is the only way
in which equality of numbers fails to carry on (`Number.differ_iff_parted`), and in which equal
numbers count differently in a condition (`Number.isTruthy_ne_iff`).
-/

namespace PredicateLang

namespace Magnitude

variable {x : Magnitude}

theorem exists_units_of_le_shift (high : 1074 ≤ x.shift) : ∃ n : Nat, x.units = n * oneUnits := by
  refine ⟨x.significand * 2 ^ (x.shift - 1074), ?_⟩
  rw [units_eq, oneUnits_eq, Nat.mul_assoc, ← Nat.pow_add, Nat.sub_add_cancel high]

theorem exists_units_of_toDecimal96?_eq_none {negative : Bool}
    (h : x.toDecimal96? negative = none) :
    ∃ n : Nat, x.units = n * oneUnits ∧ Decimal96.limit ≤ n := by
  rcases Nat.le_total x.shift 1074 with low | high
  · obtain ⟨r, decimal, -⟩ := toDecimal96?_of_shift_le low negative
    rw [h] at decimal
    contradiction
  · obtain ⟨n, units⟩ := exists_units_of_le_shift high
    refine ⟨n, units, Nat.le_of_not_lt fun small => ?_⟩
    rw [toDecimal96?_of_units units small] at h
    contradiction

end Magnitude

namespace Double

variable {x y z : Double} {i j : Int64} {n : Int}

theorem equalsInt_of_some {d : Decimal96} (h : x.toDecimal96? = some d) :
    x.equalsInt n = d.equalsInt n := by
  cases x with
  | nan => contradiction
  | _ => simp only [equalsInt, h]

theorem equalsInt_of_none (h : x.toDecimal96? = none) (number : x ≠ .nan) :
    x.equalsInt n = (ofInt n).same x := by
  cases x with
  | nan => contradiction
  | _ => simp only [equalsInt, h]

theorem same_infinite_of_isFinite (h : x.isFinite = true) (negative : Bool) :
    x.same (.infinite negative) = false := by
  cases x with
  | finite => rfl
  | infinite | nan => contradiction

theorem exists_decimal_of_equalsInt (h : x.equalsInt i.toInt = true) :
    ∃ d : Decimal96, x.toDecimal96? = some d ∧ d.equalsInt i.toInt = true := by
  cases found : x.toDecimal96? with
  | some d => exact ⟨d, rfl, equalsInt_of_some found ▸ h⟩
  | none =>
      exfalso
      cases x with
      | nan => contradiction
      | infinite negative =>
          have lower := i.le_toInt
          have upper := i.toInt_lt
          have finite : (ofInt i.toInt).isFinite = true := isFinite_ofInt (by omega)
          rw [equalsInt_of_none found nofun, same_infinite_of_isFinite finite] at h
          contradiction
      | finite negative m =>
          obtain ⟨k, units, large⟩ := Magnitude.exists_units_of_toDecimal96?_eq_none found
          rw [equalsInt_of_none found nofun, same_ofInt_eq_false units large] at h
          contradiction

/-- A double equals at most one integer. -/
theorem equalsInt_unique (h : x.equalsInt i.toInt = true) (h' : x.equalsInt j.toInt = true) :
    i = j := by
  obtain ⟨d, decimal, first⟩ := exists_decimal_of_equalsInt h
  obtain ⟨d', decimal', second⟩ := exists_decimal_of_equalsInt h'
  obtain rfl := Option.some.inj (decimal.symm.trans decimal')
  have values := (Decimal96.placed_of_equalsInt first).symm.trans
    (Decimal96.placed_of_equalsInt second)
  exact Int64.toInt_inj.1 (by exact_mod_cast values)

/-- The double is the number `n` up to two units of its fifteenth digit and two of the
twenty-eighth decimal place. -/
def Near (x : Double) (n : Int) : Prop :=
  match x with
  | .finite negative m =>
      |(if negative then -m.value else m.value) - n| ≤ |(n : ℚ)| * (2 / 10 ^ 15) + 2 / 10 ^ 28
  | _ => False

/-- The exact value of a double, if it is a number and finite. -/
def value? : Double → Option ℚ
  | .finite negative m => some (if negative then -m.value else m.value)
  | _ => none

theorem value?_eq_some_intCast_iff : x.value? = some (n : ℚ) ↔ x.IsInt n := by
  cases x with
  | infinite | nan => simp [value?, IsInt]
  | finite negative m =>
      have pos : (oneUnits : ℚ) ≠ 0 := by exact_mod_cast Nat.ne_of_gt oneUnits_pos
      have units : (if negative then -m.value else m.value) * oneUnits =
          ((if negative then -(m.units : Int) else m.units : Int) : ℚ) := by
        have whole : m.value * oneUnits = m.units := div_mul_cancel₀ _ pos
        cases negative <;> simp [whole]
      rw [value?, Option.some_inj, ← mul_left_inj' pos, units, IsInt]
      exact_mod_cast Iff.rfl

theorem IsInt.near (h : x.IsInt n) : x.Near n := by
  have value := value?_eq_some_intCast_iff.2 h
  cases x with
  | infinite | nan => exact absurd h id
  | finite negative m =>
      rw [Near, Option.some_inj.1 value, sub_self, abs_zero]
      positivity

theorem isInt_of_units {m : Magnitude} {k : Nat} (h : m.units = k * oneUnits) (negative : Bool) :
    (finite negative m).IsInt (if negative then -(k : Int) else k) := by
  have units : (m.units : Int) = k * oneUnits := by exact_mod_cast h
  cases negative
  · exact units
  · exact (congrArg Neg.neg units).trans (Int.neg_mul _ _).symm

theorem abs_signed_sub (negative : Bool) (p q : ℚ) :
    |(if negative then -p else p) - (if negative then -q else q)| = |p - q| := by
  cases negative
  · rfl
  · rw [if_pos rfl, if_pos rfl, ← abs_neg]
    congr 1
    ring

/-- A double equals no integer that it is far from. -/
theorem near_of_equalsInt (h : x.equalsInt i.toInt = true) : x.Near i.toInt := by
  cases x with
  | nan => contradiction
  | infinite negative =>
      obtain ⟨d, ⟨⟩, -⟩ := exists_decimal_of_equalsInt h
  | finite negative m =>
      rcases Nat.le_total m.shift 1074 with low | high
      · obtain ⟨d, found, equal⟩ := exists_decimal_of_equalsInt h
        obtain ⟨r, decimal, error⟩ := Magnitude.toDecimal96?_of_shift_le low negative
        obtain rfl := Option.some.inj (found.symm.trans decimal)
        have value := Decimal96.placed_of_equalsInt equal
        have size : |(i.toInt : ℚ)| = Decimal96.placed r := by
          have nonneg : 0 ≤ Decimal96.placed r := by
            unfold Decimal96.placed
            positivity
          rw [← value]
          cases negative
          · exact abs_of_nonneg nonneg
          · exact (abs_neg _).trans (abs_of_nonneg nonneg)
        rw [Near, size, ← value]
        exact (abs_signed_sub negative m.value (Decimal96.placed r)).trans_le error
      · obtain ⟨k, units⟩ := Magnitude.exists_units_of_le_shift high
        have whole := isInt_of_units units negative
        rw [whole.equalsInt_eq, beq_iff_eq] at h
        exact (h ▸ whole).near

theorem same_trans (h : x.same y = true) (h' : y.same z = true) : x.same z = true := by
  cases x with
  | nan => contradiction
  | infinite s =>
      cases y with
      | finite | nan => contradiction
      | infinite t =>
          obtain rfl : s = t := beq_iff_eq.1 h
          exact h'
  | finite s x =>
      cases y with
      | infinite | nan => contradiction
      | finite t y =>
          cases z with
          | infinite | nan => contradiction
          | finite u z =>
              rw [same_finite_iff] at h h' ⊢
              exact h.trans h'

theorem isInt_zero (negative : Bool) : (finite negative .zero).IsInt 0 := by
  have none : Magnitude.units .zero = 0 * oneUnits := (Nat.zero_mul _).symm
  have whole := isInt_of_units none negative
  cases negative <;> exact whole

theorem eq_of_same (h : x.same y = true) (nonzero : ¬ x.IsInt 0) : x = y := by
  cases x with
  | nan => contradiction
  | infinite s =>
      cases y with
      | infinite t => exact congrArg _ (beq_iff_eq.1 h)
      | finite | nan => contradiction
  | finite s x =>
      cases y with
      | infinite | nan => contradiction
      | finite t y =>
          simp only [same, Bool.and_eq_true, Bool.or_eq_true, beq_iff_eq] at h
          obtain ⟨rfl, rfl | rfl⟩ := h
          · rfl
          · exact absurd (isInt_zero s) nonzero

theorem equalsInt_eq_of_same (h : x.same y = true) (i : Int64) :
    x.equalsInt i.toInt = y.equalsInt i.toInt := by
  by_cases zero : x.IsInt 0
  · rw [zero.equalsInt_eq, ((same_iff_isInt zero).1 h).equalsInt_eq]
  · rw [eq_of_same h zero]

theorem isTruthy_eq_of_same (h : x.same y = true) : x.isTruthy = y.isTruthy := by
  by_cases zero : x.IsInt 0
  · rw [zero.isTruthy_eq, ((same_iff_isInt zero).1 h).isTruthy_eq]
  · rw [eq_of_same h zero]

theorem isTruthy_of_equalsInt (h : x.equalsInt i.toInt = true) (nonzero : i ≠ 0) :
    x.isTruthy = true := by
  cases x with
  | nan => contradiction
  | infinite => rfl
  | finite negative m =>
      refine bne_iff_ne.2 ?_
      rintro rfl
      rw [(isInt_zero negative).equalsInt_eq, beq_iff_eq] at h
      exact nonzero (Int64.toInt_inj.1 h.symm)

end Double

namespace Number

variable {l m n : Number}

/-- An integer with a different double on either side, both of them near to it. -/
def Parted (l m n : Number) : Prop :=
  ∃ (x : Double) (i : Int64) (y : Double), l = .real x ∧ m = .integer i ∧ n = .real y ∧
    x.same y = false ∧ x.Near i.toInt ∧ y.Near i.toInt

/-- Equality of numbers carries on, except from one double to another over an integer. -/
theorem differ_iff_parted (h : l.equals m = true) (h' : m.equals n = true) :
    l.equals n = false ↔ l.Parted m n := by
  constructor
  · intro differ
    cases m with
    | integer j =>
        cases l with
        | integer i =>
            obtain rfl := beq_iff_eq.1 h
            rw [h'] at differ
            contradiction
        | real x =>
            cases n with
            | integer k =>
                obtain rfl := beq_iff_eq.1 h'
                rw [h] at differ
                contradiction
            | real y =>
                exact ⟨x, j, y, rfl, rfl, rfl, differ, Double.near_of_equalsInt h,
                  Double.near_of_equalsInt h'⟩
    | real y =>
        -- A double passes on what equals it, so nothing can differ.
        refine absurd differ (Bool.not_eq_false _ ▸ ?_)
        cases l with
        | integer i =>
            cases n with
            | integer k => exact beq_iff_eq.2 (Double.equalsInt_unique h h')
            | real z => exact (Double.equalsInt_eq_of_same h' i).symm.trans h
        | real x =>
            cases n with
            | integer k => exact (Double.equalsInt_eq_of_same h k).trans h'
            | real z => exact Double.same_trans h h'
  · rintro ⟨x, i, y, rfl, rfl, rfl, differ, -, -⟩
    exact differ

/-- One number is the integer zero, the other a double that is near to zero without being one. -/
def FalseZero (m n : Number) : Prop :=
  ∃ x : Double, (m = .integer 0 ∧ n = .real x ∨ m = .real x ∧ n = .integer 0) ∧
    x.isTruthy = true ∧ x.Near 0

theorem isTruthy_integer_ne_iff {i : Int64} {x : Double}
    (h : (integer i).equals (real x) = true) :
    (integer i).isTruthy ≠ (real x).isTruthy ↔ i = 0 ∧ x.isTruthy = true ∧ x.Near 0 := by
  have near : x.Near i.toInt := Double.near_of_equalsInt h
  by_cases zero : i = 0
  · subst zero
    rw [Int64.toInt_zero] at near
    simp [isTruthy, near]
  · simp [isTruthy, zero, Double.isTruthy_of_equalsInt h zero]

/-- Equal numbers count alike in a condition, except for an integer zero and a double. -/
theorem isTruthy_ne_iff (h : m.equals n = true) :
    m.isTruthy ≠ n.isTruthy ↔ m.FalseZero n := by
  constructor
  · intro differ
    cases m with
    | integer i =>
        cases n with
        | integer j =>
            obtain rfl := beq_iff_eq.1 h
            exact absurd rfl differ
        | real x =>
            obtain ⟨rfl, passes⟩ := (isTruthy_integer_ne_iff h).1 differ
            exact ⟨x, .inl ⟨rfl, rfl⟩, passes⟩
    | real x =>
        cases n with
        | integer j =>
            obtain ⟨rfl, passes⟩ := (isTruthy_integer_ne_iff h).1 differ.symm
            exact ⟨x, .inr ⟨rfl, rfl⟩, passes⟩
        | real y => exact absurd (Double.isTruthy_eq_of_same h) differ
  · rintro ⟨x, ⟨rfl, rfl⟩ | ⟨rfl, rfl⟩, passes⟩
    · exact (isTruthy_integer_ne_iff h).2 ⟨rfl, passes⟩
    · exact ((isTruthy_integer_ne_iff h).2 ⟨rfl, passes⟩).symm

end Number

end PredicateLang
