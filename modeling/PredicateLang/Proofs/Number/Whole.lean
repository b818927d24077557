import PredicateLang.Proofs.Number.Comparison

/-!
# Whole numbers

`Number.IsInt` says that a number is a whole number, whether it is held as an integer or as a
double. Whole numbers compare as what they are and not as they are held
(`Number.IsInt.equals_eq`). The decimal of a whole double is exact, and a double that is too large
for a decimal is also too large to be the nearest to an integer of 64 bits.
-/

namespace PredicateLang

/-- Where there is no room, taking factors of five out fails: all of the powers of ten are left. -/
theorem Decimal96.multiplyFives_eq_none {fives m : Nat} {e : Int} (small : m < limit)
    (large : limit ≤ m * 2 ^ fives) (tens : fives ≤ e) : multiplyFives fives m e = none := by
  induction fives generalizing m e with
  | zero =>
      rw [Nat.pow_zero, Nat.mul_one] at large
      exact absurd small (Nat.not_lt.2 large)
  | succ fives ih =>
      rw [multiplyFives]
      split
      · next room =>
          have double : m * 2 ^ (fives + 1) = 2 * m * 2 ^ fives := by
            rw [Nat.pow_succ', ← Nat.mul_assoc, Nat.mul_comm m]
          refine ih ?_ (double ▸ large) (by omega)
          rw [limit_eq] at room ⊢
          omega
      · exact if_pos (by omega)

namespace Magnitude

variable {x : Magnitude} {n : Nat}

theorem lt_shift_of_units (h : x.units = n * oneUnits) (large : 2 ^ 53 ≤ n) : 1074 < x.shift := by
  refine Nat.lt_of_not_le fun low => Nat.lt_irrefl (n * oneUnits) ?_
  have scale : 2 ^ x.shift ∣ oneUnits := oneUnits_eq_mul low ▸ Nat.dvd_mul_left _ _
  calc n * oneUnits = x.significand * 2 ^ x.shift := by rw [← h, units_eq]
    _ ≤ x.significand * oneUnits := Nat.mul_le_mul_left _ (Nat.le_of_dvd oneUnits_pos scale)
    _ < n * oneUnits :=
        Nat.mul_lt_mul_of_pos_right (Nat.lt_of_lt_of_le x.significand_lt large) oneUnits_pos

theorem toDecimal96?_eq_none (h : x.units = n * oneUnits) (large : Decimal96.limit ≤ n)
    (negative : Bool) : x.toDecimal96? negative = none := by
  have above := lt_shift_of_units h (Nat.le_trans (by decide) large)
  have digits := significand_mul_of_units h (Nat.le_of_lt above)
  have short : x.significand < Decimal96.limit :=
    Nat.lt_of_lt_of_le x.significand_lt (by decide)
  have fives : ((x.shift : Int) - 1074).natAbs = x.shift - 1074 := by omega
  have room := Decimal96.multiplyFives_eq_none (e := (x.shift : Int) - 1074) short
    (digits ▸ large) (by omega)
  unfold toDecimal96?
  dsimp only
  rw [if_neg (by omega), fives, room]
  rfl

end Magnitude

namespace Double

variable {x : Double} {a b : Int}

theorem IsInt.unique (h : x.IsInt a) (h' : x.IsInt b) : a = b := by
  cases x with
  | infinite | nan => exact absurd h id
  | finite negative m =>
      have pos : (oneUnits : Int) ≠ 0 := Int.natCast_ne_zero.2 (Nat.ne_of_gt oneUnits_pos)
      exact Int.eq_of_mul_eq_mul_right pos (h.symm.trans h')

theorem exists_nat_of_units {units : Nat} (h : (units : Int) = a * oneUnits) :
    ∃ n : Nat, a = n ∧ units = n * oneUnits := by
  have pos : (0 : Int) < oneUnits := Int.natCast_pos.2 oneUnits_pos
  have natural : 0 ≤ a := Int.nonneg_of_mul_nonneg_left (h ▸ Int.natCast_nonneg _) pos
  obtain ⟨n, rfl⟩ := Int.eq_ofNat_of_zero_le natural
  exact ⟨n, rfl, Int.ofNat_inj.1 h⟩

theorem IsInt.exists_units {negative : Bool} {m : Magnitude} (h : (finite negative m).IsInt a) :
    ∃ n : Nat, m.units = n * oneUnits ∧ (if negative then -(n : Int) else n) = a := by
  cases negative with
  | false =>
      obtain ⟨n, rfl, units⟩ := exists_nat_of_units h
      exact ⟨n, units, rfl⟩
  | true =>
      have value : -(m.units : Int) = a * oneUnits := h
      have opposed : (m.units : Int) = -a * oneUnits := by rw [Int.neg_mul, ← value, Int.neg_neg]
      obtain ⟨n, opposite, units⟩ := exists_nat_of_units opposed
      exact ⟨n, units, by rw [if_pos rfl, ← opposite, Int.neg_neg]⟩

/-- The double nearest to an integer of 64 bits is not beyond the limit of decimals. -/
theorem same_ofInt_eq_false {m : Magnitude} {n : Nat} (h : m.units = n * oneUnits)
    (large : Decimal96.limit ≤ n) (negative : Bool) (i : Int64) :
    (ofInt i.toInt).same (finite negative m) = false := by
  have lower := i.le_toInt
  have upper := i.toInt_lt
  unfold ofInt nearest ofRank
  split
  · next finite =>
      have near := units_le_of_lt (x := ⟨_, finite⟩) (show i.toInt.natAbs < 2 ^ 64 by omega) rfl
      have far : 2 ^ 64 * oneUnits < m.units := by
        rw [h]
        exact Nat.mul_lt_mul_of_pos_right (Nat.lt_of_lt_of_le (by decide) large) oneUnits_pos
      have other : (⟨_, finite⟩ : Magnitude) ≠ m := by
        rintro rfl
        omega
      rw [same, beq_false_of_ne other, Bool.false_and]
  · rfl

theorem IsInt.equalsInt_eq (h : x.IsInt a) (i : Int64) : x.equalsInt i.toInt = (a == i.toInt) := by
  cases x with
  | infinite | nan => exact absurd h id
  | finite negative m =>
      obtain ⟨n, units, rfl⟩ := h.exists_units
      by_cases small : n < Decimal96.limit
      · exact equalsInt_of_units units small negative _
      · have large := Nat.le_of_not_lt small
        have lower := i.le_toInt
        have upper := i.toInt_lt
        have other : (if negative then -(n : Int) else n) ≠ i.toInt := by
          rw [Decimal96.limit_eq] at large
          split <;> omega
        rw [beq_false_of_ne other, ← same_ofInt_eq_false units large negative i]
        simp only [Double.equalsInt, toDecimal96?, Magnitude.toDecimal96?_eq_none units large]

theorem IsInt.isTruthy_eq (h : x.IsInt a) : x.isTruthy = (a != 0) := by
  cases x with
  | infinite | nan => exact absurd h id
  | finite negative m =>
      obtain ⟨n, units, rfl⟩ := h.exists_units
      have zero : m = .zero ↔ (if negative then -(n : Int) else n) = 0 := by
        rw [← Magnitude.units_eq_zero_iff, units, mul_oneUnits_eq_zero_iff]
        split <;> omega
      rw [isTruthy, bne, bne, Bool.not_inj_iff, Bool.eq_iff_iff, beq_iff_eq, beq_iff_eq, zero]

end Double

namespace Number

variable {m n : Number} {a b : Int}

def IsInt (m : Number) (a : Int) : Prop :=
  match m with
  | .integer i => i.toInt = a
  | .real x => x.IsInt a

theorem IsInt.equals_eq (h : m.IsInt a) (h' : n.IsInt b) : m.equals n = (a == b) := by
  cases m with
  | integer i =>
      obtain rfl := h
      cases n with
      | integer j =>
          obtain rfl := h'
          rw [equals, Bool.eq_iff_iff, beq_iff_eq, beq_iff_eq, Int64.toInt_inj]
      | real y => rw [equals, Double.IsInt.equalsInt_eq h', BEq.comm]
  | real x =>
      cases n with
      | integer j =>
          obtain rfl := h'
          rw [equals, Double.IsInt.equalsInt_eq h]
      | real y =>
          rw [equals, Bool.eq_iff_iff, Double.same_iff_isInt h, beq_iff_eq]
          exact ⟨fun value => value.unique h' |>.symm ▸ rfl, fun eq => eq ▸ h'⟩

theorem IsInt.isTruthy_eq (h : m.IsInt a) : m.isTruthy = (a != 0) := by
  cases m with
  | integer i =>
      obtain rfl := h
      rw [isTruthy, bne, bne, Bool.not_inj_iff, Bool.eq_iff_iff, beq_iff_eq, beq_iff_eq,
        ← Int64.toInt_inj]
      rfl
  | real x => exact Double.IsInt.isTruthy_eq h

end Number

end PredicateLang
