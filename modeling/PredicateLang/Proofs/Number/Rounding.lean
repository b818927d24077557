import Mathlib.Algebra.Group.Nat.Defs
import PredicateLang.Double.Shortest

/-!
# Rounding to a double

A quotient that is the exact value of a double is rounded to that double
(`nearestRank_of_exact`), so a double is determined by its units and the shortest decimal of a
double reads back as that double (`Magnitude.readsBack_shortest`).

The double nearest to a natural number is a whole number again, and lies between the powers of
two around the number. Below `2 ^ 53` nothing is rounded.
-/

namespace PredicateLang

theorem roundHalfEven_mul {den : Nat} (pos : 0 < den) (n : Nat) :
    roundHalfEven (n * den) den = n := by
  simp [roundHalfEven, Nat.mul_div_cancel n pos, pos]

theorem le_roundHalfEven (num den : Nat) : num / den ≤ roundHalfEven num den := by
  simp only [roundHalfEven]
  split
  · exact Nat.le_refl _
  · split <;> omega

theorem roundHalfEven_le (num den : Nat) : roundHalfEven num den ≤ num / den + 1 := by
  simp only [roundHalfEven]
  split
  · omega
  · split <;> omega

theorem log2_mul_two_pow {n : Nat} (pos : n ≠ 0) (k : Nat) :
    (n * 2 ^ k).log2 = n.log2 + k := by
  have nonzero : n * 2 ^ k ≠ 0 := Nat.mul_ne_zero pos (Nat.ne_of_gt (Nat.two_pow_pos _))
  rw [Nat.log2_eq_iff nonzero, Nat.pow_add, Nat.add_right_comm, Nat.pow_add]
  exact ⟨Nat.mul_le_mul_right _ (Nat.log2_self_le pos),
    Nat.mul_lt_mul_of_pos_right Nat.lt_log2_self (Nat.two_pow_pos _)⟩

namespace Magnitude

variable {x y : Magnitude}

theorem significand_eq (x : Magnitude) :
    x.significand = if x.val < 2 ^ 52 then x.val else 2 ^ 52 + x.val % 2 ^ 52 := rfl

theorem shift_eq (x : Magnitude) : x.shift = x.val / 2 ^ 52 - 1 := rfl

theorem units_eq (x : Magnitude) : x.units = x.significand * 2 ^ x.shift := rfl

theorem val_eq (x : Magnitude) : x.val = x.shift * 2 ^ 52 + x.significand := by
  rw [shift_eq, significand_eq]
  split <;> omega

theorem significand_lt (x : Magnitude) : x.significand < 2 ^ 53 := by
  rw [significand_eq]
  split <;> omega

theorem shift_eq_zero_or (x : Magnitude) : x.shift = 0 ∨ 2 ^ 52 ≤ x.significand := by
  rw [shift_eq, significand_eq]
  split <;> omega

/-- The value of a magnitude from its place among all of them. A carry into a new digit is the
first place of the next block. -/
theorem units_of_val {dropped r : Nat} (h : x.val = dropped * 2 ^ 52 + r)
    (normal : dropped = 0 ∨ 2 ^ 52 ≤ r) (le : r ≤ 2 ^ 53) : x.units = r * 2 ^ dropped := by
  rcases Nat.lt_or_eq_of_le le with lt | rfl
  · have shifted : x.shift = dropped := by
      rw [shift_eq]
      omega
    have digits : x.significand = r := by
      have := x.val_eq
      rw [h, shifted] at this
      omega
    rw [units_eq, shifted, digits]
  · have shifted : x.shift = dropped + 1 := by
      rw [shift_eq]
      omega
    have digits : x.significand = 2 ^ 52 := by
      have := x.val_eq
      rw [h, shifted] at this
      omega
    rw [units_eq, shifted, digits, Nat.pow_succ' (n := dropped), ← Nat.mul_assoc,
      ← Nat.pow_succ]

theorem excessDigits_units (x : Magnitude) : excessDigits x.units = x.shift := by
  rw [excessDigits, units_eq]
  by_cases zero : x.significand = 0
  · have := x.shift_eq_zero_or
    rw [zero, Nat.zero_mul, Nat.log2_zero]
    omega
  · rw [log2_mul_two_pow zero]
    have upper : x.significand.log2 < 53 := (Nat.log2_lt zero).2 x.significand_lt
    rcases x.shift_eq_zero_or with unscaled | leading
    · omega
    · have lower : 52 ≤ x.significand.log2 := (Nat.le_log2 zero).2 leading
      omega

end Magnitude

def oneUnits : Nat := 2 ^ 1074

theorem oneUnits_eq : oneUnits = 2 ^ 1074 := rfl

theorem nearestRank_eq (num den : Nat) :
    nearestRank num den = excessDigits (num * oneUnits / den) * 2 ^ 52 +
      roundHalfEven (num * oneUnits) (den * 2 ^ excessDigits (num * oneUnits / den)) := rfl

-- The number is too long to be computed with.
attribute [irreducible] oneUnits

theorem oneUnits_pos : 0 < oneUnits := by
  rw [oneUnits_eq]
  exact Nat.two_pow_pos 1074

theorem two_pow_mul_oneUnits (k : Nat) : 2 ^ k * oneUnits = 2 ^ 52 * 2 ^ (k + 1022) := by
  rw [oneUnits_eq, ← Nat.pow_add, ← Nat.pow_add, Nat.add_left_comm]

theorem nearestRank_of_exact {x : Magnitude} {num den : Nat} (pos : 0 < den)
    (exact : num * oneUnits = x.units * den) : nearestRank num den = x.val := by
  have digits : roundHalfEven (x.units * den) (den * 2 ^ x.shift) = x.significand := by
    have split : x.units * den = x.significand * (den * 2 ^ x.shift) := by
      rw [Magnitude.units_eq, Nat.mul_assoc, Nat.mul_comm (2 ^ x.shift)]
    rw [split, roundHalfEven_mul (Nat.mul_pos pos (Nat.two_pow_pos _))]
  rw [nearestRank_eq, exact, Nat.mul_div_cancel _ pos, x.excessDigits_units, digits]
  exact x.val_eq.symm

theorem Magnitude.units_injective : Function.Injective Magnitude.units := by
  intro x y same
  have ofUnits (z : Magnitude) : nearestRank z.units oneUnits = z.val :=
    nearestRank_of_exact oneUnits_pos rfl
  exact Fin.ext (by rw [← ofUnits x, same, ofUnits y])

section

variable {n : Nat} {x : Magnitude}

theorem scaled_div_bounds (pos : n ≠ 0) :
    2 ^ 52 ≤ n * oneUnits / 2 ^ (n.log2 + 1022) ∧
      n * oneUnits / 2 ^ (n.log2 + 1022) < 2 ^ 53 := by
  constructor
  · rw [Nat.le_div_iff_mul_le (Nat.two_pow_pos _), ← two_pow_mul_oneUnits]
    exact Nat.mul_le_mul_right _ (Nat.log2_self_le pos)
  · rw [Nat.div_lt_iff_lt_mul (Nat.two_pow_pos _), Nat.pow_succ', Nat.mul_assoc,
      ← two_pow_mul_oneUnits, ← Nat.mul_assoc, ← Nat.pow_succ']
    exact Nat.mul_lt_mul_of_pos_right Nat.lt_log2_self oneUnits_pos

theorem nearestRank_of_pos (pos : n ≠ 0) :
    ∃ r : Nat, r = roundHalfEven (n * oneUnits) (2 ^ (n.log2 + 1022)) ∧ 2 ^ 52 ≤ r ∧
      r ≤ 2 ^ 53 ∧ nearestRank n 1 = (n.log2 + 1022) * 2 ^ 52 + r := by
  have dropped : excessDigits (n * oneUnits) = n.log2 + 1022 := by
    rw [excessDigits, oneUnits_eq, log2_mul_two_pow pos]
    omega
  obtain ⟨lower, upper⟩ := scaled_div_bounds pos
  have above := Nat.le_trans lower (le_roundHalfEven _ _)
  have below := Nat.le_trans (roundHalfEven_le _ _) upper
  refine ⟨_, rfl, above, below, ?_⟩
  rw [nearestRank_eq, Nat.div_one, dropped, Nat.one_mul]

theorem exists_units_of_nearestRank (pos : n ≠ 0) (h : x.val = nearestRank n 1) :
    ∃ r : Nat, r = roundHalfEven (n * oneUnits) (2 ^ (n.log2 + 1022)) ∧ 2 ^ 52 ≤ r ∧
      r ≤ 2 ^ 53 ∧ x.units = r * 2 ^ (n.log2 + 1022) := by
  obtain ⟨r, digits, above, below, rank⟩ := nearestRank_of_pos pos
  exact ⟨r, digits, above, below, Magnitude.units_of_val (h.trans rank) (.inr above) below⟩

theorem units_of_log2_le (pos : n ≠ 0) (short : n.log2 ≤ 52) (h : x.val = nearestRank n 1) :
    x.units = n * oneUnits := by
  obtain ⟨r, digits, -, -, units⟩ := exists_units_of_nearestRank pos h
  have split : n * oneUnits = n * 2 ^ (52 - n.log2) * 2 ^ (n.log2 + 1022) := by
    have shifted : oneUnits = 2 ^ (52 - n.log2) * 2 ^ (n.log2 + 1022) := by
      rw [← Nat.pow_add, ← Nat.add_assoc, Nat.sub_add_cancel short, oneUnits_eq]
    rw [Nat.mul_assoc, ← shifted]
  rw [split, roundHalfEven_mul (Nat.two_pow_pos _)] at digits
  rw [units, split, digits]

theorem nearestRank_zero : nearestRank 0 1 = 0 :=
  nearestRank_of_exact (x := .zero) Nat.one_pos (by rw [Nat.zero_mul]; rfl)

theorem nearestRank_lt (short : n.log2 < 1023) : nearestRank n 1 < magnitudeCount := by
  have count : magnitudeCount = 2047 * 2 ^ 52 := rfl
  by_cases pos : n = 0
  · rw [pos, nearestRank_zero]
    decide
  · obtain ⟨r, -, -, below, rank⟩ := nearestRank_of_pos pos
    rw [rank, count]
    omega

theorem units_eq_zero (h : x.val = 0) : x.units = 0 := by
  obtain rfl : x = .zero := Fin.ext h
  rfl

/-- A number below `2 ^ 53` is not rounded. -/
theorem units_of_lt (small : n < 2 ^ 53) (h : x.val = nearestRank n 1) :
    x.units = n * oneUnits := by
  by_cases pos : n = 0
  · subst pos
    rw [Nat.zero_mul]
    exact units_eq_zero (h.trans nearestRank_zero)
  · exact units_of_log2_le pos (Nat.le_of_lt_succ ((Nat.log2_lt pos).2 small)) h

theorem whole_of_nearestRank (h : x.val = nearestRank n 1) : oneUnits ∣ x.units := by
  by_cases small : n < 2 ^ 53
  · exact ⟨n, by rw [units_of_lt small h, Nat.mul_comm]⟩
  · have pos : n ≠ 0 := by
      rintro rfl
      exact small (Nat.two_pow_pos _)
    have large : 53 ≤ n.log2 := (Nat.le_log2 pos).2 (Nat.le_of_not_lt small)
    obtain ⟨r, -, -, -, units⟩ := exists_units_of_nearestRank pos h
    rw [units]
    rw [oneUnits_eq]
    exact Nat.dvd_mul_left_of_dvd (Nat.pow_dvd_pow 2 (by omega)) r

/-- No double above a power of two is the nearest to a number below that power. -/
theorem units_le_of_lt {k : Nat} (small : n < 2 ^ k) (h : x.val = nearestRank n 1) :
    x.units ≤ 2 ^ k * oneUnits := by
  by_cases pos : n = 0
  · subst pos
    rw [units_eq_zero (h.trans nearestRank_zero)]
    exact Nat.zero_le _
  · have short : n.log2 < k := (Nat.log2_lt pos).2 small
    obtain ⟨r, -, -, below, units⟩ := exists_units_of_nearestRank pos h
    calc x.units = r * 2 ^ (n.log2 + 1022) := units
      _ ≤ 2 ^ 53 * 2 ^ (n.log2 + 1022) := Nat.mul_le_mul_right _ below
      _ = 2 ^ (n.log2 + 1) * oneUnits := by
          rw [Nat.pow_succ', Nat.mul_assoc, ← two_pow_mul_oneUnits, ← Nat.mul_assoc,
            ← Nat.pow_succ']
      _ ≤ 2 ^ k * oneUnits := Nat.mul_le_mul_right _ (Nat.pow_le_pow_right (by decide) short)

theorem le_units_of_le {k : Nat} (large : 2 ^ k ≤ n) (h : x.val = nearestRank n 1) :
    2 ^ k * oneUnits ≤ x.units := by
  have pos : n ≠ 0 := Nat.ne_of_gt (Nat.lt_of_lt_of_le (Nat.two_pow_pos k) large)
  have long : k ≤ n.log2 := (Nat.le_log2 pos).2 large
  obtain ⟨r, -, above, -, units⟩ := exists_units_of_nearestRank pos h
  calc 2 ^ k * oneUnits ≤ 2 ^ n.log2 * oneUnits :=
        Nat.mul_le_mul_right _ (Nat.pow_le_pow_right (by decide) long)
    _ = 2 ^ 52 * 2 ^ (n.log2 + 1022) := two_pow_mul_oneUnits _
    _ ≤ r * 2 ^ (n.log2 + 1022) := Nat.mul_le_mul_right _ above
    _ = x.units := units.symm

end

theorem nearestRank_lt_of_lt {n : Nat} (small : n < 2 ^ 64) : nearestRank n 1 < magnitudeCount := by
  refine nearestRank_lt ?_
  by_cases zero : n = 0
  · rw [zero, Nat.log2_zero]
    decide
  · exact Nat.lt_trans ((Nat.log2_lt zero).2 small) (by decide)

theorem Double.isFinite_ofInt {n : Int} (small : n.natAbs < 2 ^ 64) :
    (ofInt n).isFinite = true := by
  rw [ofInt, nearest, ofRank, dif_pos (nearestRank_lt_of_lt small)]
  rfl

namespace Magnitude

theorem readsBack_of_onGrid? {tie : Tie} {x : Magnitude} {exponent : Int} {digits : Nat}
    (h : onGrid? tie x exponent = some digits) : x.readsBack digits exponent = true := by
  unfold onGrid? at h
  dsimp only at h
  split at h
  · next upper =>
      cases h
      exact (Bool.and_eq_true_iff.1 upper).1
  · split at h
    · cases h
      assumption
    · contradiction

theorem readsBack_iff {x : Magnitude} {digits : Nat} {exponent : Int} :
    x.readsBack digits exponent = true ↔ nearestDecimalRank digits exponent = x.val := by
  rw [readsBack, beq_iff_eq]

theorem readsBack_exact (x : Magnitude) :
    nearestDecimalRank x.exact.digits x.exact.exponent = x.val := by
  have exact : x.units * 5 ^ 1074 * oneUnits = x.units * 10 ^ 1074 := by
    rw [oneUnits_eq, Nat.mul_assoc, ← Nat.mul_pow]
  exact nearestRank_of_exact (Nat.pow_pos (by decide)) exact

/-- The shortest decimal of a double reads back as that double. -/
theorem readsBack_shortest (tie : Tie) (x : Magnitude) :
    nearestDecimalRank (x.shortest tie).digits (x.shortest tie).exponent = x.val := by
  have searched (grids : Nat) (exponent : Int) :
      nearestDecimalRank (search tie x grids exponent).digits
        (search tie x grids exponent).exponent = x.val := by
    induction grids generalizing exponent with
    | zero => exact x.readsBack_exact
    | succ grids ih =>
        rw [search]
        split
        · next found => exact readsBack_iff.1 (readsBack_of_onGrid? found)
        · exact ih _
  unfold shortest
  split
  · next zero =>
      subst zero
      exact nearestRank_zero
  · exact searched _ _

end Magnitude

end PredicateLang
