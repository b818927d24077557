import PredicateLang.Proofs.Number.Accuracy

/-!
# The nearest double

`Magnitude.IsNearest x q` says that no magnitude is closer to the number `q` than `x`, and that `x`
has an even rank if another one is as close. Rounding finds that magnitude
(`Magnitude.isNearest_of_val`). What it keeps of a number is a whole number of steps, and no whole
number of steps is closer; a magnitude between two steps lies below all numbers that are rounded in
steps of this length.
-/

namespace PredicateLang

/-- Rounding moves a quotient by half a unit at most, and by just as much only to an even number. -/
theorem roundHalfEven_bounds (num : Nat) {den : Nat} (pos : 0 < den) :
    2 * num ≤ 2 * (roundHalfEven num den * den) + den ∧
      2 * (roundHalfEven num den * den) ≤ 2 * num + den ∧
      (2 * num = 2 * (roundHalfEven num den * den) + den ∨
        2 * (roundHalfEven num den * den) = 2 * num + den → roundHalfEven num den % 2 = 0) := by
  have whole := Nat.div_add_mod' num den
  have small := Nat.mod_lt num pos
  have next : (num / den + 1) * den = num / den * den + den := Nat.succ_mul _ _
  simp only [roundHalfEven]
  split
  · omega
  · split
    · omega
    · rw [next]
      omega

section

variable {q : ℚ} {k : Nat}

theorem abs_roundHalfEven_sub_le (num : Nat) {den : Nat} (pos : 0 < den) :
    |(roundHalfEven num den : ℚ) - num / den| ≤ 1 / 2 ∧
      (|(roundHalfEven num den : ℚ) - num / den| = 1 / 2 → roundHalfEven num den % 2 = 0) := by
  obtain ⟨lower, upper, even⟩ := roundHalfEven_bounds num pos
  generalize roundHalfEven num den = r at *
  have unit : (0 : ℚ) < den := by exact_mod_cast pos
  have lower : 2 * (num : ℚ) ≤ 2 * (r * den) + den := by exact_mod_cast lower
  have upper : 2 * ((r : ℚ) * den) ≤ 2 * num + den := by exact_mod_cast upper
  have scaled : (r : ℚ) - num / den = (r * den - num) / den := by
    field_simp
  rw [scaled, abs_div, abs_of_pos unit, div_le_iff₀ unit, div_eq_iff unit.ne']
  refine ⟨abs_le.2 ⟨by linarith, by linarith⟩, fun half => even ?_⟩
  rcases (abs_eq (by positivity)).1 half with above | below
  · right
    have : 2 * ((r : ℚ) * den) = 2 * num + den := by linarith
    exact_mod_cast this
  · left
    have : 2 * (num : ℚ) = 2 * (r * den) + den := by linarith
    exact_mod_cast this

theorem half_le_abs_sub (close : |(k : ℚ) - q| ≤ 1 / 2) {j : Nat} (ne : j ≠ k) :
    1 / 2 ≤ |(j : ℚ) - q| := by
  have apart : (1 : ℚ) ≤ |(j : ℚ) - k| := by
    have whole : (j : ℤ) - k ≠ 0 := by omega
    exact_mod_cast Int.one_le_abs whole
  have triangle : |(j : ℚ) - k| ≤ |(j : ℚ) - q| + |(k : ℚ) - q| := by
    rw [abs_sub_comm (k : ℚ) q]
    exact abs_sub_le _ _ _
  linarith

theorem abs_sub_le_of_half (close : |(k : ℚ) - q| ≤ 1 / 2) (j : Nat) :
    |(k : ℚ) - q| ≤ |(j : ℚ) - q| := by
  by_cases same : j = k
  · rw [same]
  · exact close.trans (half_le_abs_sub close same)

theorem abs_sub_lt_of_lt (close : |(k : ℚ) - q| ≤ 1 / 2) {j : Nat} (low : (j : ℚ) ≤ q) {p : ℚ}
    (less : p < j) : |(k : ℚ) - q| < |p - q| := by
  calc |(k : ℚ) - q| ≤ |(j : ℚ) - q| := abs_sub_le_of_half close j
    _ = q - j := by rw [abs_sub_comm, abs_of_nonneg (sub_nonneg.2 low)]
    _ < q - p := by linarith
    _ = |p - q| := by rw [abs_sub_comm, abs_of_pos (by linarith)]

end

/-- How a quotient is rounded. It consists of less than `2 ^ 53` steps, and where digits are dropped,
of `2 ^ 52` at least; it is rounded to a whole number of steps within these bounds. -/
theorem exists_nearestRank_eq (num : Nat) {den : Nat} (pos : 0 < den) :
    ∃ dropped k : Nat, k = roundHalfEven (num * oneUnits) (den * 2 ^ dropped) ∧
      nearestRank num den = dropped * 2 ^ 52 + k ∧
      (dropped = 0 ∨ 2 ^ 52 ≤ k ∧ 2 ^ 52 * (den * 2 ^ dropped) ≤ num * oneUnits) ∧
      k ≤ 2 ^ 53 ∧ num * oneUnits < 2 ^ 53 * (den * 2 ^ dropped) := by
  have divisor (dropped : Nat) : 0 < den * 2 ^ dropped := Nat.mul_pos pos (Nat.two_pow_pos _)
  refine ⟨_, _, rfl, nearestRank_eq num den, ?_⟩
  have quotient (dropped : Nat) :
      num * oneUnits / (den * 2 ^ dropped) = num * oneUnits / den / 2 ^ dropped := by
    rw [Nat.div_div_eq_div_mul]
  have below := roundHalfEven_le (num * oneUnits)
    (den * 2 ^ excessDigits (num * oneUnits / den))
  have above := le_roundHalfEven (num * oneUnits)
    (den * 2 ^ excessDigits (num * oneUnits / den))
  rw [← Nat.le_div_iff_mul_le (divisor _), ← Nat.div_lt_iff_lt_mul (divisor _)]
  rw [quotient] at below above ⊢
  generalize num * oneUnits / den = whole at *
  have upper : whole / 2 ^ excessDigits whole < 2 ^ 53 := by
    rw [Nat.div_lt_iff_lt_mul (Nat.two_pow_pos _), ← Nat.pow_add]
    refine Nat.lt_of_lt_of_le Nat.lt_log2_self (Nat.pow_le_pow_right (by decide) ?_)
    rw [excessDigits]
    omega
  refine ⟨?_, below.trans upper, upper⟩
  rcases Nat.eq_zero_or_pos (excessDigits whole) with none | some
  · exact .inl none
  · have long : whole.log2 = 52 + excessDigits whole := by
      rw [excessDigits] at some ⊢
      omega
    have nonzero : whole ≠ 0 := by
      rintro rfl
      rw [excessDigits, Nat.log2_zero] at some
      omega
    have lower : 2 ^ 52 ≤ whole / 2 ^ excessDigits whole := by
      rw [Nat.le_div_iff_mul_le (Nat.two_pow_pos _), ← Nat.pow_add, ← long]
      exact Nat.log2_self_le nonzero
    exact .inr ⟨lower.trans above, lower⟩

namespace Magnitude

/-- No magnitude is closer to the number, and if another is as close, then the rank is even. -/
structure IsNearest (x : Magnitude) (q : ℚ) : Prop where
  closest (y : Magnitude) : |x.value - q| ≤ |y.value - q|
  even_of_tie (y : Magnitude) : y ≠ x → |y.value - q| = |x.value - q| → x.val % 2 = 0

variable {x y : Magnitude}

theorem value_injective : Function.Injective value := by
  intro x y same
  have pos : (oneUnits : ℚ) ≠ 0 := by exact_mod_cast Nat.ne_of_gt oneUnits_pos
  rw [value, value, div_left_inj' pos] at same
  exact units_injective (by exact_mod_cast same)

def step (dropped : Nat) : ℚ := 2 ^ dropped / oneUnits

theorem step_pos (dropped : Nat) : 0 < step dropped := by
  have pos : (0 : ℚ) < oneUnits := by exact_mod_cast oneUnits_pos
  unfold step
  positivity

theorem value_of_units {dropped k : Nat} (h : x.units = k * 2 ^ dropped) :
    x.value = k * step dropped := by
  rw [value, h, step, Nat.cast_mul, Nat.cast_pow, Nat.cast_ofNat, mul_div_assoc]

/-- A magnitude is a whole number of steps, or lies below all magnitudes with such steps. -/
theorem exists_steps (y : Magnitude) (dropped : Nat) :
    ∃ p : ℚ, y.value = p * step dropped ∧
      ((∃ j : Nat, p = j) ∨ 0 < dropped ∧ p < (2 ^ 52 : Nat)) := by
  rcases Nat.lt_or_ge y.shift dropped with fine | coarse
  · refine ⟨y.value / step dropped, (div_mul_cancel₀ _ (step_pos _).ne').symm,
      .inr ⟨Nat.zero_lt_of_lt fine, ?_⟩⟩
    have digits : (y.significand : ℚ) < 2 ^ 53 := by exact_mod_cast y.significand_lt
    have longer : (2 : ℚ) ^ (y.shift + 1) ≤ 2 ^ dropped := pow_le_pow_right₀ (by norm_num) fine
    have value : y.value = y.significand * step y.shift := value_of_units y.units_eq
    rw [div_lt_iff₀ (step_pos _), value, step, step, ← mul_div_assoc, ← mul_div_assoc,
      div_lt_div_iff_of_pos_right (by exact_mod_cast oneUnits_pos)]
    push_cast
    calc (y.significand : ℚ) * 2 ^ y.shift < 2 ^ 53 * 2 ^ y.shift := by gcongr
      _ = 2 ^ 52 * 2 ^ (y.shift + 1) := by ring
      _ ≤ 2 ^ 52 * 2 ^ dropped := by gcongr
  · refine ⟨_, value_of_units (k := y.significand * 2 ^ (y.shift - dropped)) ?_, .inl ⟨_, rfl⟩⟩
    rw [units_eq, Nat.mul_assoc, ← Nat.pow_add, Nat.sub_add_cancel coarse]

theorem isNearest_of_steps {k dropped : Nat} {t : ℚ} (value : x.value = k * step dropped)
    (close : |(k : ℚ) - t| ≤ 1 / 2) (even : |(k : ℚ) - t| = 1 / 2 → x.val % 2 = 0)
    (high : dropped = 0 ∨ ((2 ^ 52 : Nat) : ℚ) ≤ t) : x.IsNearest (t * step dropped) := by
  have width := step_pos dropped
  have distance (p : ℚ) : |p * step dropped - t * step dropped| = |p - t| * step dropped := by
    rw [← sub_mul, abs_mul, abs_of_pos width]
  refine ⟨fun y => ?_, fun y ne tie => ?_⟩
  · obtain ⟨p, steps, whole | ⟨pos, less⟩⟩ := exists_steps y dropped
    · obtain ⟨j, rfl⟩ := whole
      rw [value, steps, distance, distance]
      exact mul_le_mul_of_nonneg_right (abs_sub_le_of_half close j) width.le
    · have nearer := abs_sub_lt_of_lt close (high.resolve_left (Nat.ne_of_gt pos)) less
      rw [value, steps, distance, distance]
      exact mul_le_mul_of_nonneg_right nearer.le width.le
  · obtain ⟨p, steps, whole | ⟨pos, less⟩⟩ := exists_steps y dropped <;>
      rw [value, steps, distance, distance, mul_left_inj' width.ne'] at tie
    · obtain ⟨j, rfl⟩ := whole
      have other : j ≠ k := by
        rintro rfl
        exact ne (value_injective (steps.trans value.symm))
      exact even (close.antisymm (tie ▸ half_le_abs_sub close other))
    · exact absurd tie
        (abs_sub_lt_of_lt close (high.resolve_left (Nat.ne_of_gt pos)) less).ne'

theorem exists_steps_of_nearestRank {num den : Nat} (pos : 0 < den)
    (h : x.val = nearestRank num den) :
    ∃ dropped k : Nat, k = roundHalfEven (num * oneUnits) (den * 2 ^ dropped) ∧
      x.val = dropped * 2 ^ 52 + k ∧ x.units = k * 2 ^ dropped ∧
      (dropped = 0 ∨ 2 ^ 52 * (den * 2 ^ dropped) ≤ num * oneUnits) := by
  obtain ⟨dropped, k, rounded, rank, lower, upper, -⟩ := exists_nearestRank_eq num pos
  exact ⟨dropped, k, rounded, h.trans rank,
    units_of_val (h.trans rank) (lower.imp_right And.left) upper, lower.imp_right And.right⟩

/-- Rounding a quotient finds the nearest magnitude. -/
theorem isNearest_of_val {num den : Nat} (pos : 0 < den) (h : x.val = nearestRank num den) :
    x.IsNearest (num / den) := by
  obtain ⟨dropped, k, rounded, rank, units, high⟩ := exists_steps_of_nearestRank pos h
  have divisor : 0 < den * 2 ^ dropped := Nat.mul_pos pos (Nat.two_pow_pos _)
  obtain ⟨close, even⟩ := abs_roundHalfEven_sub_le (num * oneUnits) divisor
  rw [← rounded] at close even
  have quotient : (num : ℚ) / den =
      ((num * oneUnits : Nat) : ℚ) / ((den * 2 ^ dropped : Nat) : ℚ) * step dropped := by
    have den_ne : (den : ℚ) ≠ 0 := by exact_mod_cast Nat.ne_of_gt pos
    have one_ne : (oneUnits : ℚ) ≠ 0 := by exact_mod_cast Nat.ne_of_gt oneUnits_pos
    rw [step]
    push_cast
    field_simp
  rw [quotient]
  refine isNearest_of_steps (value_of_units units) close (fun half => ?_) ?_
  · have := even half
    omega
  · refine high.imp_right fun leading => ?_
    rw [le_div_iff₀ (by exact_mod_cast divisor)]
    exact_mod_cast leading

end Magnitude

end PredicateLang
