import Mathlib.Algebra.Order.Ring.Pow
import Mathlib.Tactic.FieldSimp
import Mathlib.Tactic.Linarith
import Mathlib.Tactic.Positivity
import Mathlib.Tactic.Ring
import Mathlib.Tactic.NormNum
import Mathlib.Data.Rat.Cast.Order
import PredicateLang.Proofs.Number.Whole

/-!
# How near the decimal of a double is

The decimal of a double is rounded at three points, and each time only what is small beside the
number is lost: a binary digit behind ninety-three others for a factor of five, the places behind
the twenty-eighth, and the places behind the fifteenth digit. In all, the decimal differs from the
double by at most two units of the fifteenth digit and two of the twenty-eighth place
(`Magnitude.toDecimal96?_of_shift_le`).

Bounds are stated between rational numbers; `Decimal96.placed` is the value of a coefficient and a
scale.
-/

namespace PredicateLang

namespace Decimal96

def placed (r : Nat × Nat) : ℚ := r.1 / 10 ^ r.2

theorem roundedTenth_bounds (m : Nat) :
    m ≤ 10 * roundedTenth m + 4 ∧ 10 * roundedTenth m ≤ m + 5 := by
  unfold roundedTenth
  split <;> omega

theorem placed_roundedTenth (m scale : Nat) :
    |placed (roundedTenth m, scale) - placed (m, scale + 1)| ≤ 1 / 10 ^ scale * (1 / 2) := by
  obtain ⟨lower, upper⟩ := roundedTenth_bounds m
  have lower : (m : ℚ) ≤ 10 * roundedTenth m + 4 := by exact_mod_cast lower
  have upper : (10 * roundedTenth m : ℚ) ≤ m + 5 := by exact_mod_cast upper
  have unit : (0 : ℚ) < 1 / 10 ^ scale := by positivity
  have scaled : placed (roundedTenth m, scale) - placed (m, scale + 1) =
      1 / 10 ^ scale * (roundedTenth m - m / 10) := by
    simp only [placed, pow_succ]
    ring
  rw [scaled, abs_mul, abs_of_pos unit]
  refine mul_le_mul_of_nonneg_left ?_ unit.le
  rw [abs_le]
  constructor <;> linarith

/-- The places that are dropped make up less than one unit of the last place that is left. -/
theorem dropPlaces_error {extra scale : Nat} (le : extra ≤ scale) (m : Nat) :
    |placed (dropPlaces extra m scale) - placed (m, scale)| ≤
      1 / 10 ^ (scale - extra) - 1 / 10 ^ scale := by
  induction extra generalizing m scale with
  | zero => simp [dropPlaces]
  | succ extra ih =>
      obtain ⟨scale, rfl⟩ : ∃ s, scale = s + 1 := ⟨scale - 1, by omega⟩
      have unit : (0 : ℚ) < 1 / 10 ^ scale := by positivity
      have place : (1 : ℚ) / 10 ^ (scale + 1) = 1 / 10 ^ scale / 10 := by
        rw [pow_succ, div_div]
      have rest : (1 : ℚ) / 10 ^ scale ≤ 1 / 10 ^ (scale - extra) :=
        one_div_le_one_div_of_le (by positivity)
          (pow_le_pow_right₀ (by norm_num) (Nat.sub_le scale extra))
      rw [dropPlaces, Nat.add_sub_cancel, Nat.add_sub_add_right, place]
      split
      · next small =>
          have digit : (m : ℚ) ≤ 9 := by exact_mod_cast (by omega : m ≤ 9)
          have value : placed (0, 0) - placed (m, scale + 1) = -(1 / 10 ^ scale * (m / 10)) := by
            simp only [placed, pow_succ]
            ring
          rw [value, abs_neg, abs_of_nonneg (by positivity)]
          have := mul_le_mul_of_nonneg_left (by linarith : (m : ℚ) / 10 ≤ 9 / 10) unit.le
          linarith
      · have first := placed_roundedTenth m scale
        have others := ih (by omega : extra ≤ scale) (roundedTenth m)
        have := abs_sub_le (placed (dropPlaces extra (roundedTenth m) scale))
          (placed (roundedTenth m, scale)) (placed (m, scale + 1))
        linarith

theorem dropToDouble_error (scale m : Nat) :
    |placed (dropToDouble scale m) - placed (m, scale)| ≤
      5 / 9 * (1 / 10 ^ (dropToDouble scale m).2 - 1 / 10 ^ scale) := by
  induction scale generalizing m with
  | zero => simp [dropToDouble]
  | succ scale ih =>
      rw [dropToDouble]
      split
      · have first := placed_roundedTenth m scale
        have others := ih (roundedTenth m)
        have place : (1 : ℚ) / 10 ^ (scale + 1) = 1 / 10 ^ scale / 10 := by
          rw [pow_succ, div_div]
        have := abs_sub_le (placed (dropToDouble scale (roundedTenth m)))
          (placed (roundedTenth m, scale)) (placed (m, scale + 1))
        rw [place]
        linarith
      · simp

/-- Places are dropped only as long as fifteen digits and more are left. -/
theorem dropToDouble_large (scale m : Nat) :
    dropToDouble scale m = (m, scale) ∨ 2 ^ 52 ≤ 10 * (dropToDouble scale m).1 + 4 := by
  induction scale generalizing m with
  | zero => exact .inl rfl
  | succ scale ih =>
      rw [dropToDouble]
      split
      · next large =>
          refine .inr ?_
          have large : 2 ^ 52 ≤ m := large
          rcases ih (roundedTenth m) with same | enough
          · rw [same]
            exact large.trans (roundedTenth_bounds m).1
          · exact enough
      · exact .inl rfl

theorem dropToDouble_relative (scale m : Nat) :
    |placed (dropToDouble scale m) - placed (m, scale)| ≤
      placed (dropToDouble scale m) * (13 / 10 ^ 16) := by
  rcases dropToDouble_large scale m with same | enough
  · rw [same, sub_self, abs_zero]
    unfold placed
    positivity
  · have error := dropToDouble_error scale m
    generalize dropToDouble scale m = r at enough error ⊢
    have enough : (2 ^ 52 : ℚ) ≤ 10 * r.1 + 4 := by exact_mod_cast enough
    have digits : (5 : ℚ) / 9 ≤ r.1 * (13 / 10 ^ 16) := by
      norm_num at enough ⊢
      linarith
    have unit : (0 : ℚ) < 1 / 10 ^ r.2 := by positivity
    have last : (0 : ℚ) < 1 / 10 ^ scale := by positivity
    have : placed r * (13 / 10 ^ 16) = 1 / 10 ^ r.2 * (r.1 * (13 / 10 ^ 16)) := by
      unfold placed
      ring
    rw [this]
    have := mul_le_mul_of_nonneg_left digits unit.le
    linarith

theorem half_bounds {m : Nat} (h : ¬ (m % 2 = 1 ∧ 5 * m < limit)) :
    (m * (1 - 1 / 2 ^ 93) : ℚ) ≤ 2 * (m / 2 : Nat) ∧ (2 * (m / 2 : Nat) : ℚ) ≤ m := by
  have upper : (2 * (m / 2 : Nat) : ℚ) ≤ m := by exact_mod_cast Nat.mul_div_le m 2
  refine ⟨?_, upper⟩
  by_cases even : m % 2 = 0
  · have exact : (2 * (m / 2 : Nat) : ℚ) = m := by
      exact_mod_cast Nat.mul_div_cancel' (Nat.dvd_of_mod_eq_zero even)
    have := m.cast_nonneg (α := ℚ)
    linarith
  · have lost : (m : ℚ) ≤ 2 * (m / 2 : Nat) + 1 := by exact_mod_cast (by omega)
    have large : (2 ^ 93 : ℚ) ≤ m := by
      rw [limit_eq] at h
      exact_mod_cast (by omega : 2 ^ 93 ≤ m)
    linarith

/-- Every binary digit that is given up is the last of more than ninety-three. -/
theorem divideFives_bounds {fives scale : Nat} (le : fives ≤ scale) (m : Nat) :
    ∃ r : Nat × Nat, divideFives fives m (-(scale : Int)) = (r.1, -(r.2 : Int)) ∧
      placed r ≤ placed (m, scale) * 5 ^ fives ∧
      placed (m, scale) * 5 ^ fives * (1 - 1 / 2 ^ 93) ^ fives ≤ placed r := by
  induction fives generalizing m scale with
  | zero => exact ⟨(m, scale), rfl, by simp, by simp⟩
  | succ fives ih =>
      rw [divideFives]
      split
      · obtain ⟨r, same, upper, lower⟩ := ih (by omega : fives ≤ scale) (5 * m)
        have value : placed (5 * m, scale) * 5 ^ fives = placed (m, scale) * 5 ^ (fives + 1) := by
          simp only [placed, pow_succ, Nat.cast_mul, Nat.cast_ofNat]
          ring
        rw [value] at upper lower
        refine ⟨r, same, upper, le_trans ?_ lower⟩
        refine mul_le_mul_of_nonneg_left ?_ (by unfold placed; positivity)
        exact pow_le_pow_of_le_one (by norm_num) (by norm_num) (Nat.le_succ fives)
      · next odd =>
        obtain ⟨scale, rfl⟩ : ∃ s, scale = s + 1 := ⟨scale - 1, by omega⟩
        obtain ⟨r, same, upper, lower⟩ := ih (by omega : fives ≤ scale) (m / 2)
        have places : -((scale + 1 : Nat) : Int) + 1 = -(scale : Int) := by omega
        have value : placed (m / 2, scale) * 5 ^ fives =
            5 ^ (fives + 1) / 10 ^ (scale + 1) * (2 * (m / 2 : Nat)) := by
          simp only [placed, pow_succ]
          ring
        have whole : placed (m, scale + 1) * 5 ^ (fives + 1) =
            5 ^ (fives + 1) / 10 ^ (scale + 1) * m := by
          simp only [placed]
          ring
        obtain ⟨below, above⟩ := half_bounds odd
        rw [places]
        rw [value] at upper lower
        rw [whole]
        refine ⟨r, same, upper.trans (mul_le_mul_of_nonneg_left above (by positivity)), ?_⟩
        refine le_trans ?_ lower
        rw [pow_succ' (1 - 1 / 2 ^ 93), ← mul_assoc, mul_assoc _ (m : ℚ)]
        have rest : (0 : ℚ) ≤ (1 - 1 / 2 ^ 93) ^ fives := pow_nonneg (by norm_num) _
        exact mul_le_mul_of_nonneg_right (mul_le_mul_of_nonneg_left below (by positivity)) rest

/-- All the digits given up for factors of five are a small part of the number. -/
theorem divideFives_relative {fives scale : Nat} (le : fives ≤ scale) (few : fives ≤ 1074)
    (m : Nat) :
    ∃ r : Nat × Nat, divideFives fives m (-(scale : Int)) = (r.1, -(r.2 : Int)) ∧
      placed r ≤ placed (m, scale) * 5 ^ fives ∧
      placed (m, scale) * 5 ^ fives * (1 - 1 / 10 ^ 24) ≤ placed r := by
  obtain ⟨r, same, upper, lower⟩ := divideFives_bounds le m
  refine ⟨r, same, upper, le_trans ?_ lower⟩
  refine mul_le_mul_of_nonneg_left ?_ (by unfold placed; positivity)
  have few : (fives : ℚ) ≤ 1074 := by exact_mod_cast few
  calc (1 - 1 / 10 ^ 24 : ℚ) ≤ 1 + fives * -(1 / 2 ^ 93) := by
        norm_num
        linarith
    _ ≤ (1 + -(1 / 2 ^ 93)) ^ fives := one_add_mul_le_pow (by norm_num) fives
    _ = (1 - 1 / 2 ^ 93) ^ fives := by rw [← sub_eq_add_neg]

theorem ofScaled?_neg (negative : Bool) (m scale : Nat) :
    ∃ r : Nat × Nat, ofScaled? negative m (-(scale : Int)) = some ⟨negative, r.1, r.2⟩ ∧
      |placed r - placed (m, scale)| ≤ placed r * (13 / 10 ^ 16) + 1 / 10 ^ 28 := by
  have none : (-(scale : Int)).toNat = 0 := by omega
  have places : (- -(scale : Int)).toNat = scale := by omega
  generalize kept : dropPlaces (scale - 28) m scale = p
  refine ⟨dropToDouble p.2 p.1, ?_, ?_⟩
  · rw [ofScaled?, none, places]
    simp only [multiplyTens, kept, Option.bind_eq_bind, Option.bind_some]
    rfl
  · have first : |placed p - placed (m, scale)| ≤ 1 / 10 ^ 28 := by
      have error := dropPlaces_error (Nat.sub_le scale 28) m
      rw [kept] at error
      by_cases short : scale ≤ 28
      · rw [Nat.sub_eq_zero_of_le short, Nat.sub_zero, sub_self] at error
        exact error.trans (by positivity)
      · rw [Nat.sub_sub_self (by omega)] at error
        have last : (0 : ℚ) < 1 / 10 ^ scale := by positivity
        linarith
    have second := dropToDouble_relative p.2 p.1
    have := abs_sub_le (placed (dropToDouble p.2 p.1)) (placed p) (placed (m, scale))
    linarith

theorem placed_of_equalsInt {d : Decimal96} {n : Int} (h : d.equalsInt n = true) :
    (if d.negative then -placed (d.coefficient, d.scale) else placed (d.coefficient, d.scale)) =
      n := by
  have scaled : (if d.negative then -(d.coefficient : Int) else d.coefficient) =
      n * 10 ^ d.scale := beq_iff_eq.1 h
  have unit : (10 ^ d.scale : ℚ) ≠ 0 := by positivity
  have scaled : ((if d.negative then -(d.coefficient : Int) else d.coefficient : Int) : ℚ) =
      n * 10 ^ d.scale := by exact_mod_cast scaled
  rw [← mul_div_cancel_right₀ (n : ℚ) unit, ← scaled]
  cases d.negative
  · simp [placed]
  · simp [placed, neg_div]

end Decimal96

namespace Magnitude

def value (x : Magnitude) : ℚ := x.units / oneUnits

theorem value_of_shift_le {x : Magnitude} (low : x.shift ≤ 1074) :
    x.value = Decimal96.placed (x.significand, 1074 - x.shift) * 5 ^ (1074 - x.shift) := by
  have ten : (10 : ℚ) ^ (1074 - x.shift) = 5 ^ (1074 - x.shift) * 2 ^ (1074 - x.shift) := by
    rw [← mul_pow]
    norm_num
  rw [value, units_eq, oneUnits_eq_mul low, Decimal96.placed, ten]
  push_cast
  field_simp

/-- A double that is not too large has a decimal of about its value. -/
theorem toDecimal96?_of_shift_le {x : Magnitude} (low : x.shift ≤ 1074) (negative : Bool) :
    ∃ r : Nat × Nat, x.toDecimal96? negative = some ⟨negative, r.1, r.2⟩ ∧
      |x.value - Decimal96.placed r| ≤ Decimal96.placed r * (2 / 10 ^ 15) + 2 / 10 ^ 28 := by
  have fives : ((x.shift : Int) - 1074).natAbs = 1074 - x.shift := by omega
  have places : (x.shift : Int) - 1074 = -((1074 - x.shift : Nat) : Int) := by omega
  obtain ⟨p, divided, upper, lower⟩ :=
    Decimal96.divideFives_relative (le_refl (1074 - x.shift)) (Nat.sub_le _ _) x.significand
  obtain ⟨r, decimal, error⟩ := Decimal96.ofScaled?_neg negative p.1 p.2
  refine ⟨r, ?_, ?_⟩
  · unfold toDecimal96?
    dsimp only
    rw [if_pos (by omega), fives, places, divided]
    exact decimal
  · rw [← value_of_shift_le low] at upper lower
    change |Decimal96.placed r - Decimal96.placed p| ≤ _ at error
    rw [abs_le] at error ⊢
    norm_num at error lower ⊢
    constructor <;> linarith

end Magnitude

end PredicateLang
