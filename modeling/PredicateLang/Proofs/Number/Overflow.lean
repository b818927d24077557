import PredicateLang.Proofs.Number.Nearest

/-!
# Beyond the largest double

What lies below the `overflow` is rounded to a finite double, and everything else to infinity
(`nearestRank_lt_iff`). `Double.IsRounded x q` says in full what the double of a number `q` is: the
nearest magnitude below the overflow, and infinity from there on. There is just one such double
(`Double.IsRounded.unique`), and rounding a decimal finds it (`Double.isRounded_nearestDecimal`).
-/

namespace PredicateLang

/-- The least number that is rounded to infinity. It is halfway between the largest double and the
power of two above it, which would be the even one of the two. -/
def overflow : ℚ := 2 ^ 1024 - 2 ^ 970

theorem overflow_mul_oneUnits : overflow * oneUnits = ((2 ^ 54 - 1 : Nat) : ℚ) * 2 ^ 2044 := by
  have units : (oneUnits : ℚ) = 2 ^ 1074 := by rw [oneUnits_eq, Nat.cast_pow, Nat.cast_ofNat]
  have digits : ((2 ^ 54 - 1 : Nat) : ℚ) = 2 ^ 54 - 1 := by norm_num
  rw [overflow, units, digits, sub_mul, sub_mul, one_mul, ← pow_add, ← pow_add, ← pow_add]

/-- A quotient is rounded to a finite double exactly if it lies below the overflow. -/
theorem nearestRank_lt_iff_mul_lt (num : Nat) {den : Nat} (pos : 0 < den) :
    nearestRank num den < magnitudeCount ↔
      num * oneUnits < (2 ^ 54 - 1) * (den * 2 ^ 2044) := by
  obtain ⟨dropped, k, rounded, rank, lower, upper, less⟩ := exists_nearestRank_eq num pos
  obtain ⟨below, above, even⟩ := roundHalfEven_bounds (num * oneUnits)
    (Nat.mul_pos pos (Nat.two_pow_pos dropped))
  have count : magnitudeCount = 2047 * 2 ^ 52 := rfl
  have coarser {m n : Nat} (le : m ≤ n) : den * 2 ^ m ≤ den * 2 ^ n :=
    Nat.mul_le_mul_left _ (Nat.pow_le_pow_right (by decide) le)
  have double (n : Nat) : den * 2 ^ (n + 1) = 2 * (den * 2 ^ n) := by
    rw [Nat.pow_succ', Nat.mul_left_comm]
  obtain ⟨half, half_eq⟩ : ∃ half : Nat, den * 2 ^ 2044 = half := ⟨_, rfl⟩
  rw [rank, count, half_eq]
  rw [← rounded] at below above even
  -- Of the largest doubles 2045 digits are dropped.
  rcases Nat.lt_trichotomy dropped 2045 with fine | last | coarse
  · have small : den * 2 ^ dropped ≤ half := half_eq ▸ coarser (Nat.le_of_lt_succ fine)
    have some := Nat.mul_pos pos (Nat.two_pow_pos dropped)
    omega
  · have step : den * 2 ^ dropped = 2 * half := by rw [last, ← half_eq, ← double]
    rw [step] at below above even less
    rcases Nat.lt_or_eq_of_le upper with finite | rfl
    · have steps : k * (2 * half) ≤ (2 ^ 53 - 1) * (2 * half) :=
        Nat.mul_le_mul_right _ (Nat.le_sub_one_of_lt finite)
      refine iff_of_true (by omega) (Nat.lt_of_le_of_ne (by omega) fun tie => ?_)
      have most : k * (2 * half) = (2 ^ 53 - 1) * (2 * half) := by omega
      have odd : k = 2 ^ 53 - 1 := Nat.eq_of_mul_eq_mul_right (by omega) most
      omega
    · omega
  · have large : 2 * (2 * half) ≤ den * 2 ^ dropped := by
      rw [← half_eq, ← double, ← double]
      exact coarser coarse
    omega

theorem nearestRank_lt_iff (num : Nat) {den : Nat} (pos : 0 < den) :
    nearestRank num den < magnitudeCount ↔ (num : ℚ) / den < overflow := by
  have ones : (0 : ℚ) < oneUnits := by exact_mod_cast oneUnits_pos
  have cast : (((2 ^ 54 - 1) * (den * 2 ^ 2044) : Nat) : ℚ) =
      ((2 ^ 54 - 1 : Nat) : ℚ) * 2 ^ 2044 * den := by
    rw [Nat.cast_mul, Nat.cast_mul, Nat.cast_pow, Nat.cast_ofNat, mul_assoc, mul_comm (den : ℚ)]
  rw [nearestRank_lt_iff_mul_lt num pos, div_lt_iff₀ (by exact_mod_cast pos),
    ← mul_lt_mul_iff_left₀ ones, mul_right_comm, overflow_mul_oneUnits, ← cast, ← Nat.cast_mul,
    Nat.cast_lt]

namespace Magnitude

variable {x y : Magnitude} {q : ℚ}

theorem units_lt_of_val_lt (h : x.val < y.val) : x.units < y.units := by
  have ranks := x.val_eq
  have ranks' := y.val_eq
  have small := x.significand_lt
  rw [units_eq, units_eq]
  rcases Nat.lt_or_ge x.shift y.shift with coarser | notCoarser
  · have leading : 2 ^ 52 ≤ y.significand := y.shift_eq_zero_or.resolve_left (by omega)
    calc x.significand * 2 ^ x.shift < 2 ^ 53 * 2 ^ x.shift :=
          Nat.mul_lt_mul_of_pos_right small (Nat.two_pow_pos _)
      _ = 2 ^ 52 * 2 ^ (x.shift + 1) := by
          rw [Nat.pow_succ' (n := x.shift), ← Nat.mul_assoc, ← Nat.pow_succ]
      _ ≤ y.significand * 2 ^ y.shift :=
          Nat.mul_le_mul leading (Nat.pow_le_pow_right (by decide) coarser)
  · have same : x.shift = y.shift := by
      have := y.significand_lt
      have := x.shift_eq_zero_or
      omega
    rw [same]
    exact Nat.mul_lt_mul_of_pos_right (by omega) (Nat.two_pow_pos _)

theorem value_lt_of_val_lt (h : x.val < y.val) : x.value < y.value := by
  have ones : (0 : ℚ) < oneUnits := by exact_mod_cast oneUnits_pos
  have units : (x.units : ℚ) < y.units := by exact_mod_cast units_lt_of_val_lt h
  exact div_lt_div_of_pos_right units ones

/-- Of two different magnitudes that are as close to a number, another one lies between them unless
one of them has an odd rank. -/
theorem IsNearest.not_val_lt (h : x.IsNearest q) (h' : y.IsNearest q) : ¬ x.val < y.val := by
  intro less
  have tie : |y.value - q| = |x.value - q| := (h'.closest x).antisymm (h.closest y)
  have other : y ≠ x := by
    rintro rfl
    exact Nat.lt_irrefl _ less
  have even := h.even_of_tie y other tie
  have even' := h'.even_of_tie x other.symm tie.symm
  have between : x.val + 1 < magnitudeCount := Nat.lt_of_le_of_lt less y.isLt
  have above : x.value < value ⟨x.val + 1, between⟩ := value_lt_of_val_lt (Nat.lt_succ_self _)
  have below : value ⟨x.val + 1, between⟩ < y.value :=
    value_lt_of_val_lt (show x.val + 1 < y.val by omega)
  rcases abs_eq_abs.1 tie with same | opposite
  · linarith
  · have middle := h.closest ⟨x.val + 1, between⟩
    rw [abs_of_neg (show x.value - q < 0 by linarith)] at middle
    refine absurd (abs_lt.2 ⟨?_, ?_⟩) (not_lt.2 middle) <;> linarith

theorem IsNearest.unique (h : x.IsNearest q) (h' : y.IsNearest q) : x = y :=
  Fin.ext ((Nat.not_lt.1 (h'.not_val_lt h)).antisymm (Nat.not_lt.1 (h.not_val_lt h')))

end Magnitude

namespace Double

/-- The double that a number without a sign is rounded to: the nearest magnitude below the overflow,
and infinity from there on. -/
def IsRounded (x : Double) (q : ℚ) : Prop :=
  match x with
  | .finite false m => m.IsNearest q ∧ q < overflow
  | .infinite false => overflow ≤ q
  | _ => False

theorem IsRounded.unique {x y : Double} {q : ℚ} (h : x.IsRounded q) (h' : y.IsRounded q) :
    x = y := by
  match x, y with
  | .finite false m, .finite false n => rw [h.1.unique h'.1]
  | .finite false m, .infinite false => exact absurd h.2 (not_lt.2 h')
  | .infinite false, .finite false n => exact absurd h'.2 (not_lt.2 h)
  | .infinite false, .infinite false => rfl

theorem isRounded_nearest (num : Nat) {den : Nat} (pos : 0 < den) :
    (nearest false num den).IsRounded (num / den) := by
  unfold nearest ofRank
  split
  · next finite => exact ⟨Magnitude.isNearest_of_val pos rfl, (nearestRank_lt_iff num pos).1 finite⟩
  · next high => exact not_lt.1 (mt (nearestRank_lt_iff num pos).2 high)

/-- A decimal with a number of places is rounded to its double. -/
theorem isRounded_nearestDecimal (digits places : Nat) :
    (nearestDecimal false digits (-places)).IsRounded (digits / 10 ^ places) := by
  cases places with
  | zero =>
      have whole := isRounded_nearest digits Nat.one_pos
      have rank : nearestDecimalRank digits (-(0 : Nat)) = nearestRank digits 1 :=
        congrArg (nearestRank · 1) (Nat.mul_one digits)
      rw [nearestDecimal, rank, pow_zero]
      rwa [Nat.cast_one] at whole
  | succ down =>
      have tens : 0 < 10 ^ (down + 1) := Nat.pow_pos (by decide)
      have fraction := isRounded_nearest digits tens
      rwa [Nat.cast_pow, Nat.cast_ofNat] at fraction

end Double

end PredicateLang
