import PredicateLang.Number
import PredicateLang.Proofs.Number.Rounding

/-!
# Comparing integers and doubles

`Number.Alike` says that two numbers have exactly the same value, whichever way they are held.
The comparison of the language is coarser, since it takes the decimal of a double. On whole
doubles that decimal is exact (`Magnitude.toDecimal96?_of_units`), so there a comparison with an
integer says no more than the truth.
-/

namespace PredicateLang

namespace Decimal96

theorem limit_eq : limit = 2 ^ 96 := rfl

/-- Taking factors of five out of a multiple of as many twos halves it each time. -/
theorem divideFives_of_dvd {fives m : Nat} (h : 2 ^ fives ∣ m) (e : Int) :
    divideFives fives m e = (m / 2 ^ fives, e + fives) := by
  induction fives generalizing m e with
  | zero => simp [divideFives]
  | succ fives ih =>
      obtain ⟨q, rfl⟩ := h
      have even : 2 ^ (fives + 1) * q = 2 * (2 ^ fives * q) := by
        rw [Nat.pow_succ', Nat.mul_assoc]
      have odd : ¬ (2 ^ (fives + 1) * q % 2 = 1 ∧ 5 * (2 ^ (fives + 1) * q) < limit) := by
        rw [even]
        omega
      rw [divideFives, if_neg odd, even, Nat.mul_div_cancel_left _ (by decide),
        ih (Nat.dvd_mul_right _ _), Nat.mul_div_cancel_left _ (Nat.two_pow_pos _), ← even,
        Nat.mul_div_cancel_left _ (Nat.two_pow_pos _)]
      congr 1
      omega

/-- Where there is room, taking factors of five out doubles the number each time. -/
theorem multiplyFives_of_lt {fives m : Nat} (h : m * 2 ^ fives < limit) (e : Int) :
    multiplyFives fives m e = some (m * 2 ^ fives, e - fives) := by
  induction fives generalizing m e with
  | zero => simp [multiplyFives]
  | succ fives ih =>
      have double : m * 2 ^ (fives + 1) = 2 * m * 2 ^ fives := by
        rw [Nat.pow_succ', ← Nat.mul_assoc, Nat.mul_comm m]
      have room : m < limit / 2 := by
        have le := Nat.le_mul_of_pos_right (2 * m) (Nat.two_pow_pos fives)
        rw [limit_eq] at h ⊢
        omega
      rw [double] at h ⊢
      rw [multiplyFives, if_pos room, ih h]
      congr 2
      omega

theorem ofScaled?_zero (negative : Bool) (m : Nat) :
    ofScaled? negative m 0 = some ⟨negative, m, 0⟩ := rfl

theorem equalsInt_whole (negative : Bool) (m : Nat) (n : Int) :
    equalsInt ⟨negative, m, 0⟩ n = ((if negative then -(m : Int) else m) == n) := by
  change (_ == n * 1) = _
  rw [Int.mul_one]

end Decimal96

theorem oneUnits_eq_mul {k : Nat} (h : k ≤ 1074) : oneUnits = 2 ^ (1074 - k) * 2 ^ k := by
  rw [← Nat.pow_add, Nat.sub_add_cancel h, oneUnits_eq]

theorem Magnitude.significand_mul_of_units {x : Magnitude} {n : Nat}
    (h : x.units = n * oneUnits) (above : 1074 ≤ x.shift) :
    x.significand * 2 ^ (x.shift - 1074) = n := by
  have scale : 2 ^ x.shift = 2 ^ (x.shift - 1074) * oneUnits := by
    have split : x.shift = x.shift - 1074 + 1074 := (Nat.sub_add_cancel above).symm
    rw [oneUnits_eq, ← Nat.pow_add, ← split]
  rw [units_eq, scale, ← Nat.mul_assoc] at h
  exact Nat.eq_of_mul_eq_mul_right oneUnits_pos h

theorem Magnitude.toDecimal96?_of_units {x : Magnitude} {n : Nat} (h : x.units = n * oneUnits)
    (small : n < Decimal96.limit) (negative : Bool) :
    x.toDecimal96? negative = some ⟨negative, n, 0⟩ := by
  unfold toDecimal96?
  dsimp only
  split
  · next low =>
      -- The significand has as many factors of two as there are fives to be taken out.
      have below : x.shift ≤ 1074 := by omega
      have digits : x.significand = n * 2 ^ (1074 - x.shift) := by
        rw [units_eq, oneUnits_eq_mul below, ← Nat.mul_assoc] at h
        exact Nat.eq_of_mul_eq_mul_right (Nat.two_pow_pos _) h
      have fives : ((x.shift : Int) - 1074).natAbs = 1074 - x.shift := by omega
      have tens : (x.shift : Int) - 1074 + (1074 - x.shift : Nat) = 0 := by omega
      rw [fives, Decimal96.divideFives_of_dvd ⟨n, by rw [digits, Nat.mul_comm]⟩, digits,
        Nat.mul_div_cancel _ (Nat.two_pow_pos _), tens]
      exact Decimal96.ofScaled?_zero negative n
  · next high =>
      -- The limit leaves room for every factor, so none is divided off.
      have digits := significand_mul_of_units h (by omega)
      have fives : ((x.shift : Int) - 1074).natAbs = x.shift - 1074 := by omega
      have tens : (x.shift : Int) - 1074 - (x.shift - 1074 : Nat) = 0 := by omega
      rw [fives, Decimal96.multiplyFives_of_lt (by rwa [digits]), digits, tens]
      exact Decimal96.ofScaled?_zero negative n

def Double.IsInt (x : Double) (n : Int) : Prop :=
  match x with
  | .finite negative m => (if negative then -(m.units : Int) else m.units) = n * oneUnits
  | _ => False

instance Double.decidableIsInt : (x : Double) → (n : Int) → Decidable (x.IsInt n)
  | .finite _ _, _ => inferInstanceAs (Decidable (_ = _))
  | .infinite _, _ | .nan, _ => inferInstanceAs (Decidable False)

/-- The numbers have exactly the same value: they are the same, or one is a double with the value
of the other. -/
def Number.Alike : Number → Number → Prop
  | .integer n, .real x | .real x, .integer n => x.IsInt n.toInt
  | m, n => m = n

theorem Number.Alike.refl (n : Number) : n.Alike n := by
  cases n <;> rfl

/-- The magnitude is a whole number that 64 bits hold. -/
def Magnitude.IsNat (x : Magnitude) (n : Nat) : Prop :=
  n < 2 ^ 63 ∧ x.units = n * oneUnits

section

variable {x y : Magnitude} {m n : Nat}

theorem Magnitude.units_eq_zero_iff : x.units = 0 ↔ x = .zero := by
  constructor
  · intro none
    exact units_injective none
  · rintro rfl
    rfl

theorem mul_oneUnits_eq_zero_iff : n * oneUnits = 0 ↔ n = 0 := by
  have pos := oneUnits_pos
  rw [Nat.mul_eq_zero]
  omega

theorem Magnitude.IsNat.eq_zero_iff (h : x.IsNat n) : x = .zero ↔ n = 0 := by
  rw [← units_eq_zero_iff, h.2, mul_oneUnits_eq_zero_iff]

theorem Double.isInt_positive_iff : (finite false y).IsInt n ↔ y.units = n * oneUnits := by
  change (y.units : Int) = n * oneUnits ↔ _
  rw [← Int.natCast_mul, Int.ofNat_inj]

theorem Double.isInt_negative_iff : (finite true y).IsInt n ↔ y = .zero ∧ n = 0 := by
  change -(y.units : Int) = n * oneUnits ↔ _
  rw [← Int.natCast_mul, ← Magnitude.units_eq_zero_iff (x := y),
    ← mul_oneUnits_eq_zero_iff (n := n)]
  omega

theorem Magnitude.IsNat.isInt (h : x.IsNat n) : (Double.finite false x).IsInt n :=
  Double.isInt_positive_iff.2 h.2

theorem Int64.ofNat_inj (hm : m < 2 ^ 63) (hn : n < 2 ^ 63) :
    Int64.ofNat m = Int64.ofNat n ↔ m = n := by
  rw [← Int64.toInt_inj, Int64.toInt_ofNat_of_lt hm, Int64.toInt_ofNat_of_lt hn, Int.ofNat_inj]

theorem Number.isTruthy_of_isNat (h : x.IsNat n) :
    (integer (.ofNat n)).isTruthy = (real (.finite false x)).isTruthy := by
  have zero : Int64.ofNat n = 0 ↔ x = .zero := by
    rw [h.eq_zero_iff]
    exact Int64.ofNat_inj (n := 0) h.1 (by decide)
  have same : (Int64.ofNat n == 0) = (x == .zero) := by
    rw [Bool.eq_iff_iff, beq_iff_eq, beq_iff_eq, zero]
  simp only [isTruthy, Double.isTruthy, bne, same]

theorem Double.same_finite_iff {s t : Bool} :
    (finite s x).same (finite t y) = true ↔
      (if s then -(x.units : Int) else x.units) = if t then -(y.units : Int) else y.units := by
  simp only [same, Bool.and_eq_true, Bool.or_eq_true, beq_iff_eq]
  rw [← Magnitude.units_injective.eq_iff, ← Magnitude.units_eq_zero_iff]
  -- With opposite signs both have to be zero.
  cases s <;> cases t <;> simp <;> omega

theorem Double.same_iff_isInt {x z : Double} {a : Int} (h : x.IsInt a) :
    x.same z = true ↔ z.IsInt a := by
  cases x with
  | infinite | nan => exact absurd h id
  | finite s x =>
      cases z with
      | finite t y =>
          rw [same_finite_iff, show (_ = _) from h]
          exact eq_comm
      | infinite | nan => simp [same, IsInt]

theorem Double.equalsInt_of_units (h : y.units = n * oneUnits) (small : n < Decimal96.limit)
    (negative : Bool) (i : Int) :
    (finite negative y).equalsInt i = ((if negative then -(n : Int) else n) == i) := by
  have decimal := y.toDecimal96?_of_units h small negative
  simp only [equalsInt, toDecimal96?, decimal, Decimal96.equalsInt_whole]

theorem Double.IsInt.equalsInt {z : Double} (h : z.IsInt n) (small : n < 2 ^ 63) :
    z.equalsInt n = true := by
  have bounded : n < Decimal96.limit := Nat.lt_trans small (by decide)
  cases z with
  | finite negative y =>
      cases negative with
      | false =>
          rw [equalsInt_of_units (isInt_positive_iff.1 h) bounded]
          simp
      | true =>
          obtain ⟨rfl, rfl⟩ := isInt_negative_iff.1 h
          have none : Magnitude.units .zero = 0 * oneUnits := (Nat.zero_mul _).symm
          rw [equalsInt_of_units none bounded]
          rfl
  | infinite negative => exact absurd h id
  | nan => exact absurd h id

/-- A comparison of the double with an integer says no more than the truth. -/
def Double.ComparesExactly (z : Double) (i : Int) : Prop :=
  z.equalsInt i = true → z.IsInt i

/-- A whole double is never taken for an integer that it is not. -/
theorem Magnitude.IsNat.comparesExactly (h : x.IsNat n) (m : Nat) :
    (Double.finite false x).ComparesExactly m := by
  intro equal
  have bounded : n < Decimal96.limit := Nat.lt_trans h.1 (by decide)
  rw [Double.equalsInt_of_units h.2 bounded] at equal
  have same : (n : Int) = m := by simpa using equal
  exact same ▸ h.isInt

theorem Double.same_comm (z z' : Double) : z.same z' = z'.same z := by
  cases z with
  | nan => cases z' <;> rfl
  | infinite s =>
      cases z' with
      | infinite t => exact BEq.comm
      | finite | nan => rfl
  | finite s x =>
      cases z' with
      | infinite | nan => rfl
      | finite t y =>
          rw [Bool.eq_iff_iff]
          simp only [same, Bool.and_eq_true, Bool.or_eq_true, beq_iff_eq]
          constructor
          · rintro ⟨rfl, other⟩
            exact ⟨rfl, other.imp_left Eq.symm⟩
          · rintro ⟨rfl, other⟩
            exact ⟨rfl, other.imp_left Eq.symm⟩

theorem Number.equals_comm (m n : Number) : m.equals n = n.equals m := by
  cases m with
  | integer i =>
      cases n with
      | integer j => exact BEq.comm
      | real y => rfl
  | real x =>
      cases n with
      | integer j => rfl
      | real y => exact x.same_comm y

theorem Number.equals_of_isNat (h : x.IsNat n) {v : Number}
    (exact : ∀ z : Double, v = .real z → z.ComparesExactly n) :
    (integer (.ofNat n)).equals v = (real (.finite false x)).equals v := by
  cases v with
  | integer i =>
      have bounded : n < Decimal96.limit := Nat.lt_trans h.1 (by decide)
      have same : Int64.ofNat n = i ↔ (n : Int) = i.toInt := by
        rw [← Int64.toInt_inj, Int64.toInt_ofNat_of_lt h.1]
      rw [equals, equals, Double.equalsInt_of_units h.2 bounded, Bool.eq_iff_iff, beq_iff_eq,
        beq_iff_eq]
      exact same
  | real z =>
      rw [equals, equals, Int64.toInt_ofNat_of_lt h.1, Bool.eq_iff_iff,
        Double.same_iff_isInt h.isInt]
      exact ⟨exact z rfl, fun value => value.equalsInt h.1⟩

end

end PredicateLang
