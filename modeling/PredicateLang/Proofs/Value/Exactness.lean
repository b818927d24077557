import PredicateLang.Proofs.Number.Mixed
import PredicateLang.Value.Equality

/-!
# Integers and whole doubles

A whole double equals an integer if and only if it is that integer (`Double.equalsInt_iff`), also
where doubles are further apart than integers: the decimal of a whole double is exact, and one too
large for a decimal is too large for an integer. So a double without a decimal equals no integer,
although it is compared with the double nearest to the integer (`Value.equals_integer_real`).
-/

namespace PredicateLang

namespace Double

variable {x : Double}

theorem equalsInt_eq_false_of_none (none : x.toDecimal96? = none) (i : Int64) :
    x.equalsInt i.toInt = false := by
  refine Bool.eq_false_of_not_eq_true fun equal => ?_
  obtain ⟨d, decimal, -⟩ := exists_decimal_of_equalsInt equal
  rw [none] at decimal
  contradiction

/-- A double that is a whole number, or not finite, equals the integer whose value it has, and no
other. -/
theorem equalsInt_iff (whole : x.isFinite = false ∨ ∃ n : ℤ, x.value? = some (n : ℚ)) (i : Int64) :
    x.equalsInt i.toInt = true ↔ x.value? = some (i.toInt : ℚ) := by
  rcases whole with infinite | ⟨n, value⟩
  · have none : x.toDecimal96? = none ∧ x.value? = none := by
      cases x with
      | finite => contradiction
      | infinite | nan => exact ⟨rfl, rfl⟩
    simp [equalsInt_eq_false_of_none none.1, none.2]
  · rw [(value?_eq_some_intCast_iff.1 value).equalsInt_eq, beq_iff_eq, value, Option.some_inj,
      Int.cast_inj]

end Double

namespace Value

/-- An integer equals a double that is infinite, a NaN or a whole number if and only if the double
has exactly its value; no integer equals a double that has no decimal; and a double equals at most
one integer, whatever its value is. -/
theorem equals_integer_real (x : Double) :
    ((x.isFinite = false ∨ ∃ n : ℤ, x.value? = some (n : ℚ)) → ∀ i : Int64,
      (number (.integer i)).equals (number (.real x)) = true ↔ x.value? = some (i.toInt : ℚ)) ∧
    (x.toDecimal96? = none → ∀ i : Int64,
      (number (.integer i)).equals (number (.real x)) = false) ∧
    ∀ i j : Int64, (number (.integer i)).equals (number (.real x)) = true →
      (number (.integer j)).equals (number (.real x)) = true → i = j := by
  refine ⟨?_, ?_, ?_⟩
  · intro whole i
    exact Double.equalsInt_iff whole i
  · intro none i
    exact Double.equalsInt_eq_false_of_none none i
  · intro i j first second
    exact Double.equalsInt_unique first second

/-- The largest integer does not equal `2 ^ 63`, the double that is nearest to it, nor `2 ^ 96`,
which has no decimal. The double `2 ^ 53` equals one integer only, though the one after it rounds to
the same double. -/
theorem equals_integer_real_maxValue :
    (number (.integer Int64.maxValue)).equals
        (number (.real (.ofInt Int64.maxValue.toInt))) = false ∧
      (number (.integer Int64.maxValue)).equals (number (.real (.ofInt (2 ^ 96)))) = false ∧
      ∀ i : Int64, (number (.integer i)).equals (number (.real (.ofInt (2 ^ 53)))) = true →
        i = 2 ^ 53 := by
  have value : Double.value? (.ofInt Int64.maxValue.toInt) = some ((2 ^ 63 : ℤ) : ℚ) :=
    Double.value?_eq_some_intCast_iff.2 (by decide +kernel)
  refine ⟨Bool.eq_false_of_not_eq_true fun equal => ?_, ?_, fun i equal => ?_⟩
  · have exact := ((equals_integer_real _).1 (.inr ⟨_, value⟩) _).1 equal
    rw [value, Option.some_inj, Int.cast_inj] at exact
    exact absurd exact (by decide)
  · exact (equals_integer_real _).2.1 (by decide +kernel) _
  · exact (equals_integer_real _).2.2 i _ equal (by decide +kernel)

end Value

end PredicateLang
