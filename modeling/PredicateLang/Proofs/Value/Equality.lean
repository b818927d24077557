import PredicateLang.Proofs.Number.Mixed
import PredicateLang.Proofs.Value.Shape

/-!
# What equal values have in common

Equality of values is symmetric, but it is transitive only up to the rounding of decimals:
`Value.equals_trans_iff` says that it stops at an integer which stands for two different doubles.
Equal values have the same type and equal members, and count alike in a condition unless an
integer zero stands for a double that is no zero (`Value.equals_alike`).
-/

namespace PredicateLang.Value

variable {u v w : Value}

theorem equals_symm (h : v.equals w = true) : w.equals v = true :=
  equals_iff.2 ((equals_iff.1 h).symm.mono fun m n equal => (m.equals_comm n).trans equal)

theorem equals_comm (v w : Value) : v.equals w = w.equals v :=
  Bool.eq_iff_iff.2 ⟨equals_symm, equals_symm⟩

/-- Equality of values carries on, unless somewhere in the middle value an integer has a different
double on either side. -/
theorem equals_trans_iff (h : u.equals v = true) (h' : v.equals w = true) :
    u.equals w = false ↔ AtPlace Number.Parted u v w := by
  rw [equals_iff] at h h'
  rw [← Bool.not_eq_true, equals_iff]
  constructor
  · intro differ
    by_contra clear
    refine differ (h.trans_of_not_atPlace (fun l m n equal equal' together => ?_) h' clear)
    by_contra apart
    exact together ((Number.differ_iff_parted equal equal').1 (Bool.not_eq_true _ ▸ apart))
  · intro place
    refine place.not_liftRel ?_
    rintro l m n ⟨x, i, y, rfl, rfl, rfl, differ, -⟩ same
    exact Bool.false_ne_true (differ.symm.trans same)

/-- The integer one equals the double one and the next double above, which differ. -/
theorem equals_trans_iff_one :
    (number (.real (.ofBits 0x3ff0000000000000))).equals (number (.integer 1)) = true ∧
      (number (.integer 1)).equals (number (.real (.ofBits 0x3ff0000000000001))) = true ∧
      AtPlace Number.Parted (number (.real (.ofBits 0x3ff0000000000000))) (number (.integer 1))
        (number (.real (.ofBits 0x3ff0000000000001))) :=
  have h : (number (.real (.ofBits 0x3ff0000000000000))).equals (number (.integer 1)) = true := by
    decide +kernel
  have h' : (number (.integer 1)).equals (number (.real (.ofBits 0x3ff0000000000001))) = true := by
    decide +kernel
  ⟨h, h', (equals_trans_iff h h').1 (by decide +kernel)⟩

/-- Equal values have the same type and equal members, and count alike in a condition unless one
is zero and the other passes for it. -/
theorem equals_alike (h : v.equals w = true) :
    v.kind = w.kind ∧ v.isNullish = w.isNullish ∧
      (∀ name : String, (v.field name).equals (w.field name) = true) ∧
      (v.isTruthy ≠ w.isTruthy ↔
        ∃ m n : Number, v = .number m ∧ w = .number n ∧ m.FalseZero n) := by
  have related := equals_iff.1 h
  refine ⟨related.kind_eq, related.isNullish_eq, fun name => equals_iff.2 ?_, ?_⟩
  · exact related.field (fun i => beq_self_eq_true i) name
  · constructor
    · intro differ
      cases related with
      | number equal => exact ⟨_, _, rfl, rfl, (Number.isTruthy_ne_iff equal).1 differ⟩
      | _ => exact absurd rfl differ
    · rintro ⟨m, n, rfl, rfl, passes⟩
      exact (Number.isTruthy_ne_iff h).2 passes

/-- The integer zero equals the double nearest to `1e-30`, which counts as true. -/
theorem equals_alike_zero :
    (number (.integer 0)).equals (number (.real (.ofBits 0x39b4484bfeebc2a0))) = true ∧
      ∃ m n : Number, number (.integer 0) = .number m ∧
        number (.real (.ofBits 0x39b4484bfeebc2a0)) = .number n ∧ m.FalseZero n :=
  have h : (number (.integer 0)).equals (number (.real (.ofBits 0x39b4484bfeebc2a0))) = true := by
    decide +kernel
  ⟨h, (equals_alike h).2.2.2.1 (by decide +kernel)⟩

end PredicateLang.Value
