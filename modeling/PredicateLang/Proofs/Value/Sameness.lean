import PredicateLang.Proofs.Value.Arrangement
import PredicateLang.Proofs.Value.Equality

/-!
# Equality beside sameness

A relation between numbers holds between a value and itself if it holds for each number in the value
(`Value.liftRel_self_iff`). So only a NaN, at whatever depth, keeps a value from being equal to
itself. Sameness is equality with one more demand, that numbers be held alike, and the demand
comes to nothing where every number is an integer.

Equality does not depend on which value is asked, nor on the order in which the members of an object
are walked (`Value.equals_laws`).
-/

namespace PredicateLang

namespace Double

theorem same_self_iff {x : Double} : x.same x = true ↔ x ≠ .nan := by
  cases x <;> simp [same]

end Double

namespace Number

variable {m n : Number}

theorem equals_self_iff : n.equals n = true ↔ n ≠ .real .nan := by
  cases n with
  | integer i => simp [equals]
  | real x => simp [equals, Double.same_self_iff]

theorem equals_of_same (h : m.same n = true) : m.equals n = true := by
  cases m with
  | integer i =>
      cases n with
      | integer j => exact h
      | real y => contradiction
  | real x =>
      cases n with
      | integer j => contradiction
      | real y => exact h

end Number

namespace Value

variable {R : Number → Number → Prop} {v w : Value}

/-- No number in the value, at any depth, is held as a double. -/
def DoubleFree (v : Value) : Prop :=
  ∀ x : Double, ¬ PartOf (.number (.real x)) v

theorem DoubleFree.exists_eq (h : v.DoubleFree) {n : Number} (part : PartOf (.number n) v) :
    ∃ i : Int64, n = .integer i := by
  cases n with
  | integer i => exact ⟨i, rfl⟩
  | real x => exact absurd part (h x)

theorem LiftRel.of_partOf_self {n : Number} (part : PartOf (.number n) v) (h : v.LiftRel R v) :
    R n n := by
  induction part with
  | self =>
      cases h with
      | number related => exact related
  | item found _ ih =>
      cases h with
      | array _ items =>
          obtain ⟨i, inside, rfl⟩ := List.getElem_of_mem found
          exact ih (items i inside inside)
  | member found _ ih =>
      cases h with
      | object _ members => exact ih (members _ _ _ found found)

theorem liftRel_self_iff :
    v.LiftRel R v ↔ ∀ n : Number, PartOf (.number n) v → R n n := by
  constructor
  · intro h n part
    exact h.of_partOf_self part
  · intro each
    refine (LiftRel.refl (R := Eq) (fun n => rfl) v).imp fun m n part _ same => ?_
    exact same ▸ each m part

theorem equals_self_iff : v.equals v = true ↔ ¬ PartOf (.number (.real .nan)) v := by
  rw [equals_iff, liftRel_self_iff]
  constructor
  · intro each part
    exact Number.equals_self_iff.1 (each _ part) rfl
  · intro none n part
    refine Number.equals_self_iff.2 ?_
    rintro rfl
    exact none part

theorem equals_of_same (h : v.same w = true) : v.equals w = true :=
  equals_iff.2 ((same_iff.1 h).mono fun _ _ => Number.equals_of_same)

/-- Integers have one representation, so those that are equal are the same. -/
theorem DoubleFree.same_of_equals (hv : v.DoubleFree) (hw : w.DoubleFree) (h : v.equals w = true) :
    v.same w = true := by
  refine same_iff.2 ((equals_iff.1 h).imp fun m n part part' equal => ?_)
  obtain ⟨i, rfl⟩ := hv.exists_eq part
  obtain ⟨j, rfl⟩ := hw.exists_eq part'
  exact equal

/-- Equality is symmetric: comparing the members of objects from either side, in any order, gives
the same. A value equals itself unless there is a NaN in it. Values that are the same are equal, and
equal values without doubles are the same. -/
theorem equals_laws (v w : Value) :
    v.equals w = w.equals v ∧
    (∀ a b : Arrangement, a.Arranges v → b.Arranges w →
      a.equals b = v.equals w ∧ b.equals a = v.equals w) ∧
    (v.equals v = true ↔ ¬ PartOf (.number (.real .nan)) v) ∧
    (v.same w = true → v.equals w = true) ∧
    (v.DoubleFree → w.DoubleFree → v.same w = v.equals w) := by
  refine ⟨equals_comm v w, ?_, equals_self_iff, equals_of_same, ?_⟩
  · rintro a b ⟨distinct, rfl⟩ ⟨distinct', rfl⟩
    rw [Arrangement.equals_eq distinct distinct', Arrangement.equals_eq distinct' distinct]
    exact ⟨rfl, equals_comm _ _⟩
  · intro free free'
    rw [Bool.eq_iff_iff]
    exact ⟨equals_of_same, free.same_of_equals free'⟩

/-- The members of `{a: 1, b: true}` may be walked in any order, and none is a double. An array with
a NaN in it is not equal to itself. -/
theorem equals_laws_members :
    (Arrangement.object [("b", .boolean true), ("a", .number (.integer 1))]).equals
        (.object [("a", .number (.integer 1)), ("b", .boolean true)]) = true ∧
      (object (KeyMap.ofList [("a", .number (.integer 1)), ("b", .boolean true)])).same
        (object (KeyMap.ofList [("a", .number (.integer 1)), ("b", .boolean true)])) = true ∧
      (array [.number (.real .nan)]).equals (array [.number (.real .nan)]) = false := by
  obtain ⟨-, orders, self, -, alike⟩ :=
    equals_laws (object (KeyMap.ofList [("a", .number (.integer 1)), ("b", .boolean true)]))
      (object (KeyMap.ofList [("a", .number (.integer 1)), ("b", .boolean true)]))
  have free : DoubleFree
      (object (KeyMap.ofList [("a", .number (.integer 1)), ("b", .boolean true)])) := by
    intro x part
    cases part with
    | member found part =>
        rw [KeyMap.find?_ofList] at found
        rcases List.mem_pair.1 (List.mem_reverse.1 (mem_of_lookup found)) with is | is
        all_goals cases is; cases part
  have equal := self.2 (free _)
  refine ⟨?_, (alike free free).trans equal, ?_⟩
  · rw [← equal]
    exact (orders _ _
      ⟨.object (by decide) (by simp [Arrangement.Distinct.number, Arrangement.Distinct.boolean]),
        rfl⟩
      ⟨.object (by decide) (by simp [Arrangement.Distinct.number, Arrangement.Distinct.boolean]),
        rfl⟩).1
  · refine Bool.eq_false_of_not_eq_true fun equal => ?_
    exact (equals_laws (array [.number (.real .nan)]) .null).2.2.1.1 equal
      (.item (List.mem_singleton_self _) .self)

end Value

end PredicateLang
