import PredicateLang.KeyMap.Basic

/-!
# What a map contains

The view of a map is the function `find?`. `find?_insert` says what an insertion does to it, and
`find?_ofList` what a list of bindings amounts to. By `ext`, a map is determined by this view,
so the order of insertions leaves no trace. Maps are `Related` if they have the same keys and
related values in this view.
-/

namespace PredicateLang

universe u v

variable {α : Type u} {β : Type v} {bound : Option String}

namespace Entries

@[simp] theorem find?_nil (key : String) :
    (nil : Entries α bound).find? key = none := rfl

theorem find?_cons (key k : String) (value : α) (above : ∀ low, bound = some low → low < k)
    (rest : Entries α (some k)) :
    (cons k value above rest).find? key = if key = k then some value else rest.find? key := rfl

theorem lt_of_find?_eq_some {low key : String} {value : α} :
    ∀ {m : Entries α (some low)}, m.find? key = some value → low < key
  | .nil, h => nomatch h
  | .cons k _ above rest, h => by
      rw [find?_cons] at h
      split at h
      · next same => exact same ▸ above low rfl
      · exact String.lt_trans (above low rfl) (lt_of_find?_eq_some h)

theorem find?_bound {low : String} (m : Entries α (some low)) : m.find? low = none := by
  cases h : m.find? low with
  | none => rfl
  | some value => exact absurd (lt_of_find?_eq_some h) (String.lt_irrefl low)

theorem find?_eq_none_of_lt {low key : String} (m : Entries α (some low)) (h : key < low) :
    m.find? key = none := by
  cases found : m.find? key with
  | none => rfl
  | some value =>
      exact absurd (String.lt_trans h (lt_of_find?_eq_some found)) (String.lt_irrefl key)

theorem find?_insert (key other : String) (value : α) :
    ∀ {bound : Option String} (above : ∀ low, bound = some low → low < key)
      (m : Entries α bound),
      (m.insert key value above).find? other = if other = key then some value else m.find? other
  | _, _, .nil => rfl
  | _, above, .cons k old aboveOld rest => by
      rw [insert]
      split
      · rw [find?_cons]
        rfl
      · next below =>
          split
          · next same =>
              subst same
              rw [find?_cons, find?_cons]
              split <;> rfl
          · next ne =>
              rw [find?_cons, find?_cons, find?_insert]
              by_cases h : other = k
              · have : ¬ other = key := fun h' => ne (h' ▸ h)
                simp [h, h ▸ this]
              · simp [h]

/-- An insertion makes a run longer by one, unless it replaces a value. -/
theorem size_insert (key : String) (value : α) :
    ∀ {bound : Option String} (above : ∀ low, bound = some low → low < key)
      (m : Entries α bound),
      (m.insert key value above).size = if (m.find? key).isSome then m.size else m.size + 1
  | _, _, .nil => rfl
  | _, _, .cons k old aboveOld rest => by
      rw [insert]
      split
      · next below =>
          rw [find?_cons, if_neg (Std.ne_of_lt below), find?_eq_none_of_lt rest below]
          rfl
      · split
        · next same =>
            rw [find?_cons, if_pos same]
            rfl
        · next ne =>
            rw [find?_cons, if_neg ne, size, size, size_insert]
            split <;> rfl

theorem key_eq_of_find? {low high : Option String} {k l : String} {v : α} {w : β}
    {above : ∀ b, low = some b → b < k} {above' : ∀ b, high = some b → b < l}
    {rest : Entries α (some k)} {rest' : Entries β (some l)}
    (h : ∀ key, ((cons k v above rest).find? key).isSome =
      ((cons l w above' rest').find? key).isSome) : k = l := by
  rcases Std.lt_trichotomy k l with below | same | below
  · have := h k
    rw [find?_cons, find?_cons, if_pos rfl, if_neg (Std.ne_of_lt below),
      find?_eq_none_of_lt rest' below] at this
    contradiction
  · exact same
  · have := h l
    rw [find?_cons, find?_cons, if_pos rfl, if_neg (Std.ne_of_lt below),
      find?_eq_none_of_lt rest below] at this
    contradiction

theorem ext : ∀ {bound : Option String} {m n : Entries α bound},
    (∀ key, m.find? key = n.find? key) → m = n
  | _, .nil, .nil, _ => rfl
  | _, .nil, .cons k value _ _, h => by simpa [find?_cons] using h k
  | _, .cons k value _ _, .nil, h => by simpa [find?_cons] using h k
  | _, .cons k v above rest, .cons l w aboveL restL, h => by
      have same : k = l := key_eq_of_find? fun key => congrArg Option.isSome (h key)
      subst same
      have value : v = w := by simpa [find?_cons] using h k
      subst value
      have restSame : rest = restL := ext fun key => by
        by_cases at_k : key = k
        · rw [at_k, find?_bound, find?_bound]
        · simpa [find?_cons, at_k] using h key
      rw [restSame]

/-- The runs bind the same keys, to related values. -/
structure Related (R : α → β → Prop) {low high : Option String} (m : Entries α low)
    (n : Entries β high) : Prop where
  keys : ∀ key, (m.find? key).isSome = (n.find? key).isSome
  values : ∀ key v w, m.find? key = some v → n.find? key = some w → R v w

theorem Related.nil {R : α → β → Prop} {low high : Option String} :
    (nil : Entries α low).Related R (nil : Entries β high) :=
  ⟨fun _ => rfl, by rintro _ _ _ ⟨⟩⟩

theorem related_cons_iff {R : α → β → Prop} {low high : Option String} {k l : String} {v : α}
    {w : β} {above : ∀ b, low = some b → b < k} {above' : ∀ b, high = some b → b < l}
    {rest : Entries α (some k)} {rest' : Entries β (some l)} :
    (cons k v above rest).Related R (cons l w above' rest') ↔
      k = l ∧ R v w ∧ rest.Related R rest' := by
  constructor
  · rintro ⟨keys, values⟩
    obtain rfl := key_eq_of_find? keys
    refine ⟨rfl, values k v w (by simp [find?_cons]) (by simp [find?_cons]), ?_, ?_⟩
    · intro key
      by_cases first : key = k
      · simp [first, find?_bound]
      · simpa [find?_cons, first] using keys key
    · intro key x y found found'
      have other : key ≠ k := (Std.ne_of_lt (lt_of_find?_eq_some found)).symm
      exact values key x y (by simpa [find?_cons, other] using found)
        (by simpa [find?_cons, other] using found')
  · rintro ⟨rfl, head, keys, values⟩
    refine ⟨fun key => ?_, fun key x y found found' => ?_⟩
    · rw [find?_cons, find?_cons]
      split
      · rfl
      · exact keys key
    · rw [find?_cons] at found found'
      split at found
      · next first =>
          rw [if_pos first] at found'
          cases found
          cases found'
          exact head
      · next other =>
          rw [if_neg other] at found'
          exact values key x y found found'

end Entries

namespace KeyMap

@[simp] theorem find?_empty (key : String) : (empty : KeyMap α).find? key = none := rfl

theorem find?_insert (m : KeyMap α) (key other : String) (value : α) :
    (m.insert key value).find? other = if other = key then some value else m.find? other :=
  Entries.find?_insert key other value _ m

@[simp] theorem find?_insert_self (m : KeyMap α) (key : String) (value : α) :
    (m.insert key value).find? key = some value := by
  simp [find?_insert]

theorem ext {m n : KeyMap α} (h : ∀ key, m.find? key = n.find? key) : m = n :=
  Entries.ext h

theorem insert_insert_self (m : KeyMap α) (key : String) (value value' : α) :
    (m.insert key value).insert key value' = m.insert key value' :=
  ext fun other => by simp only [find?_insert]; split <;> rfl

theorem insert_comm (m : KeyMap α) {key key' : String} (ne : key ≠ key') (value value' : α) :
    (m.insert key value).insert key' value' = (m.insert key' value').insert key value :=
  ext fun other => by
    simp only [find?_insert]
    split
    · next h => rw [if_neg (h ▸ ne.symm)]
    · rfl

theorem find?_ofList (bindings : List (String × α)) (key : String) :
    (ofList bindings).find? key = bindings.reverse.lookup key := by
  have step : ∀ (bindings : List (String × α)) (m : KeyMap α),
      (bindings.foldl (fun m binding => m.insert binding.1 binding.2) m).find? key =
        (bindings.reverse.lookup key).or (m.find? key) := by
    intro bindings
    induction bindings with
    | nil => intro m; rfl
    | cons binding bindings ih =>
        intro m
        rw [List.foldl_cons, ih, List.reverse_cons, List.lookup_append, find?_insert,
          Option.or_assoc, List.lookup_cons]
        by_cases h : key = binding.1
        · simp [h]
        · simp [h, beq_eq_false_iff_ne.2 h]
  rw [ofList, step, find?_empty, Option.or_none]

end KeyMap

end PredicateLang
