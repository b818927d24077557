import Mathlib.Data.Finset.Card
import PredicateLang.KeyMap.Lemmas

/-!
# Maps as lists of writes

A list of bindings makes a map in which the last write of a key counts. The map has as many entries
as there are distinct keys in the list (`KeyMap.size_ofList`). In a list that has each key once the
order does not matter: to look a key up in the map is to look for it in the list.
-/

namespace PredicateLang

universe u v

variable {α : Type u} {β : Type v} {bindings bindings' : List (String × α)}

theorem lookup_isSome_iff_mem {key : String} :
    (bindings.lookup key).isSome = true ↔ key ∈ bindings.map Prod.fst := by
  rw [List.lookup_isSome_iff, List.mem_map]
  exact exists_congr fun binding => and_congr_right fun _ => by rw [beq_iff_eq, eq_comm]

theorem lookup_map (f : α → β) (bindings : List (String × α)) (key : String) :
    (bindings.map (Prod.map id f)).lookup key = (bindings.lookup key).map f := by
  induction bindings with
  | nil => rfl
  | cons binding bindings ih =>
      rw [List.map_cons, List.lookup_cons, List.lookup_cons, ih, Prod.map_fst, id]
      cases key == binding.1 <;> rfl

theorem mem_of_lookup {key : String} {value : α} (found : bindings.lookup key = some value) :
    (key, value) ∈ bindings := by
  obtain ⟨before, after, split, -⟩ := List.lookup_eq_some_iff.1 found
  exact split ▸ List.mem_append_right _ List.mem_cons_self

theorem lookup_eq_some_iff_mem (once : (bindings.map Prod.fst).Nodup) {key : String} {value : α} :
    bindings.lookup key = some value ↔ (key, value) ∈ bindings := by
  induction bindings with
  | nil => simp
  | cons binding bindings ih =>
      obtain ⟨k, v⟩ := binding
      obtain ⟨first, others⟩ := List.nodup_cons.1 once
      rw [List.lookup_cons]
      by_cases same : key = k
      · subst same
        have other : (key, value) ∉ bindings := fun found =>
          first (List.mem_map.2 ⟨_, found, rfl⟩)
        simp [other, eq_comm]
      · simp [beq_false_of_ne same, ih others, same]

theorem lookup_eq_of_perm (perm : bindings.Perm bindings')
    (once : (bindings.map Prod.fst).Nodup) (key : String) :
    bindings.lookup key = bindings'.lookup key := by
  have once' := (perm.map Prod.fst).nodup_iff.1 once
  refine Option.ext fun value => ?_
  rw [lookup_eq_some_iff_mem once, lookup_eq_some_iff_mem once', perm.mem_iff]

theorem lookup_reverse (once : (bindings.map Prod.fst).Nodup) (key : String) :
    bindings.reverse.lookup key = bindings.lookup key :=
  (lookup_eq_of_perm bindings.reverse_perm.symm once key).symm

namespace KeyMap

theorem size_ofList (bindings : List (String × α)) :
    (ofList bindings).size = (bindings.map Prod.fst).toFinset.card := by
  induction bindings using List.reverseRecOn with
  | nil => rfl
  | append_singleton bindings binding ih =>
      have bound : ((ofList bindings).find? binding.1).isSome = true ↔
          binding.1 ∈ (bindings.map Prod.fst).toFinset := by
        rw [find?_ofList, lookup_isSome_iff_mem, List.map_reverse, List.mem_reverse,
          List.mem_toFinset]
      rw [ofList, List.foldl_concat]
      change (Entries.insert ..).size = _
      rw [Entries.size_insert]
      change (if ((ofList bindings).find? binding.1).isSome then (ofList bindings).size
        else (ofList bindings).size + 1) = _
      rw [ih, List.map_append, List.toFinset_append, List.map_singleton, List.toFinset_cons,
        List.toFinset_nil, Finset.union_insert, Finset.union_empty, Finset.card_insert_eq_ite]
      simp only [bound]

theorem find?_ofList_of_nodup (once : (bindings.map Prod.fst).Nodup) (key : String) :
    (ofList bindings).find? key = bindings.lookup key := by
  rw [find?_ofList, lookup_reverse once]

end KeyMap

end PredicateLang
