import PredicateLang.Proofs.Number.Rounding
import PredicateLang.Proofs.Value.Shape
import PredicateLang.Value.Document

/-!
# Values that JSON has

JSON has neither `undefined` nor NaN nor infinities, at any depth (`Value.InJson`). The value of a
document is free of them, with all of its parts (`Value.inJson_ofDocument`). Writing such a value as
a document loses nothing: the document stands for that very value (`Value.ofDocument_toDocument`),
with its integers and doubles told apart and with the sign of zero.
-/

namespace PredicateLang

theorem Number.isFinite_of_ofJson {n : Json.Number} {x : Double} (h : ofJson n = .real x) :
    x.isFinite = true := by
  cases n with
  | real negative magnitude =>
      cases h
      rfl
  | whole n low high =>
      rw [ofJson] at h
      split at h
      · contradiction
      · next large =>
          cases h
          have high : n < 2 ^ 64 := high
          have large : ¬ n < 2 ^ 63 := large
          exact Double.isFinite_ofInt (by omega)

namespace Value

variable {bound : Option String} {p v w : Value}

theorem find?_ofMembers (members : Entries Json.Document bound) (name : String) :
    (ofMembers members).find? name = (members.find? name).map ofDocument := by
  induction members with
  | nil => rw [ofMembers]; rfl
  | cons key d above members ih =>
      rw [ofMembers, Entries.find?_cons, Entries.find?_cons, ih]
      split <;> rfl

theorem find?_documentMembers (members : Entries Value bound) (name : String) :
    (documentMembers members).find? name = (members.find? name).map toDocument := by
  induction members with
  | nil => rw [documentMembers]; rfl
  | cons key v above members ih =>
      rw [documentMembers, Entries.find?_cons, Entries.find?_cons, ih]
      split <;> rfl

theorem ofItems_eq_map (items : List Json.Document) : ofItems items = items.map ofDocument := by
  induction items with
  | nil => rw [ofItems]; rfl
  | cons item items ih => rw [ofItems, ih, List.map_cons]

theorem documentItems_eq_map (items : List Value) : documentItems items = items.map toDocument := by
  induction items with
  | nil => rw [documentItems]; rfl
  | cons item items ih => rw [documentItems, ih, List.map_cons]

/-- JSON has every part of the value: none is undefined, not a number, or infinite. -/
structure InJson (v : Value) : Prop where
  defined : ¬ PartOf .undefined v
  finite : ∀ x : Double, PartOf (.number (.real x)) v → x.isFinite = true

theorem PartOf.trans {u : Value} (h : PartOf p v) (h' : PartOf v u) : PartOf p u := by
  induction h' with
  | self => exact h
  | item found _ ih => exact .item found ih
  | member found _ ih => exact .member found ih

theorem InJson.of_part (h : v.InJson) (part : PartOf p v) : p.InJson :=
  ⟨fun inside => h.defined (inside.trans part), fun x inside => h.finite x (inside.trans part)⟩

/-- The parts of the value of a document are values of documents. -/
theorem exists_eq_of_partOf_ofDocument {d : Json.Document} (h : PartOf p (ofDocument d)) :
    ∃ d : Json.Document, p = ofDocument d := by
  generalize same : ofDocument d = v at h
  induction h generalizing d with
  | self => exact ⟨d, same.symm⟩
  | item found _ ih =>
      cases d with
      | array items =>
          cases same
          rw [ofItems_eq_map] at found
          obtain ⟨item, -, value⟩ := List.mem_map.1 found
          exact ih value
      | _ => cases same
  | member found _ ih =>
      cases d with
      | object members =>
          cases same
          rw [find?_ofMembers] at found
          obtain ⟨d, -, value⟩ := Option.map_eq_some_iff.1 found
          exact ih value
      | _ => cases same

theorem inJson_ofDocument (d : Json.Document) : (ofDocument d).InJson := by
  constructor
  · intro part
    obtain ⟨d, same⟩ := exists_eq_of_partOf_ofDocument part
    cases d <;> cases same
  · intro x part
    obtain ⟨d, same⟩ := exists_eq_of_partOf_ofDocument part
    cases d with
    | number n => exact Number.isFinite_of_ofJson (Value.number.inj same).symm
    | _ => cases same

theorem ofDocument_toDocument_number {n : Number}
    (finite : ∀ x : Double, n = .real x → x.isFinite = true) :
    ofDocument n.toDocument = .number n := by
  cases n with
  | integer n =>
      have small : n.toInt < Int.pow 2 63 := n.toInt_lt
      rw [Number.toDocument, ofDocument, Number.ofJson, if_pos small, Int64.ofInt_toInt]
  | real x =>
      cases x with
      | finite negative magnitude => rfl
      | infinite | nan => cases finite _ rfl

/-- Nothing is lost when a value that JSON has is written as a document. -/
theorem ofDocument_toDocument (h : v.InJson) : ofDocument v.toDocument = v := by
  induction v using Value.induction with
  | undefined => exact absurd .self h.defined
  | null | boolean | string => rfl
  | number n =>
      refine ofDocument_toDocument_number fun x same => h.finite x ?_
      rw [same]
      exact .self
  | array items ih =>
      have same : (items.map toDocument).map ofDocument = items := by
        rw [List.map_map]
        calc items.map (ofDocument ∘ toDocument) = items.map id :=
              List.map_congr_left fun v found => ih v found (h.of_part (.item found .self))
          _ = items := List.map_id items
      rw [toDocument, ofDocument, documentItems_eq_map, ofItems_eq_map, same]
  | object members ih =>
      have same : ofMembers (documentMembers members) = members := by
        refine Entries.ext fun name => ?_
        rw [find?_ofMembers, find?_documentMembers, Option.map_map]
        cases found : members.find? name with
        | none => rfl
        | some v => exact congrArg some (ih name v found (h.of_part (.member found .self)))
      rw [toDocument, ofDocument, same]

end Value

end PredicateLang
