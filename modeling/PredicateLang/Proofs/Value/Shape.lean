import Mathlib.Data.List.Forall2
import Mathlib.Logic.Relation
import PredicateLang.KeyMap.Lemmas
import PredicateLang.Value.Equality

/-!
# Values of the same shape

`Value.LiftRel R` relates values of the same shape whose numbers are related by `R`, place by place.
Both comparisons of values come down to one of numbers (`Value.compareBy`), and such a comparison is
such a relation (`Value.compareBy_iff`). So whatever is kept by the comparison of numbers is kept by
the comparison of values (`Value.LiftRel.equals_eq`).

Of two such relations in a row, the first carries on by the second unless somewhere the three
numbers in one place stand in the way (`Value.LiftRel.trans_of_not_atPlace`).

What a value is made of, at any depth, are its parts (`Value.PartOf`).
-/

namespace PredicateLang.Value

/-- Induction on values, through the items of an array and the members of an object. -/
@[elab_as_elim]
theorem induction {motive : Value → Prop} (undefined : motive .undefined) (null : motive .null)
    (boolean : ∀ b : Bool, motive (.boolean b)) (number : ∀ n : Number, motive (.number n))
    (string : ∀ s : String, motive (.string s))
    (array : ∀ items : List Value, (∀ v ∈ items, motive v) → motive (.array items))
    (object : ∀ members : KeyMap Value,
      (∀ (name : String) (v : Value), members.find? name = some v → motive v) →
        motive (.object members))
    (v : Value) : motive v := by
  refine @Value.rec motive (fun items => ∀ v ∈ items, motive v)
    (fun _ members => ∀ (name : String) (v : Value), members.find? name = some v → motive v)
    undefined null boolean number string array object ?_ ?_ ?_ ?_ v
  · rintro v ⟨⟩
  · intro item items first rest v found
    rcases List.mem_cons.1 found with rfl | found
    · exact first
    · exact rest v found
  · rintro _ name v ⟨⟩
  · intro _ key value above members first rest name v found
    rw [Entries.find?_cons] at found
    split at found
    · cases found
      exact first
    · exact rest name v found

/-- The value `p` is the value itself, or a part of one of its items or members. -/
inductive PartOf (p : Value) : Value → Prop
  | self : PartOf p p
  | item {items : List Value} {v : Value} : v ∈ items → PartOf p v → PartOf p (.array items)
  | member {members : KeyMap Value} {name : String} {v : Value} :
      members.find? name = some v → PartOf p v → PartOf p (.object members)

/-- The values have the same shape, and the numbers in the same places are related. -/
inductive LiftRel (R : Number → Number → Prop) : Value → Value → Prop
  | undefined : LiftRel R .undefined .undefined
  | null : LiftRel R .null .null
  | boolean (b : Bool) : LiftRel R (.boolean b) (.boolean b)
  | number {m n : Number} : R m n → LiftRel R (.number m) (.number n)
  | string (s : String) : LiftRel R (.string s) (.string s)
  | array {as bs : List Value} (length : as.length = bs.length)
      (items : ∀ (i : Nat) (h : i < as.length) (h' : i < bs.length), LiftRel R as[i] bs[i]) :
      LiftRel R (.array as) (.array bs)
  | object {ms ns : KeyMap Value}
      (names : ∀ name : String, (ms.find? name).isSome = (ns.find? name).isSome)
      (members : ∀ (name : String) (v w : Value),
        ms.find? name = some v → ns.find? name = some w → LiftRel R v w) :
      LiftRel R (.object ms) (.object ns)

/-- Three values have the numbers of a triple in `P` at the same place. -/
inductive AtPlace (P : Number → Number → Number → Prop) : Value → Value → Value → Prop
  | number {l m n : Number} : P l m n → AtPlace P (.number l) (.number m) (.number n)
  | item {as bs cs : List Value} (i : Nat) (h : i < as.length) (h' : i < bs.length)
      (h'' : i < cs.length) : AtPlace P as[i] bs[i] cs[i] →
      AtPlace P (.array as) (.array bs) (.array cs)
  | member {ls ms ns : KeyMap Value} {u v w : Value} (name : String) :
      ls.find? name = some u → ms.find? name = some v → ns.find? name = some w →
      AtPlace P u v w → AtPlace P (.object ls) (.object ms) (.object ns)

section

variable (eq : Number → Number → Bool)

mutual

/-- Comparison of values that leaves it to `eq` to compare numbers. -/
def compareBy : Value → Value → Bool
  | .undefined, .undefined => true
  | .null, .null => true
  | .boolean a, .boolean b => a == b
  | .number a, .number b => eq a b
  | .string a, .string b => a == b
  | .array as, .array bs => compareItems as bs
  | .object ms, .object ns => compareMembers ms ns
  | _, _ => false

def compareItems : List Value → List Value → Bool
  | [], [] => true
  | a :: as, b :: bs => a.compareBy b && compareItems as bs
  | _, _ => false

def compareMembers : {low high : Option String} → Entries Value low → Entries Value high → Bool
  | _, _, .nil, .nil => true
  | _, _, .cons k a _ ms, .cons l b _ ns => k == l && (a.compareBy b && compareMembers ms ns)
  | _, _, _, _ => false

end

end

theorem equals_eq_compareBy : equals = compareBy Number.equals := by
  delta equals compareBy
  rfl

theorem equalMembers_eq_compareMembers {low high : Option String} :
    @equalMembers low high = compareMembers Number.equals := by
  delta equalMembers compareMembers
  rfl

theorem same_eq_compareBy : same = compareBy Number.same := by
  delta same compareBy
  rfl

section

variable {P : Number → Number → Number → Prop} {R S T : Number → Number → Prop}
  {eq : Number → Number → Bool} {u v w v' w' : Value}

theorem AtPlace.exists_numbers (h : AtPlace P u v w) : ∃ l m n : Number, P l m n := by
  induction h with
  | number triple => exact ⟨_, _, _, triple⟩
  | item _ _ _ _ _ ih => exact ih
  | member _ _ _ _ _ ih => exact ih

namespace LiftRel

theorem refl (same : ∀ n : Number, R n n) (v : Value) : v.LiftRel R v := by
  induction v using Value.induction with
  | undefined => exact .undefined
  | null => exact .null
  | boolean b => exact .boolean b
  | number n => exact .number (same n)
  | string s => exact .string s
  | array items ih => exact .array rfl fun i inside _ => ih _ (List.getElem_mem inside)
  | object members ih =>
      refine .object (fun _ => rfl) fun name v w found found' => ?_
      obtain rfl := Option.some.inj (found.symm.trans found')
      exact ih name v found

theorem imp (h : v.LiftRel R w)
    (follows : ∀ m n : Number, PartOf (.number m) v → PartOf (.number n) w → R m n → S m n) :
    v.LiftRel S w := by
  induction h with
  | undefined => exact .undefined
  | null => exact .null
  | boolean b => exact .boolean b
  | number related => exact .number (follows _ _ .self .self related)
  | string s => exact .string s
  | array length _ ih =>
      refine .array length fun i inside inside' => ih i inside inside' fun m n part part' => ?_
      exact follows m n (.item (List.getElem_mem inside) part)
        (.item (List.getElem_mem inside') part')
  | object names _ ih =>
      refine .object names fun name v w found found' =>
        ih name v w found found' fun m n part part' => ?_
      exact follows m n (.member found part) (.member found' part')

theorem mono (weaker : ∀ m n : Number, R m n → S m n) (h : v.LiftRel R w) : v.LiftRel S w :=
  h.imp fun m n _ _ => weaker m n

theorem symm (h : v.LiftRel R w) : w.LiftRel (fun m n => R n m) v := by
  induction h with
  | undefined => exact .undefined
  | null => exact .null
  | boolean b => exact .boolean b
  | number related => exact .number related
  | string s => exact .string s
  | array length _ ih => exact .array length.symm fun i inside inside' => ih i inside' inside
  | object names _ ih =>
      exact .object (fun name => (names name).symm) fun name v w found found' =>
        ih name w v found' found

/-- Relations carry on from place to place, where no triple stands in the way. -/
theorem trans_of_not_atPlace
    (carries : ∀ l m n : Number, R l m → S m n → ¬ P l m n → T l n)
    (h : u.LiftRel R v) (h' : v.LiftRel S w) (clear : ¬ AtPlace P u v w) : u.LiftRel T w := by
  induction h generalizing w with
  | undefined | null | boolean | string =>
      cases h'
      constructor
  | number related =>
      cases h' with
      | number related' =>
          exact .number (carries _ _ _ related related' fun inside => clear (.number inside))
  | array length _ ih =>
      cases h' with
      | array length' items =>
          refine .array (length.trans length') fun i inside inside' => ?_
          have between := length ▸ inside
          exact ih i inside between (items i between inside') fun place =>
            clear (.item i inside between inside' place)
  | object names _ ih =>
      cases h' with
      | object names' members =>
          refine .object (fun name => (names name).trans (names' name)) ?_
          intro name u w found found'
          obtain ⟨v, between⟩ := Option.isSome_iff_exists.1
            ((names name).symm.trans (Option.isSome_iff_exists.2 ⟨u, found⟩))
          exact ih name u v found between (members name v w between found') fun place =>
            clear (.member name found between found' place)

theorem comp (h : u.LiftRel R v) (h' : v.LiftRel S w) : u.LiftRel (Relation.Comp R S) w := by
  refine trans_of_not_atPlace (P := fun _ _ _ => False) ?_ h h' fun place => ?_
  · exact fun l m n related related' _ => ⟨m, related, related'⟩
  · obtain ⟨l, m, n, impossible⟩ := place.exists_numbers
    exact impossible

end LiftRel

theorem AtPlace.not_liftRel (h : AtPlace P u v w) (apart : ∀ l m n : Number, P l m n → ¬ T l n) :
    ¬ u.LiftRel T w := by
  intro related
  induction h with
  | number triple =>
      cases related with
      | number same => exact apart _ _ _ triple same
  | item i inside _ inside' _ ih =>
      cases related with
      | array _ items => exact ih (items i inside inside')
  | member name found _ found' _ ih =>
      cases related with
      | object _ members => exact ih (members name _ _ found found')

theorem compareItems_iff {as bs : List Value} :
    compareItems eq as bs = true ↔ List.Forall₂ (fun a b => a.compareBy eq b = true) as bs := by
  induction as generalizing bs with
  | nil => cases bs <;> simp [compareItems]
  | cons a as ih => cases bs <;> simp [compareItems, ih]

theorem compareMembers_iff {low high : Option String} {ms : Entries Value low}
    {ns : Entries Value high} :
    compareMembers eq ms ns = true ↔ ms.Related (fun v w => v.compareBy eq w = true) ns := by
  induction ms generalizing high with
  | nil =>
      cases ns with
      | nil => exact ⟨fun _ => .nil, fun _ => rfl⟩
      | cons k =>
          refine ⟨by rintro ⟨⟩, fun h => ?_⟩
          simpa [Entries.find?_cons] using h.keys k
  | cons k a above ms ih =>
      cases ns with
      | nil =>
          refine ⟨by rintro ⟨⟩, fun h => ?_⟩
          simpa [Entries.find?_cons] using h.keys k
      | cons l b above' ns =>
          rw [compareMembers, Entries.related_cons_iff, Bool.and_eq_true, Bool.and_eq_true,
            beq_iff_eq, ih]

/-- Values compare well if they have the same shape and their numbers compare well. -/
theorem compareBy_iff : v.compareBy eq w = true ↔ v.LiftRel (fun m n => eq m n = true) w := by
  constructor
  · intro h
    induction v using Value.induction generalizing w with
    | undefined | null => cases w <;> first | contradiction | constructor
    | boolean b =>
        cases w with
        | boolean c =>
            obtain rfl := beq_iff_eq.1 h
            exact .boolean _
        | _ => contradiction
    | string s =>
        cases w with
        | string t =>
            obtain rfl := beq_iff_eq.1 h
            exact .string _
        | _ => contradiction
    | number m =>
        cases w with
        | number n => exact .number h
        | _ => contradiction
    | array as ih =>
        cases w with
        | array bs =>
            obtain ⟨length, items⟩ := List.forall₂_iff_get.1 (compareItems_iff.1 h)
            exact .array length fun i inside inside' =>
              ih _ (List.getElem_mem inside) (items i inside inside')
        | _ => contradiction
    | object ms ih =>
        cases w with
        | object ns =>
            obtain ⟨names, members⟩ := compareMembers_iff.1 h
            exact .object names fun name v w found found' =>
              ih name v found (members name v w found found')
        | _ => contradiction
  · intro h
    induction h with
    | undefined | null => rfl
    | boolean | string => exact beq_self_eq_true _
    | number equal => exact equal
    | array length _ ih => exact compareItems_iff.2 (List.forall₂_iff_get.2 ⟨length, ih⟩)
    | object names _ ih => exact compareMembers_iff.2 ⟨names, ih⟩

theorem equals_iff : v.equals w = true ↔ v.LiftRel (fun m n => m.equals n = true) w := by
  rw [equals_eq_compareBy, compareBy_iff]

theorem same_iff : v.same w = true ↔ v.LiftRel (fun m n => m.same n = true) w := by
  rw [same_eq_compareBy, compareBy_iff]

theorem equalMembers_iff {low high : Option String} {ms : Entries Value low}
    {ns : Entries Value high} :
    equalMembers ms ns = true ↔ ms.Related (fun v w => v.equals w = true) ns := by
  rw [equalMembers_eq_compareMembers, equals_eq_compareBy, compareMembers_iff]

theorem LiftRel.equals_eq
    (alike : ∀ m m' n n' : Number, R m m' → R n n' → m.equals n = m'.equals n')
    (h : v.LiftRel R v') (h' : w.LiftRel R w') : v.equals w = v'.equals w' := by
  rw [Bool.eq_iff_iff, equals_iff, equals_iff]
  constructor
  · intro equal
    refine (h.symm.comp (equal.comp h')).mono ?_
    rintro m' n' ⟨m, left, n, equal, right⟩
    rwa [← alike m m' n n' left right]
  · intro equal
    refine (h.comp (equal.comp h'.symm)).mono ?_
    rintro m n ⟨m', left, n', equal, right⟩
    rwa [alike m m' n n' left right]

namespace LiftRel

theorem isNullish_eq (h : v.LiftRel R w) : v.isNullish = w.isNullish := by
  cases h <;> rfl

theorem kind_eq (h : v.LiftRel R w) : v.kind = w.kind := by
  cases h <;> rfl

theorem isTruthy_eq (alike : ∀ m n : Number, R m n → m.isTruthy = n.isTruthy)
    (h : v.LiftRel R w) : v.isTruthy = w.isTruthy := by
  cases h with
  | number related => exact alike _ _ related
  | _ => rfl

theorem getD {ms ns : KeyMap Value} (h : ms.Related (LiftRel R) ns) (name : String) :
    ((ms.find? name).getD .undefined).LiftRel R ((ns.find? name).getD .undefined) := by
  obtain ⟨names, members⟩ := h
  have same := names name
  cases found : ms.find? name with
  | none =>
      cases found' : ns.find? name with
      | none => exact .undefined
      | some w => simp [found, found'] at same
  | some v =>
      cases found' : ns.find? name with
      | none => simp [found, found'] at same
      | some w => exact members name v w found found'

theorem field (length : ∀ i : Int64, R (.integer i) (.integer i)) (h : v.LiftRel R w)
    (name : String) : (v.field name).LiftRel R (w.field name) := by
  cases h with
  | object names members => exact getD ⟨names, members⟩ name
  | array same =>
      rw [Value.field, Value.field, same]
      split
      · exact .number (length _)
      · exact .undefined
  | string s =>
      rw [Value.field]
      split
      · exact .number (length _)
      · exact .undefined
  | undefined | null | boolean | number => exact .undefined

end LiftRel

end

end PredicateLang.Value
