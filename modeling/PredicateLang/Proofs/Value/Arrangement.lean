import PredicateLang.Proofs.KeyMap.Writes
import PredicateLang.Proofs.Value.Document
import PredicateLang.Value.Text

/-!
# Objects in any order

A map lists its members by their names. An `Arrangement` of a value lists the members of each object
in an order of its own. It may be the order in which they are written, where the last write of a
name counts (`Arrangement.value`), or the order in which a hash table happens to be walked, where
each name comes once (`Arrangement.Arranges`).

Neither order can be told from the outside. With the same last writes at every depth the value is
the same (`Arrangement.Same.value_eq`). Members that are compared, looked up and written out one
after the other, in whatever order, give what the value gives (`Arrangement.equals_eq`,
`Arrangement.value_field`, `Arrangement.toDocument_eq`).
-/

namespace PredicateLang

/-- A value in which the members of every object stand in some order. -/
inductive Arrangement
  | undefined
  | null
  | boolean (b : Bool)
  | number (n : Number)
  | string (s : String)
  | array (items : List Arrangement)
  | object (members : List (String × Arrangement))

namespace Arrangement

mutual

def value : Arrangement → Value
  | .undefined => .undefined
  | .null => .null
  | .boolean b => .boolean b
  | .number n => .number n
  | .string s => .string s
  | .array items => .array (values items)
  | .object members => .object (KeyMap.ofList (bindings members))

def values : List Arrangement → List Value
  | [] => []
  | item :: items => item.value :: values items

def bindings : List (String × Arrangement) → List (String × Value)
  | [] => []
  | (name, a) :: members => (name, a.value) :: bindings members

end

/-- The arrangements have the same items, and the same last write of each name, at any depth. The
order of the writes does not matter otherwise, nor do writes that are overwritten. -/
inductive Same : Arrangement → Arrangement → Prop
  | undefined : Same .undefined .undefined
  | null : Same .null .null
  | boolean (b : Bool) : Same (.boolean b) (.boolean b)
  | number (n : Number) : Same (.number n) (.number n)
  | string (s : String) : Same (.string s) (.string s)
  | array {as bs : List Arrangement} (length : as.length = bs.length)
      (items : ∀ (i : Nat) (h : i < as.length) (h' : i < bs.length), Same as[i] bs[i]) :
      Same (.array as) (.array bs)
  | object {ms ns : List (String × Arrangement)}
      (names : ∀ name : String,
        (ms.reverse.lookup name).isSome = (ns.reverse.lookup name).isSome)
      (members : ∀ (name : String) (a b : Arrangement),
        ms.reverse.lookup name = some a → ns.reverse.lookup name = some b → Same a b) :
      Same (.object ms) (.object ns)

/-- Each object has each of its names once, at every depth. -/
inductive Distinct : Arrangement → Prop
  | undefined : Distinct .undefined
  | null : Distinct .null
  | boolean (b : Bool) : Distinct (.boolean b)
  | number (n : Number) : Distinct (.number n)
  | string (s : String) : Distinct (.string s)
  | array {items : List Arrangement} (parts : ∀ a ∈ items, Distinct a) : Distinct (.array items)
  | object {members : List (String × Arrangement)} (once : (members.map Prod.fst).Nodup)
      (parts : ∀ m ∈ members, Distinct m.2) : Distinct (.object members)

/-- The arrangement lists the value: each object has its members, each of them once. -/
structure Arranges (a : Arrangement) (v : Value) : Prop where
  distinct : a.Distinct
  value_eq : a.value = v

/-- Induction on arrangements, through the items of an array and the members of an object. -/
@[elab_as_elim]
theorem induction {motive : Arrangement → Prop} (undefined : motive .undefined)
    (null : motive .null) (boolean : ∀ b : Bool, motive (.boolean b))
    (number : ∀ n : Number, motive (.number n)) (string : ∀ s : String, motive (.string s))
    (array : ∀ items : List Arrangement, (∀ a ∈ items, motive a) → motive (.array items))
    (object : ∀ members : List (String × Arrangement), (∀ m ∈ members, motive m.2) →
      motive (.object members))
    (a : Arrangement) : motive a := by
  refine @Arrangement.rec motive (fun items => ∀ a ∈ items, motive a)
    (fun members => ∀ m ∈ members, motive m.2) (fun m => motive m.2)
    undefined null boolean number string array object ?_ ?_ ?_ ?_ ?_ a
  · rintro a ⟨⟩
  · intro item items first rest
    exact List.forall_mem_cons.2 ⟨first, rest⟩
  · rintro m ⟨⟩
  · intro member members first rest
    exact List.forall_mem_cons.2 ⟨first, rest⟩
  · intro name a motive
    exact motive

theorem values_eq_map (items : List Arrangement) : values items = items.map value := by
  induction items with
  | nil => rfl
  | cons item items ih => rw [values, ih, List.map_cons]

theorem bindings_eq_map (members : List (String × Arrangement)) :
    bindings members = members.map (Prod.map id value) := by
  induction members with
  | nil => rfl
  | cons member members ih => rw [bindings, ih, List.map_cons]; rfl

theorem Same.refl (a : Arrangement) : a.Same a := by
  induction a using Arrangement.induction with
  | undefined => exact .undefined
  | null => exact .null
  | boolean b => exact .boolean b
  | number n => exact .number n
  | string s => exact .string s
  | array items ih => exact .array rfl fun i inside _ => ih _ (List.getElem_mem inside)
  | object members ih =>
      refine .object (fun _ => rfl) fun name a b found found' => ?_
      obtain rfl := Option.some.inj (found.symm.trans found')
      exact ih (name, a) (List.mem_reverse.1 (mem_of_lookup found))

/-- Members with different names may be written in any order. -/
theorem Same.of_perm {ms ns : List (String × Arrangement)} (perm : ms.Perm ns)
    (once : (ms.map Prod.fst).Nodup) : (Arrangement.object ms).Same (.object ns) := by
  have once' := (perm.map Prod.fst).nodup_iff.1 once
  have lookups (name : String) : ms.reverse.lookup name = ns.reverse.lookup name := by
    rw [lookup_reverse once, lookup_reverse once', lookup_eq_of_perm perm once]
  refine .object (fun name => by rw [lookups]) fun name a b found found' => ?_
  obtain rfl := Option.some.inj (found.symm.trans ((lookups name).trans found'))
  exact .refl a

theorem lookup_reverse_bindings (members : List (String × Arrangement)) (name : String) :
    (bindings members).reverse.lookup name = (members.reverse.lookup name).map value := by
  rw [bindings_eq_map, ← List.map_reverse, lookup_map]

/-- With the same last writes the value is the same. -/
theorem Same.value_eq {a b : Arrangement} (h : a.Same b) : a.value = b.value := by
  induction h with
  | undefined | null | boolean | number | string => rfl
  | @array as bs length _ ih =>
      have items : as.map value = bs.map value := by
        refine List.ext_getElem (by rw [List.length_map, List.length_map, length]) ?_
        intro i inside inside'
        rw [List.getElem_map, List.getElem_map]
        exact ih i _ _
      rw [value, value, values_eq_map, values_eq_map, items]
  | @object ms ns names _ ih =>
      have members : KeyMap.ofList (bindings ms) = KeyMap.ofList (bindings ns) := by
        refine KeyMap.ext fun name => ?_
        rw [KeyMap.find?_ofList, KeyMap.find?_ofList, lookup_reverse_bindings,
          lookup_reverse_bindings]
        have same := names name
        cases found : ms.reverse.lookup name with
        | none =>
            cases found' : ns.reverse.lookup name with
            | none => rfl
            | some b => simp [found, found'] at same
        | some a =>
            cases found' : ns.reverse.lookup name with
            | none => simp [found, found'] at same
            | some b => exact congrArg some (ih name a b found found')
      rw [value, value, members]

section

variable {members ms ns : List (String × Arrangement)} {a b : Arrangement} {bound : Option String}

theorem keys_bindings (members : List (String × Arrangement)) :
    (bindings members).map Prod.fst = members.map Prod.fst := by
  rw [bindings_eq_map, List.map_map]
  rfl

theorem find?_bindings (once : (members.map Prod.fst).Nodup) (name : String) :
    (KeyMap.ofList (bindings members)).find? name = (members.lookup name).map value := by
  rw [KeyMap.find?_ofList_of_nodup (keys_bindings members ▸ once), bindings_eq_map, lookup_map]

theorem find?_bindings_isSome (once : (members.map Prod.fst).Nodup) (name : String) :
    ((KeyMap.ofList (bindings members)).find? name).isSome = true ↔
      name ∈ members.map Prod.fst := by
  rw [find?_bindings once, Option.isSome_map, lookup_isSome_iff_mem]

/-! ### Walking the members -/

mutual

/-- Equality, where one object is walked and its members are looked up in the other. Objects of
the same size are equal if each member of the first has an equal one in the second. -/
def equals : Arrangement → Arrangement → Bool
  | .undefined, .undefined => true
  | .null, .null => true
  | .boolean a, .boolean b => a == b
  | .number a, .number b => a.equals b
  | .string a, .string b => a == b
  | .array as, .array bs => as.length == bs.length && equalItems as bs
  | .object ms, .object ns => ms.length == ns.length && equalMembers ms ns
  | _, _ => false

def equalItems : List Arrangement → List Arrangement → Bool
  | a :: as, b :: bs => a.equals b && equalItems as bs
  | _, _ => true

def equalMembers : List (String × Arrangement) → List (String × Arrangement) → Bool
  | [], _ => true
  | (name, a) :: ms, ns =>
      (match ns.lookup name with
        | some b => a.equals b
        | none => false) && equalMembers ms ns

end

theorem equals_array {as bs : List Arrangement}
    (ih : ∀ a ∈ as, ∀ b ∈ bs, a.equals b = a.value.equals b.value) :
    (array as).equals (array bs) = (array as).value.equals (array bs).value := by
  rw [equals, value, value, Value.equals]
  induction as generalizing bs with
  | nil => cases bs <;> rfl
  | cons a as rest =>
      cases bs with
      | nil => rfl
      | cons b bs =>
          have others := rest fun a found b found' => ih a (.tail _ found) b (.tail _ found')
          have length : ((a :: as).length == (b :: bs).length) = (as.length == bs.length) := by simp
          rw [equalItems, values, values, Value.equalItems, ← others, length,
            ih a List.mem_cons_self b List.mem_cons_self, Bool.and_left_comm]

theorem equalMembers_iff :
    equalMembers ms ns = true ↔
      ∀ m ∈ ms, ∃ b : Arrangement, ns.lookup m.1 = some b ∧ m.2.equals b = true := by
  induction ms with
  | nil => simp [equalMembers]
  | cons m ms ih =>
      obtain ⟨name, a⟩ := m
      rw [equalMembers, Bool.and_eq_true, ih, List.forall_mem_cons]
      refine and_congr_left fun _ => ?_
      cases ns.lookup name <;> simp

/-- Objects of the same size are equal if one has an equal member for each member of the other:
there is no room for further names. -/
theorem equals_object (once : (ms.map Prod.fst).Nodup) (once' : (ns.map Prod.fst).Nodup)
    (ih : ∀ m ∈ ms, ∀ n ∈ ns, m.2.equals n.2 = m.2.value.equals n.2.value) :
    (object ms).equals (object ns) = (object ms).value.equals (object ns).value := by
  rw [equals, value, value, Value.equals, Bool.eq_iff_iff, Bool.and_eq_true, beq_iff_eq,
    equalMembers_iff, Value.equalMembers_iff]
  constructor
  · rintro ⟨length, equal⟩
    have inside : ms.map Prod.fst ⊆ ns.map Prod.fst := fun name isName => by
      obtain ⟨m, member, rfl⟩ := List.mem_map.1 isName
      obtain ⟨b, other, -⟩ := equal m member
      exact List.mem_map.2 ⟨(m.1, b), mem_of_lookup other, rfl⟩
    have names : (ms.map Prod.fst).Perm (ns.map Prod.fst) :=
      (once.subperm inside).perm_of_length_le (by rw [List.length_map, List.length_map, length])
    refine ⟨fun name => ?_, fun name v w isMember isMember' => ?_⟩
    · rw [Bool.eq_iff_iff, find?_bindings_isSome once, find?_bindings_isSome once', names.mem_iff]
    · rw [find?_bindings once] at isMember
      rw [find?_bindings once'] at isMember'
      obtain ⟨a, first, rfl⟩ := Option.map_eq_some_iff.1 isMember
      obtain ⟨b, second, rfl⟩ := Option.map_eq_some_iff.1 isMember'
      obtain ⟨c, second', same⟩ := equal (name, a) (mem_of_lookup first)
      obtain rfl := Option.some.inj (second.symm.trans second')
      rwa [← ih (name, a) (mem_of_lookup first) (name, b) (mem_of_lookup second)]
  · rintro ⟨names, values⟩
    have same (name : String) : name ∈ ms.map Prod.fst ↔ name ∈ ns.map Prod.fst := by
      rw [← find?_bindings_isSome once, ← find?_bindings_isSome once', names]
    have length := ((List.perm_ext_iff_of_nodup once once').2 same).length_eq
    rw [List.length_map, List.length_map] at length
    refine ⟨length, fun m member => ?_⟩
    obtain ⟨b, second⟩ := Option.isSome_iff_exists.1
      (lookup_isSome_iff_mem.2 ((same m.1).1 (List.mem_map_of_mem member)))
    have first := (lookup_eq_some_iff_mem once).2 member
    refine ⟨b, second, ?_⟩
    rw [ih m member (m.1, b) (mem_of_lookup second)]
    refine values m.1 m.2.value b.value ?_ ?_
    · rw [find?_bindings once, first, Option.map_some]
    · rw [find?_bindings once', second, Option.map_some]

/-- Walking the members of objects in any order compares values as they are. -/
theorem equals_eq (ha : a.Distinct) (hb : b.Distinct) : a.equals b = a.value.equals b.value := by
  induction a using Arrangement.induction generalizing b with
  | undefined | null | boolean | number | string => cases b <;> rfl
  | array as ih =>
      cases b with
      | array bs =>
          cases ha with
          | array parts =>
              cases hb with
              | array parts' =>
                  exact equals_array fun a found b found' =>
                    ih a found (parts a found) (parts' b found')
      | _ => rfl
  | object ms ih =>
      cases b with
      | object ns =>
          cases ha with
          | object once parts =>
              cases hb with
              | object once' parts' =>
                  exact equals_object once once' fun m member n member' =>
                    ih m member (parts m member) (parts' n member')
      | _ => rfl

def field (a : Arrangement) (name : String) : Arrangement :=
  match a with
  | .object members => (members.lookup name).getD .undefined
  | .array items => if name = "length" then .number (.integer (.ofNat items.length)) else .undefined
  | .string s => if name = "length" then .number (.integer (.ofNat s.length)) else .undefined
  | _ => .undefined

theorem value_field (ha : a.Distinct) (name : String) :
    (a.field name).value = a.value.field name := by
  cases ha with
  | @object members once parts =>
      rw [field, value, Value.field, find?_bindings once]
      cases members.lookup name <;> rfl
  | array =>
      rw [field, value, Value.field, values_eq_map, List.length_map]
      split <;> rfl
  | string =>
      rw [field, value, Value.field]
      split <;> rfl
  | undefined | null | boolean | number => rfl

theorem Distinct.field (ha : a.Distinct) (name : String) : (a.field name).Distinct := by
  cases ha with
  | @object members once parts =>
      rw [Arrangement.field]
      cases found : members.lookup name with
      | none => exact .undefined
      | some b => exact parts (name, b) ((lookup_eq_some_iff_mem once).1 found)
  | array | string =>
      rw [Arrangement.field]
      split
      · exact .number _
      · exact .undefined
  | undefined | null | boolean | number => exact .undefined

mutual

def toDocument : Arrangement → Json.Document
  | .undefined => .null
  | .null => .null
  | .boolean b => .boolean b
  | .number n => n.toDocument
  | .string s => .string s
  | .array items => .array (documents items)
  | .object members => .object (KeyMap.ofList (documentBindings members))

def documents : List Arrangement → List Json.Document
  | [] => []
  | item :: items => item.toDocument :: documents items

def documentBindings : List (String × Arrangement) → List (String × Json.Document)
  | [] => []
  | (name, a) :: members => (name, a.toDocument) :: documentBindings members

end

theorem documents_eq_map (items : List Arrangement) : documents items = items.map toDocument := by
  induction items with
  | nil => rfl
  | cons item items ih => rw [documents, ih, List.map_cons]

theorem documentBindings_eq_map (members : List (String × Arrangement)) :
    documentBindings members = members.map (Prod.map id toDocument) := by
  induction members with
  | nil => rfl
  | cons member members ih => rw [documentBindings, ih, List.map_cons]; rfl

theorem toDocument_eq (a : Arrangement) : a.toDocument = a.value.toDocument := by
  induction a using Arrangement.induction with
  | undefined | null | boolean | number | string => rfl
  | array items ih =>
      rw [toDocument, value, Value.toDocument, documents_eq_map, values_eq_map,
        Value.documentItems_eq_map, List.map_map, List.map_congr_left ih]
      rfl
  | object members ih =>
      have same : KeyMap.ofList (documentBindings members) =
          Value.documentMembers (KeyMap.ofList (bindings members)) := by
        refine KeyMap.ext fun name => ?_
        rw [Value.find?_documentMembers, KeyMap.find?_ofList, KeyMap.find?_ofList,
          lookup_reverse_bindings, documentBindings_eq_map, ← List.map_reverse, lookup_map,
          Option.map_map]
        cases found : members.reverse.lookup name with
        | none => rfl
        | some a => exact congrArg some (ih (name, a) (List.mem_reverse.1 (mem_of_lookup found)))
      rw [toDocument, value, Value.toDocument, same]

def text : Arrangement → String
  | .array items => (toDocument (.array items)).compact
  | .object members => (toDocument (.object members)).compact
  | a => a.value.text

theorem text_eq (a : Arrangement) : a.text = a.value.text := by
  cases a with
  | array | object => rw [text, toDocument_eq]; rfl
  | _ => rfl

/-! ### The order of the names -/

mutual

def ofValue : Value → Arrangement
  | .undefined => .undefined
  | .null => .null
  | .boolean b => .boolean b
  | .number n => .number n
  | .string s => .string s
  | .array items => .array (ofValues items)
  | .object members => .object (ofMembers members)

def ofValues : List Value → List Arrangement
  | [] => []
  | v :: items => ofValue v :: ofValues items

def ofMembers : {bound : Option String} → Entries Value bound → List (String × Arrangement)
  | _, .nil => []
  | _, .cons name v _ members => (name, ofValue v) :: ofMembers members

end

theorem ofValues_eq_map (items : List Value) : ofValues items = items.map ofValue := by
  induction items with
  | nil => rw [ofValues]; rfl
  | cons v items ih => rw [ofValues, ih, List.map_cons]

theorem lookup_ofMembers (members : Entries Value bound) (name : String) :
    (ofMembers members).lookup name = (members.find? name).map ofValue := by
  induction members with
  | nil => rw [ofMembers]; rfl
  | cons key v above members ih =>
      rw [ofMembers, Entries.find?_cons, List.lookup_cons, ih]
      by_cases same : name = key
      · rw [if_pos same, beq_iff_eq.2 same]
        rfl
      · rw [if_neg same, beq_false_of_ne same]

theorem nodup_ofMembers (members : Entries Value bound) :
    ((ofMembers members).map Prod.fst).Nodup := by
  induction members with
  | nil => rw [ofMembers]; exact List.nodup_nil
  | cons key v above members ih =>
      rw [ofMembers, List.map_cons, List.nodup_cons, ← lookup_isSome_iff_mem, lookup_ofMembers,
        Entries.find?_bound]
      exact ⟨Bool.false_ne_true, ih⟩

theorem arranges_ofValue (v : Value) : (ofValue v).Arranges v := by
  induction v using Value.induction with
  | undefined => exact ⟨.undefined, rfl⟩
  | null => exact ⟨.null, rfl⟩
  | boolean b => exact ⟨.boolean b, rfl⟩
  | number n => exact ⟨.number n, rfl⟩
  | string s => exact ⟨.string s, rfl⟩
  | array items ih =>
      have same : (items.map ofValue).map value = items := by
        rw [List.map_map]
        exact (List.map_congr_left fun v found => (ih v found).value_eq).trans (List.map_id items)
      rw [ofValue, ofValues_eq_map]
      refine ⟨.array (List.forall_mem_map.2 fun v found => (ih v found).distinct), ?_⟩
      rw [value, values_eq_map, same]
  | object members ih =>
      have once := nodup_ofMembers members
      refine ⟨.object once fun m member => ?_, ?_⟩
      · have found := (lookup_eq_some_iff_mem once).2 member
        rw [lookup_ofMembers] at found
        obtain ⟨v, found, same⟩ := Option.map_eq_some_iff.1 found
        exact same ▸ (ih m.1 v found).distinct
      · rw [ofValue, value]
        refine congrArg Value.object (KeyMap.ext fun name => ?_)
        rw [find?_bindings once, lookup_ofMembers, Option.map_map]
        cases found : members.find? name with
        | none => rfl
        | some v => exact congrArg some (ih name v found).value_eq

end

end Arrangement

end PredicateLang
