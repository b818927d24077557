/-!
# Maps with text keys

A `KeyMap α` binds keys to values of type `α` and lists its entries in ascending order of
the keys, each key once. The order is part of the type: `Entries α b` is a run of entries
whose keys all lie above the optional bound `b`, and a map is a run without a bound. So a map
has one representation, whatever order its entries were inserted in, and a type of values
may nest it (`Value` below holds a `KeyMap Value`).

`insert` replaces the value of a key that is already bound: the last write wins.
-/

namespace PredicateLang

universe u v

/-- A run of entries in strictly ascending order of their keys, all above `bound`. -/
inductive Entries (α : Type u) : (bound : Option String) → Type u
  | nil {bound : Option String} : Entries α bound
  | cons {bound : Option String} (key : String) (value : α)
      (above : ∀ low, bound = some low → low < key) (rest : Entries α (some key)) :
      Entries α bound

namespace Entries

variable {α : Type u} {β : Type v} {bound : Option String}

def find? (key : String) : {bound : Option String} → Entries α bound → Option α
  | _, .nil => none
  | _, .cons k value _ rest => if key = k then some value else rest.find? key

theorem lt_of_not_lt_of_ne {key k : String} (below : ¬ key < k) (ne : ¬ key = k) : k < key :=
  Std.lt_of_le_of_ne (String.not_lt.1 below) (Ne.symm ne)

def insert (key : String) (value : α) : {bound : Option String} →
    (∀ low, bound = some low → low < key) → Entries α bound → Entries α bound
  | _, above, .nil => .cons key value above .nil
  | _, above, .cons k old aboveOld rest =>
      if below : key < k then
        .cons key value above (.cons k old (fun _ h => Option.some.inj h ▸ below) rest)
      else if same : key = k then
        .cons k value aboveOld rest
      else
        .cons k old aboveOld <|
          rest.insert key value fun _ h => Option.some.inj h ▸ lt_of_not_lt_of_ne below same

def size : {bound : Option String} → Entries α bound → Nat
  | _, .nil => 0
  | _, .cons _ _ _ rest => rest.size + 1

def toList : {bound : Option String} → Entries α bound → List (String × α)
  | _, .nil => []
  | _, .cons key value _ rest => (key, value) :: rest.toList

def map (f : α → β) : {bound : Option String} → Entries α bound → Entries β bound
  | _, .nil => .nil
  | _, .cons key value above rest => .cons key (f value) above (rest.map f)

end Entries

abbrev KeyMap (α : Type u) : Type u := Entries α none

namespace KeyMap

variable {α : Type u}

def empty : KeyMap α := .nil

def insert (m : KeyMap α) (key : String) (value : α) : KeyMap α :=
  Entries.insert key value (fun _ h => nomatch h) m

/-- The map of a list of bindings, of which the last one for a key counts. -/
def ofList (bindings : List (String × α)) : KeyMap α :=
  bindings.foldl (fun m binding => m.insert binding.1 binding.2) empty

def contains (m : KeyMap α) (key : String) : Bool :=
  (m.find? key).isSome

def isEmpty (m : KeyMap α) : Bool :=
  m.size == 0

end KeyMap

end PredicateLang
