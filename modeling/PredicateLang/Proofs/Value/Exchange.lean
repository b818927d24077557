import PredicateLang.Proofs.Number.Nearest
import PredicateLang.Proofs.Value.Document

/-!
# From values to documents and back

A value that is written as a document and taken back has `null` wherever JSON has nothing for what
was there (`Value.nulled`), and is the same everywhere else. A document that is taken as a value and
written again has doubles for the whole numbers that no integer of 64 bits holds
(`Json.Number.narrowed`), and is the same everywhere else.

Both directions are proved along the structure of the tree: for a tree, for the items of an array,
and for the members of an object, whose names and order never change.
-/

namespace PredicateLang

namespace Json

/-- A number with the nearest double for a whole number that no integer of 64 bits holds. -/
def Number.narrowed : Number → Number
  | .whole n low high =>
      if n < Int.pow 2 63 then .whole n low high
      else
        have small : n.toNat < 2 ^ 64 := (Int.toNat_lt_of_ne_zero (by decide)).2 high
        .real false ⟨nearestRank n.toNat 1, nearestRank_lt_of_lt small⟩
  | .real negative magnitude => .real negative magnitude

namespace Document

section

variable (f : Number → Number)

mutual

def mapNumbers : Document → Document
  | .null => .null
  | .boolean b => .boolean b
  | .number n => .number (f n)
  | .string s => .string s
  | .array items => .array (mapItems items)
  | .object members => .object (mapMembers members)

def mapItems : List Document → List Document
  | [] => []
  | item :: items => mapNumbers item :: mapItems items

def mapMembers : {bound : Option String} → Entries Document bound → Entries Document bound
  | _, .nil => .nil
  | _, .cons name item above members => .cons name (mapNumbers item) above (mapMembers members)

end

end

end Document

end Json

namespace Value

def isOutsideJson : Value → Bool
  | .undefined => true
  | .number (.real x) => !x.isFinite
  | _ => false

mutual

/-- A value with `null` for each of its parts that JSON has nothing for, at any depth. -/
def nulled : Value → Value
  | .array items => .array (nulledItems items)
  | .object members => .object (nulledMembers members)
  | v => if v.isOutsideJson then .null else v

def nulledItems : List Value → List Value
  | [] => []
  | item :: items => nulled item :: nulledItems items

def nulledMembers : {bound : Option String} → Entries Value bound → Entries Value bound
  | _, .nil => .nil
  | _, .cons name value above members => .cons name (nulled value) above (nulledMembers members)

end

theorem ofDocument_toDocument_scalar (n : Number) :
    ofDocument n.toDocument = nulled (.number n) := by
  cases n with
  | integer n => exact ofDocument_toDocument_number (by simp)
  | real x => cases x <;> rfl

mutual

theorem ofDocument_toDocument_eq (v : Value) : ofDocument v.toDocument = v.nulled := by
  cases v with
  | undefined | null | boolean | string => rfl
  | number n => exact ofDocument_toDocument_scalar n
  | array items => rw [toDocument, ofDocument, nulled, ofItems_documentItems items]
  | object members => rw [toDocument, ofDocument, nulled, ofMembers_documentMembers members]

theorem ofItems_documentItems (items : List Value) :
    ofItems (documentItems items) = nulledItems items := by
  cases items with
  | nil => rfl
  | cons item items =>
      rw [documentItems, ofItems, nulledItems, ofDocument_toDocument_eq item,
        ofItems_documentItems items]

theorem ofMembers_documentMembers {bound : Option String} (members : Entries Value bound) :
    ofMembers (documentMembers members) = nulledMembers members := by
  cases members with
  | nil => rfl
  | cons name value above members =>
      rw [documentMembers, ofMembers, nulledMembers, ofDocument_toDocument_eq value,
        ofMembers_documentMembers members]

end

theorem toDocument_ofJson (n : Json.Number) :
    (Number.ofJson n).toDocument = .number n.narrowed := by
  cases n with
  | real negative magnitude => rfl
  | whole n low high =>
      rw [Number.ofJson, Json.Number.narrowed]
      split
      · next small =>
          have same : (Int64.ofInt n).toInt = n := Int64.toInt_ofInt_of_le low small
          simp only [Number.toDocument, same]
      · next large =>
          have large : ¬ n < 2 ^ 63 := large
          obtain ⟨k, rfl⟩ := Int.eq_ofNat_of_zero_le (show 0 ≤ n by omega)
          have small : k < 2 ^ 64 := Int.ofNat_lt.1 high
          have sign : decide ((k : Int) < 0) = false := by simp
          rw [Double.ofInt, Double.nearest, sign, Double.ofRank, Int.natAbs_natCast,
            dif_pos (nearestRank_lt_of_lt small), Number.toDocument]
          rfl

mutual

theorem toDocument_ofDocument_eq (d : Json.Document) :
    (ofDocument d).toDocument = d.mapNumbers Json.Number.narrowed := by
  cases d with
  | null | boolean | string => rfl
  | number n => exact toDocument_ofJson n
  | array items =>
      rw [ofDocument, toDocument, Json.Document.mapNumbers, documentItems_ofItems items]
  | object members =>
      rw [ofDocument, toDocument, Json.Document.mapNumbers, documentMembers_ofMembers members]

theorem documentItems_ofItems (items : List Json.Document) :
    documentItems (ofItems items) = Json.Document.mapItems Json.Number.narrowed items := by
  cases items with
  | nil => rfl
  | cons item items =>
      rw [ofItems, documentItems, Json.Document.mapItems, toDocument_ofDocument_eq item,
        documentItems_ofItems items]

theorem documentMembers_ofMembers {bound : Option String} (members : Entries Json.Document bound) :
    documentMembers (ofMembers members) =
      Json.Document.mapMembers Json.Number.narrowed members := by
  cases members with
  | nil => rfl
  | cons name item above members =>
      rw [ofMembers, documentMembers, Json.Document.mapMembers, toDocument_ofDocument_eq item,
        documentMembers_ofMembers members]

end

end Value

/-- A whole number that no integer of 64 bits holds gives way to the nearest double. -/
theorem Json.Number.exists_isNearest {n : Int} (low : -Int.pow 2 63 ≤ n) (high : n < Int.pow 2 64)
    (large : Int.pow 2 63 ≤ n) :
    ∃ m : Magnitude, (whole n low high).narrowed = .real false m ∧ m.IsNearest n := by
  have natural : 0 ≤ n := Int.le_trans (by decide) large
  have value : ((n.toNat : Nat) : ℚ) / (1 : Nat) = n := by
    rw [Nat.cast_one, div_one]
    exact_mod_cast Int.toNat_of_nonneg natural
  refine ⟨_, if_neg (Int.not_lt.2 large), ?_⟩
  rw [← value]
  exact Magnitude.isNearest_of_val Nat.one_pos rfl

namespace Value

/-- The two conversions between values and documents undo each other up to what either side cannot
hold. A value comes back with `null` for what JSON has nothing for, at any depth, and otherwise as
it was. A document comes back with doubles for the whole numbers beyond the integers of 64 bits, and
otherwise as it was; these doubles are the nearest ones, and a tie goes to the even one. The value
of a document has no part that JSON has nothing for. -/
theorem document_roundTrip :
    (∀ v : Value, ofDocument v.toDocument = v.nulled) ∧
    (∀ d : Json.Document, (ofDocument d).toDocument = d.mapNumbers Json.Number.narrowed) ∧
    (∀ (n : Int) (low : -Int.pow 2 63 ≤ n) (high : n < Int.pow 2 64), Int.pow 2 63 ≤ n →
      ∃ m : Magnitude, (Json.Number.whole n low high).narrowed = .real false m ∧ m.IsNearest n) ∧
    ∀ d : Json.Document, (ofDocument d).InJson := by
  refine ⟨ofDocument_toDocument_eq, toDocument_ofDocument_eq, ?_, inJson_ofDocument⟩
  intro n low high large
  exact Json.Number.exists_isNearest low high large

/-- An array with an undefined item, a negative zero, the largest integer and an infinity comes back
with two nulls. The largest whole number of a document comes back as the double nearest to it. -/
theorem document_roundTrip_mixed :
    ofDocument (toDocument (.array [.undefined, .number (.real (.finite true .zero)),
        .number (.integer Int64.maxValue), .number (.real (.infinite false))])) =
      .array [.null, .number (.real (.finite true .zero)), .number (.integer Int64.maxValue),
        .null] ∧
    ∃ m : Magnitude, (Json.Number.whole (2 ^ 64 - 1) (by decide) (by decide)).narrowed =
      .real false m ∧ m.IsNearest ((2 ^ 64 - 1 : Int) : ℚ) :=
  ⟨(document_roundTrip.1 _).trans rfl, document_roundTrip.2.2.1 _ _ _ (by decide)⟩

end Value

end PredicateLang
