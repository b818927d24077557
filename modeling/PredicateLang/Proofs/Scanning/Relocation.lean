import Mathlib.Data.String.Basic
import PredicateLang.Proofs.Scanning.Lexes

/-!
# Scanning the same text at another place

What a cursor gives depends on the text that is left alone. A cursor further behind in a source,
with the same text left, gives the same tokens and errors, at byte offsets that are higher by the
distance (`Cursor.read_moved`, `Cursor.items_moved`). The raw call does not look at whether the
cursor has finished either (`Cursor.read_withFinished`).
-/

namespace PredicateLang

theorem utf8ByteSize_ofList (cs : List Char) : (String.ofList cs).utf8ByteSize = byteLength cs := by
  rw [String.utf8ByteSize_ofList]
  induction cs with
  | nil => rfl
  | cons c cs ih => rw [String.utf8Len_cons, byteLength_cons, ih, Nat.add_comm]

theorem byteLength_toList (s : String) : byteLength s.toList = s.utf8ByteSize := by
  rw [← utf8ByteSize_ofList, String.ofList_toList]

def Token.moved (offset : Nat) (t : Token) : Token :=
  { t with position := offset + t.position }

def ScanError.moved (offset : Nat) : ScanError → ScanError
  | .unexpectedCharacter p c => .unexpectedCharacter (offset + p) c
  | .unterminatedString p => .unterminatedString (offset + p)
  | .malformedNumber p => .malformedNumber (offset + p)

def ScanItem.moved (offset : Nat) : ScanItem → ScanItem
  | .ok t => .ok (t.moved offset)
  | .error e => .error (e.moved offset)

namespace Cursor

def moved (offset : Nat) (c : Cursor) : Cursor :=
  { c with position := offset + c.position }

variable (offset : Nat) (c : Cursor)

theorem pass_moved (text rest : List Char) :
    (c.moved offset).pass text rest = (c.pass text rest).moved offset := by
  simp only [pass, moved, Nat.add_assoc]

theorem readFrom_moved (first : Char) (rest : List Char) :
    (c.moved offset).readFrom first rest =
      (ScanItem.moved offset (c.readFrom first rest).1,
        (c.readFrom first rest).2.moved offset) := by
  unfold readFrom
  split
  · rw [pass_moved]
    rfl
  · rfl
  · rfl
  · rw [pass_moved]
    rfl

theorem read_moved :
    (c.moved offset).read =
      (c.read.1.map (ScanItem.moved offset), c.read.2.moved offset) := by
  have blanks : (c.moved offset).passBlanks = c.passBlanks.moved offset := pass_moved offset c _ _
  unfold read
  rw [blanks]
  generalize c.passBlanks = d
  dsimp only
  have rest : (d.moved offset).rest = d.rest := rfl
  rw [rest]
  split
  · rfl
  · rw [readFrom_moved]
    rfl

theorem next_moved :
    (c.moved offset).next =
      (c.next.1.map (ScanItem.moved offset), c.next.2.moved offset) := by
  unfold next
  rw [read_moved]
  have flag : (c.moved offset).finished = c.finished := rfl
  rw [flag]
  split
  · rfl
  · generalize c.read = result
    obtain ⟨_ | _ | _, d⟩ := result <;> rfl

theorem items_moved (count : Nat) :
    items count (c.moved offset) = (items count c).map (ScanItem.moved offset) := by
  induction count generalizing c with
  | zero => rfl
  | succ count ih =>
      rw [items, items, next_moved]
      generalize c.next = result
      obtain ⟨_ | item, d⟩ := result
      · rfl
      · exact congrArg _ (ih d)

theorem read_withFinished (finished : Bool) :
    read { c with finished := finished } = (c.read.1, { c.read.2 with finished := finished }) := by
  unfold read
  have blanks : passBlanks { c with finished := finished } =
      { c.passBlanks with finished := finished } := rfl
  rw [blanks]
  generalize c.passBlanks = d
  dsimp only
  split
  · rfl
  · unfold readFrom
    split <;> rfl

/-- Reading at some place is reading what is left as a text of its own, moved to that place. -/
theorem read_eq_ofText :
    c.read.1 = (ofText (.ofList c.rest)).read.1.map (ScanItem.moved c.position) ∧
      c.read.2.rest = (ofText (.ofList c.rest)).read.2.rest ∧
      c.read.2.position = c.position + (ofText (.ofList c.rest)).read.2.position := by
  have same : c = moved c.position { ofText (.ofList c.rest) with finished := c.finished } := by
    simp only [ofText, moved, String.toList_ofList, Nat.add_zero]
  have result := congrArg read same
  rw [read_moved, read_withFinished (ofText _)] at result
  exact ⟨congrArg Prod.fst result, congrArg (fun r => r.2.rest) result,
    congrArg (fun r => r.2.position) result⟩

end Cursor

end PredicateLang
