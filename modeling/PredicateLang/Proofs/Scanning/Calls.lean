import PredicateLang.Proofs.Scanning.Relocation

/-!
# Calls of a cursor, one after the other

A cursor can be asked in two ways, and in any order. Whatever the call, the cursor passes a piece of
the text that is left (`Cursor.Passes`), so it stands at a boundary between characters, and only
ever moves on. `Cursor.Reads` says once what a call of `read` can give and where it leaves the cursor; a
call of `next` gives the same, or nothing at all once an end or a fault has been given.

`Cursor.Reliable` collects what can be relied on after any calls (`Cursor.reliable_after`).
-/

namespace PredicateLang

namespace Cursor

inductive Call
  /-- The next token, unless the text has ended or a fault has turned up before. -/
  | next
  /-- The next token, whatever has been given before. -/
  | read
  deriving DecidableEq

def answer (c : Cursor) : Call → Option ScanItem × Cursor
  | .next => c.next
  | .read => c.read

def after (c : Cursor) (calls : List Call) : Cursor :=
  calls.foldl (fun c call => (c.answer call).2) c

@[simp] theorem answer_next (c : Cursor) : c.answer .next = c.next := rfl

@[simp] theorem answer_read (c : Cursor) : c.answer .read = c.read := rfl

@[simp] theorem after_nil (c : Cursor) : c.after [] = c := rfl

@[simp] theorem after_cons (c : Cursor) (call : Call) (calls : List Call) :
    c.after (call :: calls) = (c.answer call).2.after calls := rfl

/-- What a call of `read` gives, and where it leaves the cursor: at the end of the text behind
blanks, behind a token that is not empty, or at a fault, unless that is an unterminated string. -/
inductive Reads (c : Cursor) : Option ScanItem → Cursor → Prop
  | ended {blanks : List Char} : c.rest = blanks → Reads c none (c.pass blanks [])
  | token {blanks chars after : List Char} {kind : Token.Kind} :
      c.rest = blanks ++ (chars ++ after) → chars ≠ [] →
      Reads c (some (.ok ⟨kind, c.position + byteLength blanks⟩)) (c.pass (blanks ++ chars) after)
  | fault {blanks cs : List Char} {e : ScanError} :
      c.rest = blanks ++ cs → (∀ p : Nat, e ≠ .unterminatedString p) →
      e.position = c.position + byteLength blanks →
      Reads c (some (.error e)) (c.pass blanks cs)
  | unterminated {blanks cs : List Char} {p : Nat} : c.rest = blanks ++ cs →
      Reads c (some (.error (.unterminatedString p))) (c.pass (blanks ++ cs) [])

/-- A cursor comes to another by passing a piece of the text that is left. -/
def Passes (c d : Cursor) : Prop :=
  ∃ text : List Char, c.rest = text ++ d.rest ∧ d.position = c.position + byteLength text

variable {c d : Cursor} {source : String}

theorem pass_pass (c : Cursor) (text text' rest rest' : List Char) :
    (c.pass text rest).pass text' rest' = c.pass (text ++ text') rest' := by
  simp only [pass, byteLength_append, Nat.add_assoc]

theorem reads_read (c : Cursor) : c.Reads c.read.1 c.read.2 := by
  have split : c.rest = c.rest.takeWhile isBlank ++ c.rest.dropWhile isBlank :=
    List.takeWhile_append_dropWhile.symm
  unfold read passBlanks
  generalize c.rest.takeWhile isBlank = blanks at *
  generalize c.rest.dropWhile isBlank = cs at *
  have position : (c.pass blanks cs).position = c.position + byteLength blanks := rfl
  cases cs with
  | nil =>
      rw [List.append_nil] at split
      exact .ended split
  | cons first rest =>
      change c.Reads (some ((c.pass blanks (first :: rest)).readFrom first rest).1)
        ((c.pass blanks (first :: rest)).readFrom first rest).2
      unfold readFrom
      split
      · next l after found =>
          rw [pass_pass, position]
          refine .token ?_ (Lexeme.chars_ne_nil_of_split found)
          rw [split, Lexeme.chars_append_of_split found]
      · exact .fault split (by simp) rfl
      · exact .fault split (by simp) rfl
      · rw [pass_pass]
        exact .unterminated split

theorem Passes.refl (c : Cursor) : c.Passes c :=
  ⟨[], rfl, rfl⟩

theorem Passes.trans {e : Cursor} (h : c.Passes d) (h' : d.Passes e) : c.Passes e := by
  obtain ⟨text, rest, position⟩ := h
  obtain ⟨text', rest', position'⟩ := h'
  refine ⟨text ++ text', ?_, ?_⟩
  · rw [rest, rest', List.append_assoc]
  · rw [position', position, byteLength_append, Nat.add_assoc]

theorem Passes.position_le (h : c.Passes d) : c.position ≤ d.position := by
  obtain ⟨text, -, position⟩ := h
  omega

theorem Passes.position_add (h : c.Passes d) :
    d.position + byteLength d.rest = c.position + byteLength c.rest := by
  obtain ⟨text, rest, position⟩ := h
  rw [position, rest, byteLength_append, Nat.add_assoc]

theorem Reads.passes {item : Option ScanItem} (h : c.Reads item d) : c.Passes d := by
  cases h with
  | ended rest => exact ⟨_, by rw [rest, pass, List.append_nil], rfl⟩
  | token rest => exact ⟨_, by rw [rest, pass, List.append_assoc], rfl⟩
  | fault rest => exact ⟨_, rest, rfl⟩
  | unterminated rest => exact ⟨_, by rw [rest, pass, List.append_nil], rfl⟩

theorem Reads.finished_eq {item : Option ScanItem} (h : c.Reads item d) :
    d.finished = c.finished := by
  cases h <;> rfl

theorem next_of_finished (h : c.finished = true) : c.next = (none, c) := by
  rw [next, if_pos h]

theorem next_of_live (h : c.finished = false) :
    c.next.1 = c.read.1 ∧ c.next.2.rest = c.read.2.rest ∧
      c.next.2.position = c.read.2.position := by
  rw [next, h]
  generalize c.read = result
  obtain ⟨_ | _ | _, d⟩ := result <;> exact ⟨rfl, rfl, rfl⟩

/-- An answer is nothing at all, or that of a call of `read`. -/
theorem cases_of_answer (c : Cursor) (call : Call) :
    c.answer call = (none, c) ∨ ∃ d : Cursor, c.Reads (c.answer call).1 d ∧
      (c.answer call).2.rest = d.rest ∧ (c.answer call).2.position = d.position := by
  cases call with
  | read => exact .inr ⟨_, c.reads_read, rfl, rfl⟩
  | next =>
      cases finished : c.finished with
      | true => exact .inl (next_of_finished finished)
      | false =>
          obtain ⟨item, rest, position⟩ := next_of_live finished
          refine .inr ⟨_, ?_, rest, position⟩
          rw [answer_next, item]
          exact c.reads_read

theorem passes_answer (c : Cursor) (call : Call) : c.Passes (c.answer call).2 := by
  rcases c.cases_of_answer call with none | ⟨d, reads, rest, position⟩
  · rw [none]
    exact .refl c
  · obtain ⟨text, left, length⟩ := reads.passes
    exact ⟨text, by rw [left, rest], by rw [position, length]⟩

theorem passes_after (c : Cursor) (calls : List Call) : c.Passes (c.after calls) := by
  induction calls generalizing c with
  | nil => exact .refl c
  | cons call calls ih => exact (c.passes_answer call).trans (ih _)

theorem finished_after (h : c.finished = true) (calls : List Call) :
    (c.after calls).finished = true := by
  induction calls generalizing c with
  | nil => exact h
  | cons call calls ih =>
      rw [after_cons]
      refine ih ?_
      cases call with
      | next => rwa [answer_next, next_of_finished h]
      | read => exact c.reads_read.finished_eq.trans h

theorem finished_of_next (h : ∀ token : Token, c.next.1 ≠ some (.ok token)) :
    c.next.2.finished = true := by
  cases finished : c.finished with
  | true => rwa [next_of_finished finished]
  | false =>
      rw [next, finished] at h ⊢
      generalize c.read = result at h ⊢
      obtain ⟨_ | _ | token, d⟩ := result
      · rfl
      · rfl
      · exact absurd rfl (h token)

theorem position_lt_of_token {call : Call} {token : Token}
    (h : c.answer call = (some (.ok token), d)) : c.position < d.position := by
  rcases c.cases_of_answer call with none | ⟨e, reads, -, position⟩
  · rw [h] at none
    cases none
  · rw [h] at reads position
    rw [position]
    cases reads with
    | @token blanks chars _ _ _ some =>
        have := Nat.pos_of_ne_zero (mt eq_nil_of_byteLength some)
        simp only [pass, byteLength_append]
        omega

/-- A fault that is no unterminated string stays where it is. -/
theorem position_eq_of_fault {call : Call} {e : ScanError}
    (h : c.answer call = (some (.error e), d)) (other : ∀ p : Nat, e ≠ .unterminatedString p) :
    d.position = e.position := by
  rcases c.cases_of_answer call with none | ⟨d', reads, -, position⟩
  · rw [h] at none
    cases none
  · rw [h] at reads position
    rw [position]
    cases reads with
    | fault _ _ place => exact place.symm
    | unterminated => exact absurd rfl (other _)

theorem rest_eq_nil_of_unterminated {call : Call} {p : Nat}
    (h : c.answer call = (some (.error (.unterminatedString p)), d)) : d.rest = [] := by
  rcases c.cases_of_answer call with none | ⟨d', reads, rest, -⟩
  · rw [h] at none
    cases none
  · rw [h] at reads rest
    rw [rest]
    cases reads with
    | fault _ other => exact absurd rfl (other p)
    | unterminated => rfl

/-- What can be relied on wherever calls have left a cursor in a source.

It stands at a boundary between characters and never beyond the source, and no call moves it back; a
token moves it on. What `read` gives there is what it gives on the text behind as a source of its
own, further behind by the bytes in front. An error leaves the cursor where it is, an unterminated
string leaves it at the end of the source. Once `next` has given an end or an error, it gives
nothing more and stays, whatever is called in between. -/
structure Reliable (source : String) (c : Cursor) : Prop where
  boundary : (⟨c.position⟩ : String.Pos.Raw).IsValid source
  le_size : c.position ≤ source.utf8ByteSize
  onward (calls : List Call) : c.position ≤ (c.after calls).position
  token (call : Call) (token : Token) (d : Cursor) :
    c.answer call = (some (.ok token), d) → c.position < d.position
  relocates : ∃ before text : String, source = before ++ text ∧ before.utf8ByteSize = c.position ∧
    c.rest = text.toList ∧
    c.read.1 = (ofText text).read.1.map (ScanItem.moved c.position) ∧
    c.read.2.rest = (ofText text).read.2.rest ∧
    c.read.2.position = c.position + (ofText text).read.2.position
  unexpectedCharacter (call : Call) (p : Nat) (character : Char) (d : Cursor) :
    c.answer call = (some (.error (.unexpectedCharacter p character)), d) → d.position = p
  malformedNumber (call : Call) (p : Nat) (d : Cursor) :
    c.answer call = (some (.error (.malformedNumber p)), d) → d.position = p
  unterminatedString (call : Call) (p : Nat) (d : Cursor) :
    c.answer call = (some (.error (.unterminatedString p)), d) → d.position = source.utf8ByteSize
  fused (calls : List Call) : (∀ token : Token, c.next.1 ≠ some (.ok token)) →
    (c.next.2.after calls).next = (none, c.next.2.after calls)

/-- A cursor can be relied on after any calls. -/
theorem reliable_after (source : String) (calls : List Call) :
    Reliable source ((ofText source).after calls) := by
  have passes := (ofText source).passes_after calls
  generalize (ofText source).after calls = c at *
  have whole : (ofText source).position + byteLength (ofText source).rest = source.utf8ByteSize :=
    (Nat.zero_add _).trans (byteLength_toList source)
  have size := passes.position_add
  obtain ⟨text, split, position⟩ := passes
  have before : source = .ofList text ++ .ofList c.rest := by
    rw [← String.ofList_append, ← split, ofText, String.ofList_toList]
  have length : (String.ofList text).utf8ByteSize = c.position := by
    rw [utf8ByteSize_ofList, position, ofText, Nat.zero_add]
  refine ⟨?_, by omega, fun calls => (c.passes_after calls).position_le,
    fun _ _ _ => position_lt_of_token, ?_, ?_, ?_, ?_, ?_⟩
  · rw [String.Pos.Raw.isValid_iff_exists_append]
    exact ⟨_, _, before, congrArg _ length.symm⟩
  · exact ⟨_, _, before, length, String.toList_ofList.symm, c.read_eq_ofText⟩
  · intro call p character d found
    exact position_eq_of_fault found (by simp)
  · intro call p d found
    exact position_eq_of_fault found (by simp)
  · intro call p d found
    have passed : c.Passes d := by simpa only [found] using c.passes_answer call
    have left := passed.position_add
    rw [rest_eq_nil_of_unterminated found, byteLength_nil] at left
    omega
  · intro calls ended
    exact next_of_finished (finished_after (finished_of_next ended) calls)

/-- A string with a character of two bytes, then a character that begins no token. The cursor stays
at that character, behind five bytes, and `next` gives nothing more, while `read` gives the error
again. -/
theorem reliable_after_fault :
    (ofText "'é' #").after [.next, .next, .next, .read] = ⟨['#'], 5, true⟩ ∧
      Reliable "'é' #" ⟨['#'], 5, true⟩ ∧
      read ⟨['#'], 5, true⟩ = (some (.error (.unexpectedCharacter 5 '#')), ⟨['#'], 5, true⟩) := by
  have stays : (ofText "'é' #").after [.next, .next, .next, .read] = ⟨['#'], 5, true⟩ := rfl
  exact ⟨stays, stays ▸ reliable_after "'é' #" [.next, .next, .next, .read], rfl⟩

end Cursor

end PredicateLang
