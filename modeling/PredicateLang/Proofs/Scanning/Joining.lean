import PredicateLang.Proofs.Scanning.Munch
import PredicateLang.Proofs.Scanning.Relocation

/-!
# Texts joined by blanks

No lexeme goes on over a blank, and a fault in one text is none of the business of the next. So the
tokens of two texts with blanks between them are those of the first and then those of the second,
further behind by the bytes in front of it (`scan_append_blanks`), if nothing is wrong with the
first.
-/

namespace PredicateLang

theorem isWordChar_eq_false_of_isBlank {c : Char} (h : isBlank c = true) :
    isWordChar c = false := by
  simp only [isBlank, Bool.or_eq_true, beq_iff_eq] at h
  rcases h with ((rfl | rfl) | rfl) | rfl <;> decide

theorem isNumberChar_eq_false_of_isBlank {c : Char} (h : isBlank c = true) :
    isNumberChar c = false := by
  simp only [isBlank, Bool.or_eq_true, beq_iff_eq] at h
  rcases h with ((rfl | rfl) | rfl) | rfl <;> decide

theorem Stops.append {p : Char → Bool} {cs rest : List Char} (h : Stops p cs) (h' : Stops p rest) :
    Stops p (cs ++ rest) := by
  cases cs with
  | nil => exact h'
  | cons c cs => exact .cons (h c rfl) _

/-- A lexeme is split off in the same way if a text that starts with a blank is appended. -/
theorem Lexeme.split_append_blank {first b : Char} {cs after : List Char} {l : Lexeme}
    (h : split first cs = .ok (l, after)) (blank : isBlank b = true) (rest : List Char) :
    split first (cs ++ b :: rest) = .ok (l, after ++ b :: rest) := by
  obtain ⟨more, chars, found⟩ := split_of_stops (r := after ++ b :: rest) h
    (·.append (.cons (isWordChar_eq_false_of_isBlank blank) rest))
    (·.append (.cons (isNumberChar_eq_false_of_isBlank blank) rest))
  have whole := chars_append_of_split h
  rw [chars, List.cons_append] at whole
  rw [(List.cons.inj whole).2, List.append_assoc]
  exact found

namespace Cursor

variable {cs rest blanks : List Char} {m n : Nat}

/-- As many calls of `next` as there are characters left find everything. -/
theorem items_eq_items {c : Cursor} (enough : c.rest.length ≤ m) (enough' : c.rest.length ≤ n) :
    items m c = items n c := by
  induction m generalizing n c with
  | zero =>
      obtain ⟨rest, position, finished⟩ := c
      obtain rfl := List.eq_nil_of_length_eq_zero (Nat.le_zero.1 enough)
      rw [items_nil, items_nil]
  | succ m ih =>
      cases n with
      | zero =>
          obtain ⟨rest, position, finished⟩ := c
          obtain rfl := List.eq_nil_of_length_eq_zero (Nat.le_zero.1 enough')
          rw [items_nil, items_nil]
      | succ n =>
          rw [items, items]
          cases found : c.next with
          | mk item d =>
              rcases item with _ | e | token
              · rfl
              · have stopped := finished_of_next_eq_error found
                have same : items m d = items n d := by
                  rw [items_of_finished stopped, items_of_finished stopped]
                exact congrArg _ same
              · obtain ⟨_, first, cs, after, l, rest, -, split, -, rfl⟩ :=
                  cases_of_next_eq_token found
                have shorter := Lexeme.length_le_of_split split
                rw [rest, List.length_append, List.length_cons] at enough enough'
                exact congrArg _ (ih (by dsimp only; omega) (by dsimp only; omega))

theorem items_blanks (all : ∀ b ∈ blanks, isBlank b = true) (cs : List Char) (position : Nat) :
    items n ⟨blanks ++ cs, position, false⟩ =
      items n ⟨cs, position + byteLength blanks, false⟩ := by
  cases n with
  | zero => rfl
  | succ n => rw [items, items, next_blanks all]

theorem items_append_blanks (all : ∀ b ∈ blanks, isBlank b = true) (some : blanks ≠ [])
    (enough : (cs ++ (blanks ++ rest)).length ≤ n) (position : Nat)
    (clean : ∀ e : ScanError, .error e ∉ items n ⟨cs, position, false⟩) :
    items n ⟨cs ++ (blanks ++ rest), position, false⟩ =
      items n ⟨cs, position, false⟩ ++
        items n ⟨rest, position + byteLength (cs ++ blanks), false⟩ := by
  induction n generalizing cs position with
  | zero => simp_all
  | succ n ih =>
      obtain ⟨front, body, split, allFront, stop, -⟩ := exists_blanks ⟨cs, position, false⟩ rfl
      obtain rfl : cs = front ++ body := split
      rw [items_blanks allFront] at clean ⊢
      rw [List.append_assoc, items_blanks allFront, List.append_assoc, byteLength_append,
        ← Nat.add_assoc]
      generalize position + byteLength front = position at *
      cases body with
      | nil => rw [List.nil_append, items_blanks all, items_nil, List.nil_append, List.nil_append]
      | cons first more =>
          cases split : Lexeme.split first more with
          | error fault =>
              obtain ⟨behind, found⟩ := items_fault n position (stop first rfl) split
              refine absurd ?_ (clean (fault.toError position first))
              rw [found]
              exact List.mem_cons_self
          | ok result =>
              obtain ⟨l, after⟩ := result
              obtain ⟨b, behind, rfl⟩ := List.exists_cons_of_ne_nil some
              have joined := Lexeme.split_append_blank split (all b List.mem_cons_self)
                (behind ++ rest)
              have shorter := Lexeme.length_le_of_split split
              simp only [List.length_append, List.length_cons] at enough
              rw [items_lexeme split] at clean ⊢
              have fewer : (after ++ (b :: behind ++ rest)).length ≤ n := by
                simp only [List.length_append, List.length_cons]
                omega
              have later := ih fewer (position + byteLength l.chars)
                fun e found => clean e (List.mem_cons_of_mem _ found)
              rw [List.cons_append, List.cons_append, items_lexeme joined, ← List.cons_append,
                later, Lexeme.chars_append_of_split split, List.append_assoc,
                byteLength_append l.chars, ← Nat.add_assoc, List.cons_append]
              exact congrArg (fun behind => _ :: (_ ++ behind))
                (items_eq_items (by dsimp only; omega) (by dsimp only; omega))

end Cursor

open Cursor

theorem scan_eq_items {s : String} {n : Nat} (enough : s.toList.length ≤ n) :
    scan s = items n (ofText s) :=
  items_eq_items (Nat.le_of_eq String.length_toList) enough

/-- The tokens of two texts that are joined by blanks are those of the first text, if it has no
faults, and then everything that the second one gives, further behind by the bytes in front of
it. -/
theorem scan_append_blanks {s blanks : String} (clean : ∀ e : ScanError, .error e ∉ scan s)
    (all : ∀ b ∈ blanks.toList, isBlank b = true) (some : blanks ≠ "") (t : String) :
    scan (s ++ blanks ++ t) =
      scan s ++ (scan t).map (ScanItem.moved (s ++ blanks).utf8ByteSize) := by
  have whole : (s ++ blanks ++ t).toList = s.toList ++ (blanks.toList ++ t.toList) := by
    rw [String.toList_append, String.toList_append, List.append_assoc]
  have start : (⟨t.toList, 0 + byteLength (s.toList ++ blanks.toList), false⟩ : Cursor) =
      (ofText t).moved (s ++ blanks).utf8ByteSize := by
    rw [← String.toList_append, byteLength_toList, Nat.zero_add]
    rfl
  obtain ⟨n, enough⟩ : ∃ n, n = (s ++ blanks ++ t).toList.length := ⟨_, rfl⟩
  have parts : n = s.toList.length + (blanks.toList.length + t.toList.length) := by
    rw [enough, whole, List.length_append, List.length_append]
  rw [scan_eq_items (n := n) (by omega)] at clean ⊢
  rw [scan_eq_items (s := s) (n := n) (by omega), scan_eq_items (s := t) (n := n) (by omega),
    ← items_moved, ← start, ofText, whole]
  exact items_append_blanks all (mt String.toList_eq_nil_iff.1 some)
    (Nat.le_of_eq (whole ▸ enough.symm)) 0 clean

/-- A name at the end of one text and a name at the start of the next stay two names, and the fault
behind them is found behind ten bytes. -/
theorem scan_append_blanks_names :
    (∀ e : ScanError, .error e ∉ scan "'é' a") ∧
      scan ("'é' a" ++ " \t" ++ "b #") =
        scan "'é' a" ++ [.ok ⟨.name "b", 8⟩, .error (.unexpectedCharacter 10 '#')] := by
  have tokens : scan "'é' a" = [.ok ⟨.string "é", 0⟩, .ok ⟨.name "a", 5⟩] := rfl
  have clean : ∀ e : ScanError, .error e ∉ scan "'é' a" := by simp [tokens]
  have all : ∀ b ∈ " \t".toList, isBlank b = true := List.all_eq_true.1 rfl
  exact ⟨clean, scan_append_blanks clean all (by decide) "b #"⟩

end PredicateLang
