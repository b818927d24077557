import PredicateLang.Token.Lemmas

/-!
# Which tokens a text is read as

`Lexes cs ks rest` says that the token kinds `ks` are read off the head of the text `cs` and that
`rest` is left. It speaks of the text that follows, because a lexeme ends where the text goes on
with something else; that makes it compose (`Lexes.trans`).

`scan` follows this relation up to the end of the text or up to a fault, whatever the offsets of
the tokens are.
-/

namespace PredicateLang

/-- The token kinds that are read off the head of a text, and what is left. -/
inductive Lexes : List Char → List Token.Kind → List Char → Prop
  | nil (cs : List Char) : Lexes cs [] cs
  | blank {c : Char} {cs rest : List Char} {ks : List Token.Kind} :
      isBlank c = true → Lexes cs ks rest → Lexes (c :: cs) ks rest
  | lexeme {first : Char} {cs after rest : List Char} {l : Lexeme} {ks : List Token.Kind} :
      Lexeme.split first cs = .ok (l, after) → Lexes after ks rest →
      Lexes (first :: cs) (l.kind :: ks) rest

theorem Lexes.trans {cs mid rest : List Char} {ks ks' : List Token.Kind} (h : Lexes cs ks mid)
    (h' : Lexes mid ks' rest) : Lexes cs (ks ++ ks') rest := by
  induction h with
  | nil => exact h'
  | blank blank _ ih => exact .blank blank (ih h')
  | lexeme split _ ih => exact .lexeme split (ih h')

def Token.Kind.Legible (k : Token.Kind) : Prop :=
  ∃ (first : Char) (cs after : List Char) (l : Lexeme),
    Lexeme.split first cs = .ok (l, after) ∧ l.kind = k

namespace Lexeme

variable {first : Char} {cs after : List Char} {l : Lexeme}

theorem cases_of_split (h : split first cs = .ok (l, after)) :
    (∃ s : Symbol, l = .symbol s ∧ Symbol.split? (first :: cs) = some (s, after)) ∨
    (∃ body : List Char, l = .string body ∧ first = '\'' ∧
      splitString? cs = some (body, after)) ∨
    (first.isAlpha = true ∧ l = .word (first :: cs.takeWhile isWordChar) ∧
      after = cs.dropWhile isWordChar) ∨
    (first.isDigit = true ∧ l = .number (first :: cs.takeWhile isNumberChar) ∧
      (first :: cs.takeWhile isNumberChar).count '.' ≤ 1 ∧
      after = cs.dropWhile isNumberChar) := by
  unfold split at h
  split at h
  · next found =>
      cases h
      exact .inl ⟨_, rfl, found⟩
  · split at h
    · next quote =>
        split at h
        · next found =>
            cases h
            exact .inr (.inl ⟨_, rfl, quote, found⟩)
        · contradiction
    · split at h
      · next letter =>
          cases h
          exact .inr (.inr (.inl ⟨letter, rfl, rfl⟩))
      · split at h
        · next digit =>
            dsimp only at h
            split at h
            · contradiction
            · next dots =>
                cases h
                exact .inr (.inr (.inr ⟨digit, rfl, Nat.not_lt.1 dots, rfl⟩))
        · contradiction

theorem chars_ne_nil_of_split (h : split first cs = .ok (l, after)) : l.chars ≠ [] := by
  rcases cases_of_split h with ⟨s, rfl, -⟩ | ⟨body, rfl, -⟩ | ⟨-, rfl, -⟩ | ⟨-, rfl, -⟩
  · cases s <;> exact List.cons_ne_nil _ _
  all_goals exact List.cons_ne_nil _ _

theorem length_le_of_split (h : split first cs = .ok (l, after)) :
    after.length ≤ cs.length := by
  have whole := congrArg List.length (chars_append_of_split h)
  have some := List.length_pos_iff.2 (chars_ne_nil_of_split h)
  rw [List.length_cons, List.length_append] at whole
  omega

end Lexeme

theorem isBlank_eq_false {c : Char}
    (h : c ≠ ' ' ∧ c ≠ '\t' ∧ c ≠ '\n' ∧ c ≠ '\r') : isBlank c = false := by
  simp [isBlank, h]

theorem isBlank_eq_false_of_split {first : Char} {cs after : List Char} {l : Lexeme}
    (h : Lexeme.split first cs = .ok (l, after)) : isBlank first = false := by
  refine isBlank_eq_false ⟨?_, ?_, ?_, ?_⟩ <;> rintro rfl <;> contradiction

def Lexeme.Fault.toError (position : Nat) (first : Char) : Fault → ScanError
  | .unexpectedCharacter => .unexpectedCharacter position first
  | .unterminatedString => .unterminatedString position
  | .malformedNumber => .malformedNumber position

section

variable (c : Char) (cs cs' : List Char)

@[simp] theorem byteLength_nil : byteLength [] = 0 := rfl

@[simp] theorem byteLength_cons : byteLength (c :: cs) = c.utf8Size + byteLength cs := rfl

@[simp] theorem byteLength_append :
    byteLength (cs ++ cs') = byteLength cs + byteLength cs' := by
  induction cs with
  | nil => simp
  | cons c cs ih => simp [ih, Nat.add_assoc]

end

theorem eq_nil_of_byteLength {cs : List Char} (h : byteLength cs = 0) : cs = [] := by
  cases cs with
  | nil => rfl
  | cons c cs =>
      have pos := c.utf8Size_pos
      rw [byteLength_cons] at h
      omega

namespace Cursor

variable {c : Char} {cs rest after : List Char} {ks : List Token.Kind} {position count : Nat}
  {finished : Bool} {l : Lexeme}

theorem next_blank (h : isBlank c = true) :
    next ⟨c :: cs, position, false⟩ = next ⟨cs, position + c.utf8Size, false⟩ := by
  have moved : passBlanks ⟨c :: cs, position, false⟩ =
      passBlanks ⟨cs, position + c.utf8Size, false⟩ := by
    simp only [passBlanks, pass, List.takeWhile_cons, List.dropWhile_cons, h, if_true, byteLength,
      List.foldr_cons, Nat.add_assoc]
  simp only [next, read, moved, Bool.false_eq_true, if_false]

theorem next_blanks {blanks : List Char} (all : ∀ b ∈ blanks, isBlank b = true) (cs : List Char)
    (position : Nat) :
    next ⟨blanks ++ cs, position, false⟩ = next ⟨cs, position + byteLength blanks, false⟩ := by
  induction blanks generalizing position with
  | nil => rfl
  | cons b blanks ih =>
      rw [List.cons_append, next_blank (all b (List.mem_cons_self ..)),
        ih fun b found => all b (List.mem_cons_of_mem _ found), byteLength_cons, Nat.add_assoc]

theorem items_blank (h : isBlank c = true) :
    items count ⟨c :: cs, position, false⟩ =
      items count ⟨cs, position + c.utf8Size, false⟩ := by
  cases count with
  | zero => rfl
  | succ count => simp only [items, next_blank h]

theorem passBlanks_of_not_blank (h : isBlank c = false) :
    passBlanks ⟨c :: cs, position, finished⟩ = ⟨c :: cs, position, finished⟩ := by
  simp [passBlanks, pass, h, byteLength]

theorem next_nil : next ⟨[], position, false⟩ = (none, ⟨[], position, true⟩) := rfl

theorem read_lexeme (h : Lexeme.split c cs = .ok (l, after)) :
    read ⟨c :: cs, position, finished⟩ =
      (some (.ok ⟨l.kind, position⟩), ⟨after, position + byteLength l.chars, finished⟩) := by
  have blank := isBlank_eq_false_of_split h
  simp [read, passBlanks_of_not_blank blank, readFrom, h, pass]

theorem next_lexeme (h : Lexeme.split c cs = .ok (l, after)) :
    next ⟨c :: cs, position, false⟩ =
      (some (.ok ⟨l.kind, position⟩), ⟨after, position + byteLength l.chars, false⟩) := by
  simp only [next, read_lexeme h, Bool.false_eq_true, if_false]

theorem fst_next {d : Cursor} (live : d.finished = false) : d.next.1 = d.read.1 := by
  rw [next, if_neg (by rw [live]; exact Bool.false_ne_true)]
  split
  · next found => rw [found]
  · next found => rw [found]

theorem read_fault {fault : Lexeme.Fault} (position : Nat) (blank : isBlank c = false)
    (h : Lexeme.split c cs = .error fault) :
    (read ⟨c :: cs, position, finished⟩).1 = some (.error (fault.toError position c)) := by
  cases fault <;>
    simp [read, passBlanks_of_not_blank blank, readFrom, h, Lexeme.Fault.toError]

theorem next_fault {fault : Lexeme.Fault} (position : Nat) (blank : isBlank c = false)
    (h : Lexeme.split c cs = .error fault) :
    (next ⟨c :: cs, position, false⟩).1 = some (.error (fault.toError position c)) := by
  rw [fst_next rfl, read_fault position blank h]

/-- What a cursor stands at is blanks and then the end of the text or something else. -/
theorem exists_blanks (d : Cursor) (live : d.finished = false) :
    ∃ blanks cs : List Char, d.rest = blanks ++ cs ∧ (∀ b ∈ blanks, isBlank b = true) ∧
      (∀ first ∈ cs.head?, isBlank first = false) ∧
      d.next = next ⟨cs, d.position + byteLength blanks, false⟩ := by
  obtain ⟨text, position, finished⟩ := d
  obtain rfl : finished = false := live
  have all : ∀ b ∈ text.takeWhile isBlank, isBlank b = true :=
    List.all_eq_true.1 List.all_takeWhile
  refine ⟨text.takeWhile isBlank, text.dropWhile isBlank, List.takeWhile_append_dropWhile.symm,
    all, ?_, ?_⟩
  · intro first found
    have stop := List.head?_dropWhile_not isBlank text
    rwa [Option.mem_def.1 found] at stop
  · rw [← next_blanks all, List.takeWhile_append_dropWhile]

theorem finished_of_next_eq_some {item : ScanItem} {d e : Cursor} (h : d.next = (some item, e)) :
    d.finished = false := by
  cases finished : d.finished with
  | false => rfl
  | true =>
      rw [next, finished] at h
      cases h

/-- Where a token comes from: the lexeme behind the blanks. -/
theorem cases_of_next_eq_token {token : Token} {d e : Cursor}
    (h : d.next = (some (.ok token), e)) :
    ∃ (blanks : List Char) (first : Char) (cs after : List Char) (l : Lexeme),
      d.rest = blanks ++ first :: cs ∧ (∀ b ∈ blanks, isBlank b = true) ∧
      Lexeme.split first cs = .ok (l, after) ∧
      token = ⟨l.kind, d.position + byteLength blanks⟩ ∧
      e = ⟨after, d.position + byteLength blanks + byteLength l.chars, false⟩ := by
  obtain ⟨blanks, cs, rest, all, stop, same⟩ := exists_blanks d (finished_of_next_eq_some h)
  rw [h] at same
  cases cs with
  | nil =>
      rw [next_nil] at same
      cases same
  | cons first cs =>
      cases split : Lexeme.split first cs with
      | error fault =>
          have failed := next_fault (d.position + byteLength blanks) (stop first rfl) split
          rw [← same] at failed
          cases failed
      | ok result =>
          obtain ⟨l, after⟩ := result
          rw [next_lexeme split] at same
          cases same
          exact ⟨blanks, first, cs, after, l, rest, all, split, rfl, rfl⟩

theorem items_lexeme (h : Lexeme.split c cs = .ok (l, after)) :
    items (count + 1) ⟨c :: cs, position, false⟩ =
      .ok ⟨l.kind, position⟩ :: items count ⟨after, position + byteLength l.chars, false⟩ := by
  rw [items, next_lexeme h]

theorem items_fault {fault : Lexeme.Fault} (count position : Nat) (blank : isBlank c = false)
    (h : Lexeme.split c cs = .error fault) :
    ∃ more : List ScanItem, items (count + 1) ⟨c :: cs, position, false⟩ =
      .error (fault.toError position c) :: more := by
  have failed := next_fault position blank h
  rw [items]
  split
  · next found =>
      rw [found] at failed
      cases failed
  · next item d found =>
      rw [found] at failed
      cases failed
      exact ⟨_, rfl⟩

theorem items_nil : items count ⟨[], position, finished⟩ = [] := by
  cases count with
  | zero => rfl
  | succ count => cases finished <;> rfl

/-- A cursor reads what its text is read as, and goes on from there. -/
theorem items_of_lexes (h : Lexes cs ks rest) (enough : cs.length ≤ count) (position : Nat) :
    ∃ (tokens : List Token) (count' position' : Nat), tokens.map Token.kind = ks ∧
      rest.length ≤ count' ∧ position' + byteLength rest = position + byteLength cs ∧
      items count ⟨cs, position, false⟩ =
        tokens.map .ok ++ items count' ⟨rest, position', false⟩ := by
  induction h generalizing count position with
  | nil cs => exact ⟨[], count, position, rfl, enough, rfl, rfl⟩
  | blank blank _ ih =>
      rw [items_blank blank, byteLength_cons, ← Nat.add_assoc]
      exact ih (Nat.le_of_succ_le enough) _
  | @lexeme first cs after rest l ks split _ ih =>
      obtain ⟨count, rfl⟩ := Nat.exists_eq_succ_of_ne_zero (Nat.ne_zero_of_lt enough)
      have shorter : after.length ≤ count :=
        Nat.le_trans (Lexeme.length_le_of_split split) (Nat.le_of_succ_le_succ enough)
      obtain ⟨tokens, count', position', rfl, enough', bytes, same⟩ :=
        ih shorter (position + byteLength l.chars)
      refine ⟨⟨l.kind, position⟩ :: tokens, count', position', rfl, enough', ?_, ?_⟩
      · rw [bytes, Lexeme.chars_append_of_split split, byteLength_append, Nat.add_assoc]
      · rw [items_lexeme split, same]
        rfl

theorem finished_of_next_eq_error {e : ScanError} {c d : Cursor}
    (h : c.next = (some (.error e), d)) : d.finished = true := by
  unfold next at h
  split at h
  · cases h
  · split at h <;> cases h
    rfl

theorem items_of_finished {c : Cursor} (h : c.finished = true) : items count c = [] := by
  cases count with
  | zero => rfl
  | succ count => rw [items, next, if_pos h]

/-- What holds of the tokens of all lexemes that a text has room for, holds of those that a cursor
gives. -/
theorem kind_of_mem_items {P : Token.Kind → Prop} {limit : Nat} {token : Token}
    (each : ∀ (first : Char) (cs after : List Char) (l : Lexeme), (first :: cs).length ≤ limit →
      Lexeme.split first cs = .ok (l, after) → P l.kind)
    (c : Cursor) (short : c.rest.length ≤ limit) (h : .ok token ∈ items count c) :
    P token.kind := by
  induction count generalizing c with
  | zero => contradiction
  | succ count ih =>
      rw [items] at h
      split at h
      · contradiction
      · next item d found =>
          cases item with
          | error e =>
              rw [items_of_finished (finished_of_next_eq_error found)] at h
              rcases List.mem_cons.1 h with same | later <;> contradiction
          | ok first =>
              obtain ⟨blanks, head, cs, after, l, rest, -, split, rfl, rfl⟩ :=
                cases_of_next_eq_token found
              have room := Lexeme.length_le_of_split split
              rw [rest, List.length_append, List.length_cons] at short
              rcases List.mem_cons.1 h with same | later
              · cases same
                exact each head cs after l (by rw [List.length_cons]; omega) split
              · exact ih _ (by dsimp only; omega) later

theorem legible_of_mem_items {token : Token} (c : Cursor) (h : .ok token ∈ items count c) :
    token.kind.Legible :=
  kind_of_mem_items (fun first cs after l _ split => ⟨first, cs, after, l, split, rfl⟩) c
    (Nat.le_refl _) h

end Cursor

theorem scan_of_lexes {source : String} {ks : List Token.Kind} (h : Lexes source.toList ks []) :
    ∃ tokens : List Token, tokens.map Token.kind = ks ∧ scan source = tokens.map .ok := by
  obtain ⟨tokens, count, position, kinds, -, -, same⟩ :=
    Cursor.items_of_lexes h (Nat.le_of_eq String.length_toList) 0
  refine ⟨tokens, kinds, ?_⟩
  rw [scan, Cursor.ofText, same, Cursor.items_nil, List.append_nil]

/-- The place of a lexeme in a text without faults is that of its token. -/
theorem scan_of_lexes_around {source : String} {ks ks' : List Token.Kind} {first : Char}
    {cs after : List Char} {l : Lexeme} (h : Lexes source.toList ks (first :: cs))
    (split : Lexeme.split first cs = .ok (l, after)) (h' : Lexes after ks' []) :
    ∃ (before behind : List Token) (position : Nat), before.map Token.kind = ks ∧
      behind.map Token.kind = ks' ∧
      position + byteLength (first :: cs) = byteLength source.toList ∧
      scan source = (before ++ ⟨l.kind, position⟩ :: behind).map .ok := by
  obtain ⟨before, count, position, kinds, enough, bytes, same⟩ :=
    Cursor.items_of_lexes h (Nat.le_of_eq String.length_toList) 0
  obtain ⟨count, rfl⟩ := Nat.exists_eq_succ_of_ne_zero (Nat.ne_zero_of_lt enough)
  have shorter : after.length ≤ count :=
    Nat.le_trans (Lexeme.length_le_of_split split) (Nat.le_of_succ_le_succ enough)
  obtain ⟨behind, count', position', kinds', -, -, same'⟩ :=
    Cursor.items_of_lexes h' shorter (position + byteLength l.chars)
  refine ⟨before, behind, position, kinds, kinds', by rw [bytes, Nat.zero_add], ?_⟩
  rw [scan, Cursor.ofText, same, Cursor.items_lexeme split, same', Cursor.items_nil]
  simp

theorem scan_of_lexes_fault {source : String} {ks : List Token.Kind} {first : Char}
    {cs : List Char} {fault : Lexeme.Fault} (h : Lexes source.toList ks (first :: cs))
    (blank : isBlank first = false) (split : Lexeme.split first cs = .error fault) :
    ∃ (tokens : List Token) (position : Nat) (more : List ScanItem), tokens.map Token.kind = ks ∧
      scan source = tokens.map .ok ++ .error (fault.toError position first) :: more := by
  obtain ⟨tokens, count, position, kinds, enough, -, same⟩ :=
    Cursor.items_of_lexes h (Nat.le_of_eq String.length_toList) 0
  obtain ⟨count, rfl⟩ := Nat.exists_eq_succ_of_ne_zero (Nat.ne_zero_of_lt enough)
  obtain ⟨more, found⟩ := Cursor.items_fault count position blank split
  refine ⟨tokens, position, more, kinds, ?_⟩
  rw [scan, Cursor.ofText, same, found]

end PredicateLang
