import PredicateLang.Proofs.Scanning.Munch

/-!
# Tokens tile the source

`Cursor.Yields` says which tokens a cursor gives one after the other. A text `IsLexeme` if a cursor
gives one token on it and nothing else. By `Cursor.tiles_source` the text that a cursor has read is
laid with tiles: blanks, and behind them a lexeme that no longer piece of the text could replace.
What stops the cursor is the end of the text, or a fault, which says what stands there.

A tile does not know where it lies. The byte offsets of the tokens are counted along a row of tiles
(`Tile.tokens`).
-/

namespace PredicateLang

inductive Cursor.Yields : Cursor → List Token → Cursor → Prop
  | nil (c : Cursor) : Yields c [] c
  | cons {c d e : Cursor} {token : Token} {tokens : List Token} :
      c.next = (some (.ok token), d) → Yields d tokens e → Yields c (token :: tokens) e

/-- A text that makes one token by itself: scanned alone, it gives that token at its start, ends
where the token ends, and gives nothing else. -/
def IsLexeme (text : List Char) (kind : Token.Kind) : Prop :=
  ∃ c : Cursor, (Cursor.ofText (.ofList text)).Yields [⟨kind, 0⟩] c ∧
    c.position = byteLength text ∧ c.next.1 = none

theorem isLexeme_iff {text : List Char} {kind : Token.Kind} :
    IsLexeme text kind ↔ ∃ (first : Char) (cs : List Char) (l : Lexeme),
      text = first :: cs ∧ Lexeme.split first cs = .ok (l, []) ∧ l.kind = kind := by
  constructor
  · rintro ⟨c, yields, ends, -⟩
    rcases yields with _ | ⟨found, ⟨⟩⟩
    obtain ⟨blanks, first, cs, after, l, rest, -, split, token, rfl⟩ :=
      Cursor.cases_of_next_eq_token found
    obtain ⟨rfl, start⟩ := Token.mk.inj token
    simp only [Cursor.ofText, String.toList_ofList, Nat.zero_add] at rest start ends
    -- No blank stands in front, since the token starts at 0, and nothing behind.
    obtain rfl := eq_nil_of_byteLength start.symm
    have whole := Lexeme.chars_append_of_split split
    rw [rest, List.nil_append, whole, byteLength_nil, Nat.zero_add, byteLength_append] at ends
    obtain rfl : after = [] := eq_nil_of_byteLength (by omega)
    exact ⟨first, cs, l, rest, split, rfl⟩
  · rintro ⟨first, cs, l, rfl, split, rfl⟩
    have whole := Lexeme.chars_append_of_split split
    rw [List.append_nil] at whole
    refine ⟨⟨[], byteLength (first :: cs), false⟩, .cons ?_ (.nil _), rfl, rfl⟩
    rw [Cursor.ofText, String.toList_ofList, Cursor.next_lexeme split, Nat.zero_add, whole]

theorem IsLexeme.ne_nil {text : List Char} {kind : Token.Kind} (h : IsLexeme text kind) :
    text ≠ [] := by
  obtain ⟨first, cs, -, rfl, -⟩ := isLexeme_iff.1 h
  exact List.cons_ne_nil _ _

structure Tile where
  blanks : List Char
  text : List Char
  kind : Token.Kind
  allBlank : ∀ b ∈ blanks, isBlank b = true
  isLexeme : IsLexeme text kind

namespace Tile

def chars (t : Tile) : List Char :=
  t.blanks ++ t.text

def tokens : (position : Nat) → List Tile → List Token
  | _, [] => []
  | position, t :: tiles =>
      ⟨t.kind, position + byteLength t.blanks⟩ ::
        tokens (position + byteLength t.chars) tiles

/-- Where a tile ends, no lexeme that starts with its own could go on. -/
def Longest (t : Tile) (after : List Char) : Prop :=
  ∀ (text : List Char) (kind : Token.Kind), text <+: t.text ++ after → IsLexeme text kind →
    text.length ≤ t.text.length

/-- Every tile of a row holds the longest lexeme, in front of the tiles behind it and the rest. -/
def AllLongest : List Tile → (rest : List Char) → Prop
  | [], _ => True
  | t :: tiles, rest => t.Longest (tiles.flatMap chars ++ rest) ∧ AllLongest tiles rest

end Tile

section

variable {first : Char} {cs after text : List Char} {l : Lexeme} {kind : Token.Kind}

theorem isLexeme_chars (h : Lexeme.split first cs = .ok (l, after)) :
    IsLexeme l.chars l.kind := by
  have cut : [] <+: after := ⟨after, rfl⟩
  obtain ⟨more, chars, alone⟩ := Lexeme.split_of_cut h cut
  rw [List.append_nil] at alone
  exact isLexeme_iff.2 ⟨first, more, l, chars, alone, rfl⟩

/-- No longer piece of a text is a lexeme than the one that is split off. -/
theorem IsLexeme.length_le (h : Lexeme.split first cs = .ok (l, after))
    (piece : text <+: l.chars ++ after) (lexeme : IsLexeme text kind) :
    text.length ≤ l.chars.length := by
  rcases List.prefix_or_prefix_of_prefix piece (List.prefix_append _ _) with shorter | ⟨r, rfl⟩
  · exact shorter.length_le
  · have cut := (List.prefix_append_right_inj _).1 piece
    obtain ⟨more, chars, split⟩ := Lexeme.split_of_cut h cut
    obtain ⟨first', cs', l', text, alone, -⟩ := isLexeme_iff.1 lexeme
    rw [chars, List.cons_append] at text
    cases text
    -- Both ways of splitting the piece are the same, so nothing is left behind the lexeme.
    rw [split] at alone
    cases alone
    simp

/-- A text with a fault that is no malformed number begins with no lexeme. -/
theorem IsLexeme.not_of_fault {fault : Lexeme.Fault} (h : Lexeme.split first cs = .error fault)
    (other : fault ≠ .malformedNumber) (piece : text <+: first :: cs) :
    ¬ IsLexeme text kind := by
  intro lexeme
  obtain ⟨first', cs', l, rfl, split, -⟩ := isLexeme_iff.1 lexeme
  obtain ⟨rfl, shorter⟩ := List.cons_prefix_cons.1 piece
  rcases Lexeme.split_of_longer split shorter with ⟨l', after, whole⟩ | malformed
  · rw [h] at whole
    cases whole
  · rw [h] at malformed
    cases malformed
    exact other rfl

end

namespace Cursor

variable {c d : Cursor} {tokens : List Token}

theorem exists_tile {token : Token} (h : c.next = (some (.ok token), d)) :
    ∃ t : Tile, c.rest = t.chars ++ d.rest ∧ d.position = c.position + byteLength t.chars ∧
      token = ⟨t.kind, c.position + byteLength t.blanks⟩ ∧ t.Longest d.rest := by
  obtain ⟨blanks, first, cs, after, l, rest, all, split, rfl, rfl⟩ := cases_of_next_eq_token h
  refine ⟨⟨blanks, l.chars, l.kind, all, isLexeme_chars split⟩, ?_, ?_, rfl, ?_⟩
  · rw [rest, Lexeme.chars_append_of_split split, Tile.chars, List.append_assoc]
  · rw [Tile.chars, byteLength_append, Nat.add_assoc]
  · intro text kind piece lexeme
    exact lexeme.length_le split piece

/-- The tokens that a cursor gives are those of a row of tiles, laid from where it stands. -/
theorem Yields.exists_tiles (h : c.Yields tokens d) :
    ∃ tiles : List Tile, c.rest = tiles.flatMap Tile.chars ++ d.rest ∧
      d.position = c.position + byteLength (tiles.flatMap Tile.chars) ∧
      tokens = Tile.tokens c.position tiles ∧ Tile.AllLongest tiles d.rest := by
  induction h with
  | nil c => exact ⟨[], rfl, rfl, rfl, trivial⟩
  | @cons c d e token tokens found _ ih =>
      obtain ⟨t, rest, position, rfl, longest⟩ := exists_tile found
      obtain ⟨tiles, rest', position', rfl, allLongest⟩ := ih
      refine ⟨t :: tiles, ?_, ?_, ?_, ?_, allLongest⟩
      · rw [rest, rest', List.flatMap_cons, List.append_assoc]
      · rw [position', position, List.flatMap_cons, byteLength_append, Nat.add_assoc]
      · rw [Tile.tokens, position]
      · rwa [rest'] at longest

theorem Yields.finished_eq (h : c.Yields tokens d) (live : c.finished = false) :
    d.finished = false := by
  induction h with
  | nil => exact live
  | cons found _ ih =>
      obtain ⟨_, _, _, _, _, -, -, -, -, onward⟩ := cases_of_next_eq_token found
      exact ih (by rw [onward])

section

variable {cs : List Char} {position : Nat}

theorem eq_nil_of_next_eq_none (stop : ∀ first ∈ cs.head?, isBlank first = false)
    (h : (next ⟨cs, position, false⟩).1 = none) : cs = [] := by
  cases cs with
  | nil => rfl
  | cons first cs =>
      cases split : Lexeme.split first cs with
      | ok result =>
          rw [next_lexeme split] at h
          cases h
      | error fault =>
          rw [next_fault _ (stop first rfl) split] at h
          cases h

theorem not_isLexeme_of_next {e : ScanError} (stop : ∀ first ∈ cs.head?, isBlank first = false)
    (h : (next ⟨cs, position, false⟩).1 = some (.error e))
    (other : ∀ p : Nat, e ≠ .malformedNumber p) :
    e.position = position ∧
      ∀ (text : List Char) (kind : Token.Kind), text <+: cs → ¬ IsLexeme text kind := by
  cases cs with
  | nil =>
      rw [next_nil] at h
      cases h
  | cons first cs =>
      cases split : Lexeme.split first cs with
      | ok result =>
          rw [next_lexeme split] at h
          cases h
      | error fault =>
          rw [next_fault _ (stop first rfl) split] at h
          cases h
          refine ⟨by cases fault <;> rfl, fun text kind piece => ?_⟩
          refine IsLexeme.not_of_fault split ?_ piece
          rintro rfl
          exact other _ rfl

theorem next_eq_malformedNumber_iff {p : Nat} (stop : ∀ first ∈ cs.head?, isBlank first = false) :
    (next ⟨cs, position, false⟩).1 = some (.error (.malformedNumber p)) ↔
      p = position ∧ (∃ first ∈ cs.head?, first.isDigit = true) ∧
        2 ≤ (cs.takeWhile isNumberChar).count '.' := by
  cases cs with
  | nil => simp [next_nil]
  | cons first cs =>
      simp only [List.head?_cons, Option.mem_some_iff, exists_eq_left']
      rw [← Lexeme.split_eq_malformedNumber_iff]
      cases split : Lexeme.split first cs with
      | ok result =>
          rw [next_lexeme split]
          simp
      | error fault =>
          rw [next_fault _ (stop first rfl) split]
          cases fault <;> simp [Lexeme.Fault.toError, eq_comm]

end

/-- What a cursor has ahead: blanks, and a text behind them. If the cursor gives no token, then the
end of the text is there, or a fault. A malformed number is told by its dots, and every other fault
stands where no lexeme does. -/
structure Ahead (c : Cursor) (blanks cs : List Char) : Prop where
  rest : c.rest = blanks ++ cs
  allBlank : ∀ b ∈ blanks, isBlank b = true
  notBlank : ∀ first ∈ cs.head?, isBlank first = false
  ended : c.next.1 = none → cs = []
  fault : ∀ e : ScanError, c.next.1 = some (.error e) → (∀ p : Nat, e ≠ .malformedNumber p) →
    e.position = c.position + byteLength blanks ∧
      ∀ (text : List Char) (kind : Token.Kind), text <+: cs → ¬ IsLexeme text kind
  malformed : ∀ p : Nat, c.next.1 = some (.error (.malformedNumber p)) ↔
    p = c.position + byteLength blanks ∧ (∃ first ∈ cs.head?, first.isDigit = true) ∧
      2 ≤ (cs.takeWhile isNumberChar).count '.'

theorem exists_ahead (live : c.finished = false) : ∃ blanks cs : List Char, c.Ahead blanks cs := by
  obtain ⟨blanks, cs, rest, all, stop, same⟩ := exists_blanks c live
  refine ⟨blanks, cs, rest, all, stop, ?_, ?_, ?_⟩
  · rw [same]
    exact eq_nil_of_next_eq_none stop
  · rw [same]
    exact fun e => not_isLexeme_of_next stop
  · rw [same]
    exact fun p => next_eq_malformedNumber_iff stop

/-- The tokens of a source tile it. What a cursor has read of the source is a row of tiles, whose
tokens are those that it has given. The next token, if there is one, is one more tile, behind which
the cursor stands. Each tile holds blanks and the longest lexeme behind them.

If there is no more token, then the cursor has blanks ahead, and behind them the end of the source,
a malformed number, which is a run of digits with two dots or more, or a place where no lexeme
stands. -/
theorem tiles_source {source : String} (h : (ofText source).Yields tokens c) :
    (∃ tiles : List Tile, source.toList = tiles.flatMap Tile.chars ++ c.rest ∧
      c.position = byteLength (tiles.flatMap Tile.chars) ∧ tokens = Tile.tokens 0 tiles ∧
      (∀ t ∈ tiles, t.text ≠ []) ∧ Tile.AllLongest tiles c.rest) ∧
    (∀ (token : Token) (d : Cursor), c.next = (some (.ok token), d) →
      ∃ t : Tile, c.rest = t.chars ++ d.rest ∧ d.position = c.position + byteLength t.chars ∧
        token = ⟨t.kind, c.position + byteLength t.blanks⟩ ∧ t.text ≠ [] ∧ t.Longest d.rest) ∧
    ∃ blanks cs : List Char, c.Ahead blanks cs := by
  refine ⟨?_, ?_, exists_ahead (h.finished_eq rfl)⟩
  · obtain ⟨tiles, rest, position, same, longest⟩ := h.exists_tiles
    refine ⟨tiles, rest, ?_, same, fun t _ => t.isLexeme.ne_nil, longest⟩
    rw [position]
    exact Nat.zero_add _
  · intro token d found
    obtain ⟨t, rest, position, same, longest⟩ := exists_tile found
    exact ⟨t, rest, position, same, t.isLexeme.ne_nil, longest⟩

/-- A cursor gives three tokens of a source in front of a malformed number. They are three tiles,
the last of them with characters that take two bytes. -/
theorem tiles_source_quoted :
    (ofText "a?. 'éü' 1.2.3").Yields
      [⟨.name "a", 0⟩, ⟨.symbol .questionDot, 1⟩, ⟨.string "éü", 4⟩]
      ⟨" 1.2.3".toList, 10, false⟩ ∧
    ∃ tiles : List Tile, "a?. 'éü' 1.2.3".toList = tiles.flatMap Tile.chars ++ " 1.2.3".toList ∧
      10 = byteLength (tiles.flatMap Tile.chars) ∧
      [⟨.name "a", 0⟩, ⟨.symbol .questionDot, 1⟩, ⟨.string "éü", 4⟩] = Tile.tokens 0 tiles ∧
      (∀ t ∈ tiles, t.text ≠ []) ∧ Tile.AllLongest tiles " 1.2.3".toList := by
  have yields : (ofText "a?. 'éü' 1.2.3").Yields
      [⟨.name "a", 0⟩, ⟨.symbol .questionDot, 1⟩, ⟨.string "éü", 4⟩]
      ⟨" 1.2.3".toList, 10, false⟩ :=
    .cons rfl (.cons rfl (.cons rfl (.nil _)))
  exact ⟨yields, (tiles_source yields).1⟩

end Cursor

end PredicateLang
