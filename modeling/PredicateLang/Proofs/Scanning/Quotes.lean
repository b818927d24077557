import Mathlib.Algebra.Group.Nat.Even
import Mathlib.Data.List.DropRight
import PredicateLang.Proofs.Scanning.Calls
import PredicateLang.Proofs.Scanning.Munch

/-!
# Strings

Which quote ends a string, and what the string stands for, is a matter of parity. A quote ends the
string if an even number of backslashes in a row stands in front of it (`Closes`), and of the
backslashes in between, those with an even number in a row in front of them are dropped (`literal`).
The scanner goes from left to right and takes every escaped character together with its backslash;
such a pair leaves all parities behind it as they are (`even_trailingBackslashes_append`).
-/

namespace PredicateLang

def trailingBackslashes (cs : List Char) : Nat :=
  (cs.rtakeWhile (· == '\\')).length

/-- A text behind an opening quote goes on with `body`, a quote that is not escaped, and `after`. -/
structure Closes (body after cs : List Char) : Prop where
  split : cs = body ++ '\'' :: after
  even : Even (trailingBackslashes body)

/-- What a text behind `before` stands for, without each backslash that is not itself escaped. -/
def literal (before : List Char) : List Char → List Char
  | [] => []
  | c :: cs =>
      if c = '\\' ∧ Even (trailingBackslashes before) then literal (before ++ [c]) cs
      else c :: literal (before ++ [c]) cs

section

variable {c : Char} {cs pre body after before before' : List Char}

theorem trailingBackslashes_concat (cs : List Char) (c : Char) :
    trailingBackslashes (cs ++ [c]) = if c = '\\' then trailingBackslashes cs + 1 else 0 := by
  rw [trailingBackslashes, List.rtakeWhile_concat]
  split <;> simp_all [trailingBackslashes]

theorem even_trailingBackslashes_append (even : Even (trailingBackslashes pre)) (cs : List Char) :
    Even (trailingBackslashes (pre ++ cs)) ↔ Even (trailingBackslashes cs) := by
  induction cs using List.reverseRecOn with
  | nil => simpa [trailingBackslashes] using even
  | append_singleton cs c ih =>
      rw [← List.append_assoc, trailingBackslashes_concat, trailingBackslashes_concat]
      split
      · rw [Nat.even_add_one, Nat.even_add_one, ih]
      · rfl

theorem even_trailingBackslashes_pair (c : Char) : Even (trailingBackslashes ['\\', c]) := by
  have pair : ['\\', c] = [] ++ ['\\'] ++ [c] := rfl
  rw [pair, trailingBackslashes_concat]
  split <;> decide

theorem even_trailingBackslashes_single (plain : c ≠ '\\') : Even (trailingBackslashes [c]) := by
  rw [← List.nil_append [c], trailingBackslashes_concat, if_neg plain]
  decide

theorem not_even_trailingBackslashes_backslash : ¬ Even (trailingBackslashes ['\\']) := by decide

theorem Closes.append (h : Closes body after cs) (even : Even (trailingBackslashes pre)) :
    Closes (pre ++ body) after (pre ++ cs) :=
  ⟨by rw [h.split, List.append_assoc], (even_trailingBackslashes_append even body).2 h.even⟩

theorem Closes.of_append (h : Closes (pre ++ body) after (pre ++ cs))
    (even : Even (trailingBackslashes pre)) : Closes body after cs :=
  ⟨List.append_cancel_left (h.split.trans (List.append_assoc ..)),
    (even_trailingBackslashes_append even body).1 h.even⟩

/-- What a text stands for depends on what is in front by its parity only. -/
theorem literal_congr
    (same : Even (trailingBackslashes before) ↔ Even (trailingBackslashes before'))
    (cs : List Char) : literal before cs = literal before' cs := by
  induction cs generalizing before before' with
  | nil => rfl
  | cons c cs ih =>
      have next : Even (trailingBackslashes (before ++ [c])) ↔
          Even (trailingBackslashes (before' ++ [c])) := by
        rw [trailingBackslashes_concat, trailingBackslashes_concat]
        split
        · rw [Nat.even_add_one, Nat.even_add_one, same]
        · rfl
      simp only [literal, same, ih next]

end

namespace Lexeme

variable {cs body after : List Char}

theorem closes_of_splitString? (h : splitString? cs = some (body, after)) :
    Closes body after cs := by
  fun_induction splitString? cs generalizing body after with
  | case1 => contradiction
  | case2 rest =>
      cases h
      exact ⟨rfl, by decide⟩
  | case3 c rest ih =>
      obtain ⟨⟨body, rest⟩, found, same⟩ := Option.map_eq_some_iff.1 h
      cases same
      exact (ih found).append (even_trailingBackslashes_pair c)
  | case4 c rest notQuote notEscape ih =>
      obtain ⟨⟨body, rest'⟩, found, same⟩ := Option.map_eq_some_iff.1 h
      cases same
      have plain : c ≠ '\\' := ne_backslash notEscape (by rintro rfl; contradiction)
      exact (ih found).append (even_trailingBackslashes_single plain)

/-- Before every quote that is not escaped, or there, the scanner ends the string. -/
theorem exists_splitString?_of_closes (h : Closes body after cs) :
    ∃ body' after' : List Char, splitString? cs = some (body', after') ∧
      body'.length ≤ body.length := by
  fun_induction splitString? cs generalizing body with
  | case1 => exact absurd h.split (by simp)
  | case2 rest => exact ⟨[], rest, rfl, Nat.zero_le _⟩
  | case3 c rest ih =>
      rcases body with _ | ⟨x, _ | ⟨y, body⟩⟩
      · exact absurd (List.cons.inj h.split).1 (by decide)
      · obtain ⟨rfl, -⟩ := List.cons.inj h.split
        exact absurd h.even not_even_trailingBackslashes_backslash
      · obtain ⟨rfl, tail⟩ := List.cons.inj h.split
        obtain ⟨rfl, -⟩ := List.cons.inj tail
        have whole : Closes (['\\', c] ++ body) after (['\\', c] ++ rest) := h
        have inner := whole.of_append (even_trailingBackslashes_pair c)
        obtain ⟨body', after', found, le⟩ := ih inner
        exact ⟨'\\' :: c :: body', after', by rw [found]; rfl, Nat.add_le_add_right le 2⟩
  | case4 c rest notQuote notEscape ih =>
      rcases body with _ | ⟨x, body⟩
      · exact absurd (List.cons.inj h.split).1 notQuote
      · obtain ⟨rfl, tail⟩ := List.cons.inj h.split
        have plain : c ≠ '\\' := ne_backslash notEscape (tail ▸ by simp)
        have whole : Closes ([c] ++ body) after ([c] ++ rest) := h
        have inner := whole.of_append (even_trailingBackslashes_single plain)
        obtain ⟨body', after', found, le⟩ := ih inner
        exact ⟨c :: body', after', by rw [found]; rfl, Nat.add_le_add_right le 1⟩

/-- The scanner ends a string at the first quote that is not escaped. -/
theorem splitString?_of_closes (h : Closes body after cs)
    (first : ∀ body' after' : List Char, Closes body' after' cs → body.length ≤ body'.length) :
    splitString? cs = some (body, after) := by
  obtain ⟨body', after', found, le⟩ := exists_splitString?_of_closes h
  have closes := closes_of_splitString? found
  obtain ⟨rfl, tail⟩ := List.append_inj (h.split.symm.trans closes.split)
    (Nat.le_antisymm (first body' after' closes) le)
  cases tail
  exact found

/-- What the scanner makes of a body that ends with no escape is what the body stands for. -/
theorem unescape_eq_literal (even : Even (trailingBackslashes body)) :
    unescape body = literal [] body := by
  fun_induction unescape body with
  | case1 c rest ih =>
      have rest_even : Even (trailingBackslashes rest) :=
        (even_trailingBackslashes_append (even_trailingBackslashes_pair c) rest).1 even
      have same : literal ['\\', c] rest = literal [] rest :=
        literal_congr (iff_of_true (even_trailingBackslashes_pair c) (by decide)) rest
      rw [ih rest_even, literal, if_pos ⟨rfl, by decide⟩, List.nil_append, literal,
        if_neg (not_and_of_not_right _ not_even_trailingBackslashes_backslash)]
      exact congrArg _ same.symm
  | case2 c rest notEscape ih =>
      have plain : c ≠ '\\' := by
        rintro rfl
        refine ne_backslash notEscape ?_ rfl
        rintro rfl
        exact not_even_trailingBackslashes_backslash even
      have single := even_trailingBackslashes_single plain
      have rest_even := (even_trailingBackslashes_append single rest).1 even
      have same : literal [c] rest = literal [] rest :=
        literal_congr (iff_of_true single (by decide)) rest
      rw [ih rest_even, literal, if_neg (not_and_of_not_left _ plain)]
      exact congrArg _ same.symm
  | case3 => rfl

theorem split_of_unterminated (h : splitString? cs = none) :
    split '\'' cs = .error .unterminatedString := by
  simp [split, Symbol.split?, h]

end Lexeme

namespace Cursor

section

variable {first : Char} {cs after : List Char} {l : Lexeme} {fault : Lexeme.Fault}

theorem answer_lexeme (h : Lexeme.split first cs = .ok (l, after)) (position : Nat) (call : Call) :
    answer ⟨first :: cs, position, false⟩ call =
      (some (.ok ⟨l.kind, position⟩), ⟨after, position + byteLength l.chars, false⟩) := by
  cases call with
  | next => exact next_lexeme h
  | read => exact read_lexeme h

theorem answer_fault (h : Lexeme.split first cs = .error fault) (blank : isBlank first = false)
    (position : Nat) (call : Call) :
    (answer ⟨first :: cs, position, false⟩ call).1 =
      some (.error (fault.toError position first)) := by
  cases call with
  | next => exact next_fault position blank h
  | read => exact read_fault position blank h

end

/-- Strings are decoded exactly. The literal of a string is read as that string, whatever follows,
up to its closing quote.

A text that starts with a quote is read as a string if and only if a quote behind it has an even
number of backslashes in a row in front. The string ends at the first such quote, and it is the text
in between without each backslash that is not itself escaped. If there is no such quote, then the
string is unterminated. -/
theorem decodes_strings (call : Call) :
    (∀ s t : String, (ofText (Expr.text (.literal (.string s)) ++ t)).answer call =
      (some (.ok ⟨.string s, 0⟩),
        ⟨t.toList, (Expr.text (.literal (.string s))).utf8ByteSize, false⟩)) ∧
    ∀ cs : List Char,
      ((∃ (s : String) (p : Nat) (d : Cursor),
          (ofText (.ofList ('\'' :: cs))).answer call = (some (.ok ⟨.string s, p⟩), d)) ↔
        ∃ body after : List Char, Closes body after cs) ∧
      (∀ body after : List Char, Closes body after cs →
        (∀ body' after' : List Char, Closes body' after' cs → body.length ≤ body'.length) →
        (ofText (.ofList ('\'' :: cs))).answer call =
          (some (.ok ⟨.string (.ofList (literal [] body)), 0⟩),
            ⟨after, byteLength ('\'' :: (body ++ ['\''])), false⟩)) ∧
      ((¬ ∃ body after : List Char, Closes body after cs) →
        ((ofText (.ofList ('\'' :: cs))).answer call).1 =
          some (.error (.unterminatedString 0))) := by
  refine ⟨fun s t => ?_, fun cs => ?_⟩
  · have start : ofText (Expr.text (.literal (.string s)) ++ t) =
        ⟨'\'' :: (Lexeme.escape s.toList ++ '\'' :: t.toList), 0, false⟩ := by
      simp [ofText, Expr.text, Expr.literalText, Expr.quoted, Lexeme.chars]
    have split := Lexeme.split_of_string (Lexeme.splitString?_escape s.toList t.toList)
    rw [start, answer_lexeme split, Expr.text, Expr.literalText, Expr.quoted, utf8ByteSize_ofList,
      Lexeme.kind, Lexeme.unescape_escape, String.ofList_toList, Nat.zero_add]
  · have start : ofText (.ofList ('\'' :: cs)) = ⟨'\'' :: cs, 0, false⟩ := by
      rw [ofText, String.toList_ofList]
    rw [start]
    have string {body after : List Char} (found : Lexeme.splitString? cs = some (body, after)) :
        answer ⟨'\'' :: cs, 0, false⟩ call =
          (some (.ok ⟨.string (.ofList (literal [] body)), 0⟩),
            ⟨after, byteLength ('\'' :: (body ++ ['\''])), false⟩) := by
      rw [answer_lexeme (Lexeme.split_of_string found), Lexeme.kind, Nat.zero_add, Lexeme.chars,
        Lexeme.unescape_eq_literal (Lexeme.closes_of_splitString? found).even]
    have unterminated (none : Lexeme.splitString? cs = none) :
        (answer ⟨'\'' :: cs, 0, false⟩ call).1 = some (.error (.unterminatedString 0)) :=
      answer_fault (Lexeme.split_of_unterminated none) rfl 0 call
    refine ⟨⟨?_, ?_⟩, ?_, ?_⟩
    · rintro ⟨s, p, d, found⟩
      cases split : Lexeme.splitString? cs with
      | some result => exact ⟨_, _, Lexeme.closes_of_splitString? split⟩
      | none =>
          have failed := unterminated split
          rw [found] at failed
          cases failed
    · rintro ⟨body, after, closes⟩
      obtain ⟨body', after', found, -⟩ := Lexeme.exists_splitString?_of_closes closes
      exact ⟨_, _, _, string found⟩
    · intro body after closes first
      exact string (Lexeme.splitString?_of_closes closes first)
    · intro never
      refine unterminated (Option.eq_none_iff_forall_ne_some.2 fun result found => never ?_)
      exact ⟨_, _, Lexeme.closes_of_splitString? found⟩

/-- An escaped quote does not end a string, and a quote behind an escaped backslash does. -/
theorem decodes_strings_escapes :
    Closes "a\\'b\\\\".toList " x".toList "a\\'b\\\\' x".toList ∧
      (ofText (.ofList ('\'' :: "a\\'b\\\\' x".toList))).next =
        (some (.ok ⟨.string "a'b\\", 0⟩), ⟨" x".toList, 8, false⟩) := by
  have closes : Closes "a\\'b\\\\".toList " x".toList "a\\'b\\\\' x".toList :=
    ⟨by decide, by decide⟩
  refine ⟨closes, ((decodes_strings .next).2 _).2.1 _ _ closes fun body' after' closes' => ?_⟩
  obtain ⟨body, after, found, le⟩ := Lexeme.exists_splitString?_of_closes closes'
  have split : Lexeme.splitString? "a\\'b\\\\' x".toList =
      some ("a\\'b\\\\".toList, " x".toList) := rfl
  cases split.symm.trans found
  exact le

end Cursor

end PredicateLang
