import PredicateLang.Proofs.Scanning.Lexemes

/-!
# Where a lexeme ends

A lexeme is split off a text in the same way if the text behind it is cut off anywhere
(`Lexeme.split_of_cut`). So it stands alone, and no longer piece of the text is a lexeme by
itself.

The faults are told apart by what the text begins with. A run of digits with two dots is malformed
although `1.` is a lexeme; a text with one of the other faults begins with no lexeme at all
(`Lexeme.split_of_longer`).
-/

namespace PredicateLang

section

variable {p : Char → Bool} {cs cs' : List Char}

theorem Stops.of_cut (h : Stops p cs) (cut : cs' <+: cs) : Stops p cs' := by
  intro c found
  obtain ⟨rest, rfl⟩ := cut
  obtain ⟨more, rfl⟩ := List.head?_eq_some_iff.1 found
  exact h c rfl

theorem stops_dropWhile (p : Char → Bool) (cs : List Char) : Stops p (cs.dropWhile p) := by
  intro c found
  have first := List.head?_dropWhile_not p cs
  rwa [Option.mem_def.1 found] at first

theorem all_takeWhile (p : Char → Bool) (cs : List Char) : ∀ c ∈ cs.takeWhile p, p c = true :=
  List.all_eq_true.1 List.all_takeWhile

end

namespace Lexeme

variable {first : Char} {cs after r : List Char} {l : Lexeme}

theorem ne_backslash {c : Char} {rest : List Char}
    (notEscape : ∀ (d : Char) (more : List Char), c = '\\' → rest = d :: more → False)
    (some : rest ≠ []) : c ≠ '\\' := by
  obtain ⟨d, more, rfl⟩ := List.exists_cons_of_ne_nil some
  exact fun same => notEscape d more same rfl

theorem splitString?_append {body : List Char} (h : splitString? cs = some (body, after))
    (r : List Char) : splitString? (body ++ '\'' :: r) = some (body, r) := by
  fun_induction splitString? cs generalizing body after with
  | case1 => contradiction
  | case2 rest =>
      cases h
      rfl
  | case3 c rest ih =>
      obtain ⟨⟨body, rest⟩, found, same⟩ := Option.map_eq_some_iff.1 h
      cases same
      simp [splitString?, ih found]
  | case4 c rest notQuote notEscape ih =>
      obtain ⟨⟨body, rest'⟩, found, same⟩ := Option.map_eq_some_iff.1 h
      cases same
      have plain : c ≠ '\\' := ne_backslash notEscape (by rintro rfl; contradiction)
      rw [List.cons_append, splitString?.eq_def]
      split <;> simp_all

theorem split_of_symbol {s : Symbol} (h : Symbol.split? (first :: cs) = some (s, after)) :
    split first cs = .ok (.symbol s, after) := by
  rw [split, h]

theorem split_of_string {body : List Char} (h : splitString? cs = some (body, after)) :
    split '\'' cs = .ok (.string body, after) := by
  simp [split, Symbol.split?, h]

/-- A lexeme is split off in the same way if another text stands behind it that goes on neither
with a word nor with a number where the text before did not. -/
theorem split_of_stops (h : split first cs = .ok (l, after))
    (word : Stops isWordChar after → Stops isWordChar r)
    (number : Stops isNumberChar after → Stops isNumberChar r) :
    ∃ more : List Char, l.chars = first :: more ∧ split first (more ++ r) = .ok (l, r) := by
  rcases cases_of_split h with
    ⟨s, rfl, found⟩ | ⟨body, rfl, rfl, found⟩ | ⟨letter, rfl, rfl⟩ | ⟨digit, rfl, dots, rfl⟩
  · obtain ⟨more, chars⟩ : ∃ more : List Char, s.chars = first :: more := by
      have whole := Symbol.chars_append_of_split? found
      cases s <;> exact ⟨_, congrArg (· :: _) (List.cons.inj whole).1.symm⟩
    refine ⟨more, chars, split_of_symbol ?_⟩
    rw [← List.cons_append, ← chars, Symbol.split?_chars_append]
  · refine ⟨body ++ ['\''], rfl, ?_⟩
    rw [List.append_assoc]
    exact split_of_string (splitString?_append found r)
  · exact ⟨_, rfl, split_word letter (all_takeWhile _ _) (word (stops_dropWhile _ _))⟩
  · refine ⟨_, rfl, ?_⟩
    rw [split_run digit (all_takeWhile _ _) (number (stops_dropWhile _ _)),
      if_neg (Nat.not_lt.2 dots)]

/-- A lexeme is split off in the same way if the text behind it is cut off anywhere. -/
theorem split_of_cut (h : split first cs = .ok (l, after)) (cut : r <+: after) :
    ∃ more : List Char, l.chars = first :: more ∧ split first (more ++ r) = .ok (l, r) :=
  split_of_stops h (·.of_cut cut) (·.of_cut cut)

theorem split_of_isAlpha (letter : first.isAlpha = true) (cs : List Char) :
    split first cs =
      .ok (.word (first :: cs.takeWhile isWordChar), cs.dropWhile isWordChar) := by
  have word := split_word letter (all_takeWhile isWordChar cs) (stops_dropWhile isWordChar cs)
  rwa [List.takeWhile_append_dropWhile] at word

theorem split_of_isDigit (digit : first.isDigit = true) (cs : List Char) :
    split first cs =
      if 1 < (first :: cs.takeWhile isNumberChar).count '.' then .error .malformedNumber
      else .ok (.number (first :: cs.takeWhile isNumberChar), cs.dropWhile isNumberChar) := by
  have run := split_run digit (all_takeWhile isNumberChar cs) (stops_dropWhile isNumberChar cs)
  rwa [List.takeWhile_append_dropWhile] at run

/-- A text that goes on behind a lexeme begins with a lexeme too, unless it is a malformed
number. -/
theorem split_of_longer {more : List Char} (h : split first more = .ok (l, []))
    (longer : more <+: cs) :
    (∃ (l' : Lexeme) (after : List Char), split first cs = .ok (l', after)) ∨
      split first cs = .error .malformedNumber := by
  obtain ⟨rest, rfl⟩ := longer
  rcases cases_of_split h with
    ⟨s, rfl, found⟩ | ⟨body, rfl, rfl, found⟩ | ⟨letter, -, -⟩ | ⟨digit, -, -, -⟩
  · have whole : first :: more = s.chars := by
      simpa using Symbol.chars_append_of_split? found
    have found : Symbol.split? (first :: (more ++ rest)) = some (s, rest) := by
      rw [← List.cons_append, whole, Symbol.split?_chars_append]
    exact .inl ⟨_, _, split_of_symbol found⟩
  · obtain rfl := append_of_splitString? found
    have found : splitString? (body ++ ['\''] ++ rest) = some (body, rest) := by
      rw [List.append_assoc]
      exact splitString?_append found rest
    exact .inl ⟨_, _, split_of_string found⟩
  · exact .inl ⟨_, _, split_of_isAlpha letter _⟩
  · rw [split_of_isDigit digit]
    split
    · exact .inr rfl
    · exact .inl ⟨_, _, rfl⟩

/-- A number is malformed exactly if it has two dots or more in its run of digits and dots. -/
theorem split_eq_malformedNumber_iff :
    split first cs = .error .malformedNumber ↔
      first.isDigit = true ∧ 2 ≤ ((first :: cs).takeWhile isNumberChar).count '.' := by
  constructor
  · intro malformed
    have digit : first.isDigit = true := by
      unfold split at malformed
      split at malformed
      · cases malformed
      · split at malformed
        · split at malformed <;> cases malformed
        · split at malformed
          · cases malformed
          · split at malformed
            · assumption
            · cases malformed
    refine ⟨digit, ?_⟩
    rw [split_of_isDigit digit] at malformed
    rw [List.takeWhile_cons_of_pos (by simp [isNumberChar, digit])]
    split at malformed
    · assumption
    · cases malformed
  · rintro ⟨digit, dots⟩
    rw [List.takeWhile_cons_of_pos (by simp [isNumberChar, digit])] at dots
    rw [split_of_isDigit digit, if_pos (show 1 < _ from dots)]

end Lexeme

end PredicateLang
