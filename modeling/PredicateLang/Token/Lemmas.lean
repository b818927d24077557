import PredicateLang.Token.Scan

/-!
# Splitting a text into lexemes

`Lexeme.chars_append_of_split` says that splitting loses nothing: a text is its first lexeme and
what is left. `splitString?_escape` and `unescape_escape` say that a string is read back from
its escaped form, whatever follows.
-/

namespace PredicateLang

theorem Symbol.chars_append_of_split? {cs rest : List Char} {s : Symbol}
    (h : Symbol.split? cs = some (s, rest)) : cs = s.chars ++ rest := by
  unfold Symbol.split? at h
  split at h <;> simp_all [Symbol.chars] <;> obtain ⟨rfl, rfl⟩ := h <;> rfl

theorem Symbol.split?_chars_append {s : Symbol} (rest : List Char) :
    Symbol.split? (s.chars ++ rest) = some (s, rest) := by
  cases s <;> rfl

namespace Lexeme

theorem append_of_splitString? {cs body rest : List Char}
    (h : splitString? cs = some (body, rest)) : cs = body ++ '\'' :: rest := by
  fun_induction splitString? cs generalizing body rest with
  | case1 => simp at h
  | case2 rest => simp_all
  | case3 c rest ih =>
      simp only [Option.map_eq_some_iff, Prod.mk.injEq, Prod.exists] at h
      obtain ⟨body, rest, found, rfl, rfl⟩ := h
      simp [ih found]
  | case4 c rest notQuote notEscape ih =>
      simp only [Option.map_eq_some_iff, Prod.mk.injEq, Prod.exists] at h
      obtain ⟨body, rest, found, rfl, rfl⟩ := h
      simp [ih found]

/-- An escaped string is its own body, whatever follows its closing quote. -/
theorem splitString?_escape (s rest : List Char) :
    splitString? (escape s ++ '\'' :: rest) = some (escape s, rest) := by
  induction s with
  | nil => rfl
  | cons c s ih =>
      rw [escape]
      split
      · simp [splitString?, ih]
      · next plain =>
          rw [not_or] at plain
          rw [List.cons_append, splitString?.eq_def]
          split <;> simp_all

@[simp] theorem unescape_escape (s : List Char) : unescape (escape s) = s := by
  induction s with
  | nil => rfl
  | cons c s ih =>
      rw [escape]
      split
      · simp [unescape, ih]
      · next plain =>
          rw [not_or] at plain
          rw [unescape.eq_def]
          split <;> simp_all

theorem chars_append_of_split {first : Char} {rest after : List Char} {l : Lexeme}
    (h : split first rest = .ok (l, after)) : first :: rest = l.chars ++ after := by
  unfold split at h
  split at h
  · next found =>
      obtain ⟨rfl, rfl⟩ := Prod.mk.injEq .. ▸ Except.ok.injEq .. ▸ h
      exact Symbol.chars_append_of_split? found
  · split at h
    · next quote =>
        split at h
        · next found =>
            obtain ⟨rfl, rfl⟩ := Prod.mk.injEq .. ▸ Except.ok.injEq .. ▸ h
            simp [chars, quote, append_of_splitString? found]
        · nomatch h
    · split at h
      · obtain ⟨rfl, rfl⟩ := Prod.mk.injEq .. ▸ Except.ok.injEq .. ▸ h
        simp [chars, List.takeWhile_append_dropWhile]
      · split at h
        · dsimp only at h
          split at h
          · nomatch h
          · obtain ⟨rfl, rfl⟩ := Prod.mk.injEq .. ▸ Except.ok.injEq .. ▸ h
            simp [chars, List.takeWhile_append_dropWhile]
        · nomatch h

end Lexeme

end PredicateLang
