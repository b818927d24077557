import Mathlib.Algebra.Group.Nat.Defs
import PredicateLang.Expr.Basic
import PredicateLang.Proofs.Scanning.Lexes

/-!
# Reading one lexeme

What the text of one token is read as, given how the text goes on. A word stands alone if no
word character follows it, and a number if neither a digit nor a dot does (`Stops`). A symbol
and a string stand alone whatever follows.

In the other direction, `Token.Kind.Legible` is spelled out for names and for numbers.
-/

namespace PredicateLang

def Stops (p : Char → Bool) (rest : List Char) : Prop :=
  ∀ c ∈ rest.head?, p c = false

theorem Stops.nil {p : Char → Bool} : Stops p [] := by
  rintro c ⟨⟩

theorem Stops.cons {p : Char → Bool} {c : Char} (h : p c = false) (rest : List Char) :
    Stops p (c :: rest) := by
  rintro _ ⟨⟩
  exact h

section

variable {p : Char → Bool} {cs rest : List Char}

theorem takeWhile_append_of_stops (all : ∀ c ∈ cs, p c = true) (stops : Stops p rest) :
    (cs ++ rest).takeWhile p = cs := by
  rw [List.takeWhile_append_of_pos all]
  cases rest with
  | nil => rw [List.takeWhile_nil, List.append_nil]
  | cons c rest => rw [List.takeWhile_cons_of_neg (by simp [stops c rfl]), List.append_nil]

theorem dropWhile_append_of_stops (all : ∀ c ∈ cs, p c = true) (stops : Stops p rest) :
    (cs ++ rest).dropWhile p = rest := by
  rw [List.dropWhile_append_of_pos all]
  cases rest with
  | nil => rfl
  | cons c rest => rw [List.dropWhile_cons_of_neg (by simp [stops c rfl])]

end

def IsWord (cs : List Char) : Prop :=
  ∃ (first : Char) (more : List Char), cs = first :: more ∧ first.isAlpha = true ∧
    ∀ c ∈ more, isWordChar c = true

/-- A digit and number characters after it, with one dot at most. -/
def IsNumber (cs : List Char) : Prop :=
  ∃ (first : Char) (more : List Char), cs = first :: more ∧ first.isDigit = true ∧
    (∀ c ∈ more, isNumberChar c = true) ∧ cs.count '.' ≤ 1

theorem Symbol.split?_eq_none {first : Char} (h : first.isAlphanum = true) (cs : List Char) :
    split? (first :: cs) = none := by
  unfold split?
  split
  case h_10 => rfl
  all_goals
    next same =>
      obtain ⟨rfl, -⟩ := List.cons.inj same
      contradiction

theorem ne_quote_of_isAlphanum {c : Char} (h : c.isAlphanum = true) : c ≠ '\'' := by
  rintro rfl
  contradiction

theorem isAlpha_eq_false_of_isDigit {c : Char} (h : c.isDigit = true) : c.isAlpha = false := by
  have below : c.val ≤ '9'.val := of_decide_eq_true (Bool.and_eq_true_iff.1 h).2
  cases letter : c.isAlpha with
  | false => rfl
  | true =>
      rcases Bool.or_eq_true_iff.1 letter with upper | lower
      · have above : 'A'.val ≤ c.val := (of_decide_eq_true upper).1
        exact absurd (UInt32.le_trans above below) (by decide)
      · have above : 'a'.val ≤ c.val := of_decide_eq_true (Bool.and_eq_true_iff.1 lower).1
        exact absurd (UInt32.le_trans above below) (by decide)

theorem isNumberChar_eq_false_of_isAlpha {c : Char} (h : c.isAlpha = true) :
    isNumberChar c = false := by
  have digit : c.isDigit = false := by
    cases digit : c.isDigit with
    | false => rfl
    | true =>
        rw [isAlpha_eq_false_of_isDigit digit] at h
        contradiction
  have other : c ≠ '.' := by
    rintro rfl
    contradiction
  simp [isNumberChar, digit, other]

theorem isBlank_eq_false_of_isDigit {c : Char} (h : c.isDigit = true) : isBlank c = false := by
  refine isBlank_eq_false ⟨?_, ?_, ?_, ?_⟩ <;> rintro rfl <;> contradiction

namespace Lexeme

variable {first : Char} {more rest : List Char}

theorem exists_split_symbol (s : Symbol) (rest : List Char) :
    ∃ (first : Char) (cs : List Char), s.chars ++ rest = first :: cs ∧
      split first cs = .ok (.symbol s, rest) := by
  obtain ⟨first, more, chars⟩ : ∃ (first : Char) (more : List Char), s.chars = first :: more := by
    cases s <;> exact ⟨_, _, rfl⟩
  refine ⟨first, more ++ rest, by rw [chars, List.cons_append], ?_⟩
  rw [split, ← List.cons_append, ← chars, Symbol.split?_chars_append]

theorem split_word (letter : first.isAlpha = true) (all : ∀ c ∈ more, isWordChar c = true)
    (stops : Stops isWordChar rest) :
    split first (more ++ rest) = .ok (.word (first :: more), rest) := by
  have alphanum : first.isAlphanum = true := by simp [Char.isAlphanum, letter]
  simp only [split, Symbol.split?_eq_none alphanum, ne_quote_of_isAlphanum alphanum, letter,
    if_true, if_false, takeWhile_append_of_stops all stops, dropWhile_append_of_stops all stops]

theorem split_run (digit : first.isDigit = true) (all : ∀ c ∈ more, isNumberChar c = true)
    (stops : Stops isNumberChar rest) :
    split first (more ++ rest) =
      if 1 < (first :: more).count '.' then .error .malformedNumber
      else .ok (.number (first :: more), rest) := by
  have alphanum : first.isAlphanum = true := by simp [Char.isAlphanum, digit]
  simp only [split, Symbol.split?_eq_none alphanum, ne_quote_of_isAlphanum alphanum,
    isAlpha_eq_false_of_isDigit digit, digit, if_true, if_false, Bool.false_eq_true,
    takeWhile_append_of_stops all stops, dropWhile_append_of_stops all stops]

end Lexeme

namespace Lexes

theorem symbol (s : Symbol) (rest : List Char) : Lexes (s.chars ++ rest) [.symbol s] rest := by
  obtain ⟨first, cs, chars, split⟩ := Lexeme.exists_split_symbol s rest
  rw [chars]
  exact .lexeme split (.nil rest)

theorem word {cs rest : List Char} (h : IsWord cs) (stops : Stops isWordChar rest) :
    Lexes (cs ++ rest) [Lexeme.wordKind (.ofList cs)] rest := by
  obtain ⟨first, more, rfl, letter, all⟩ := h
  exact .lexeme (Lexeme.split_word letter all stops) (.nil rest)

theorem number {cs rest : List Char} (h : IsNumber cs) (stops : Stops isNumberChar rest) :
    Lexes (cs ++ rest) [.number (Lexeme.numberValue cs)] rest := by
  obtain ⟨first, more, rfl, digit, all, dots⟩ := h
  have split := Lexeme.split_run digit all stops
  rw [if_neg (Nat.not_lt.2 dots)] at split
  exact .lexeme split (.nil rest)

theorem number_alone {cs : List Char} (h : IsNumber cs) :
    Lexes cs [.number (Lexeme.numberValue cs)] [] := by
  have alone := Lexes.number h .nil
  rwa [List.append_nil] at alone

theorem quoted (s : String) (rest : List Char) :
    Lexes ((Expr.quoted s).toList ++ rest) [.string s] rest := by
  have split : Lexeme.split '\'' (Lexeme.escape s.toList ++ '\'' :: rest) =
      .ok (.string (Lexeme.escape s.toList), rest) := by
    simp [Lexeme.split, Symbol.split?, Lexeme.splitString?_escape]
  have text : (Expr.quoted s).toList ++ rest =
      '\'' :: (Lexeme.escape s.toList ++ '\'' :: rest) := by
    simp [Expr.quoted, Lexeme.chars]
  have kind : (Lexeme.string (Lexeme.escape s.toList)).kind = .string s := by
    simp [Lexeme.kind]
  rw [text, ← kind]
  exact .lexeme split (.nil rest)

end Lexes

theorem Lexeme.cases_of_wordKind (word : String) :
    (∃ k : Keyword, wordKind word = .keyword k) ∨ wordKind word = .name word := by
  unfold wordKind
  split
  · exact .inl ⟨_, rfl⟩
  · exact .inr rfl

namespace Token.Kind.Legible

theorem name {s : String} (h : (Token.Kind.name s).Legible) :
    IsWord s.toList ∧ Lexeme.wordKind s = .name s := by
  obtain ⟨first, cs, after, l, split, kind⟩ := h
  rcases Lexeme.cases_of_split split with
    ⟨_, rfl, -⟩ | ⟨_, rfl, -⟩ | ⟨letter, rfl, -⟩ | ⟨-, rfl, -⟩
  · contradiction
  · contradiction
  · rcases Lexeme.cases_of_wordKind (.ofList (first :: cs.takeWhile isWordChar)) with
      ⟨k, keyword⟩ | name
    · exact absurd (keyword.symm.trans kind) (by simp)
    · obtain rfl := Token.Kind.name.inj (name.symm.trans kind)
      rw [String.toList_ofList]
      exact ⟨⟨first, _, rfl, letter, List.all_eq_true.1 List.all_takeWhile⟩, kind⟩
  · contradiction

theorem number {n : Number} (h : (Token.Kind.number n).Legible) :
    ∃ run : List Char, n = Lexeme.numberValue run := by
  obtain ⟨first, cs, after, l, split, kind⟩ := h
  rcases Lexeme.cases_of_split split with
    ⟨_, rfl, -⟩ | ⟨_, rfl, -⟩ | ⟨letter, rfl, -⟩ | ⟨-, rfl, -⟩
  · contradiction
  · contradiction
  · rcases Lexeme.cases_of_wordKind (.ofList (first :: cs.takeWhile isWordChar)) with
      ⟨k, keyword⟩ | name
    · exact absurd (keyword.symm.trans kind) (by simp)
    · exact absurd (name.symm.trans kind) (by simp)
  · exact ⟨_, (Token.Kind.number.inj kind).symm⟩

end Token.Kind.Legible

theorem Lexeme.length_unescape_le (body : List Char) : (unescape body).length ≤ body.length := by
  fun_induction unescape body with
  | case1 c rest ih | case2 c rest _ ih =>
      simp only [List.length_cons]
      omega
  | case3 => exact Nat.le_refl _

theorem Lexeme.length_le_of_kind_string {first : Char} {cs after : List Char} {l : Lexeme}
    {s : String} (h : split first cs = .ok (l, after)) (isString : l.kind = .string s) :
    s.length ≤ (first :: cs).length := by
  have whole := congrArg List.length (chars_append_of_split h)
  cases l with
  | string body =>
      cases isString
      have shorter := length_unescape_le body
      simp only [chars, List.length_append, List.length_cons] at whole
      rw [String.length_ofList, List.length_cons]
      omega
  | symbol | number => cases isString
  | word letters =>
      rw [kind] at isString
      rcases cases_of_wordKind (.ofList letters) with ⟨k, keyword⟩ | name
      · rw [keyword] at isString
        cases isString
      · rw [name] at isString
        cases isString

/-- A run denotes an integer of 64 bits or a double without a sign. -/
theorem Lexeme.cases_of_numberValue (run : List Char) :
    (∃ k : Nat, k < 2 ^ 63 ∧ numberValue run = .integer (.ofNat k)) ∨
      ∃ rank : Nat, numberValue run = .real (.ofRank false rank) := by
  unfold numberValue
  dsimp only
  split
  · next small => exact .inl ⟨_, small.2, rfl⟩
  · exact .inr ⟨_, rfl⟩

end PredicateLang
