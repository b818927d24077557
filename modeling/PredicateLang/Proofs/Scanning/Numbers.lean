import PredicateLang.Proofs.Number.Overflow
import PredicateLang.Proofs.Number.Text
import PredicateLang.Proofs.Scanning.Quotes
import PredicateLang.Proofs.Scanning.Tiling

/-!
# Numbers

A text that starts with a digit is read as a number up to the end of its run of digits and dots.
`decimalFrom 0 run` is the number that the run denotes, digit by digit: in front of the dot, every
digit makes ten of what stands before it, and behind the dot, a tenth of what stands after it.

By `Cursor.reads_numbers` the token is that number if it is whole, written without a dot and held by
64 bits, and the double that it is rounded to otherwise. How many digits the run has, and how many
of them are leading zeros, has no part in that.
-/

namespace PredicateLang

def fractionValue : List Char → ℚ
  | [] => 0
  | c :: cs => ((c.toNat - '0'.toNat : Nat) + fractionValue cs) / 10

/-- The number that a run of digits with one dot at most denotes, where the digits in front of the
run make up the number `front`. -/
def decimalFrom (front : Nat) : List Char → ℚ
  | [] => front
  | c :: cs =>
      if c = '.' then front + fractionValue cs
      else decimalFrom (10 * front + (c.toNat - '0'.toNat)) cs

section

variable {cs whole fraction : List Char}

theorem decimalFrom_of_digits (all : ∀ c ∈ cs, c.isDigit = true) (front : Nat) :
    decimalFrom front cs = Nat.ofDigitChars 10 cs front := by
  induction cs generalizing front with
  | nil => rfl
  | cons c cs ih =>
      have other : c ≠ '.' := by
        rintro rfl
        exact absurd (all '.' (List.mem_cons_self ..)) (by decide)
      rw [decimalFrom, if_neg other, Nat.ofDigitChars_cons,
        ih fun c found => all c (List.mem_cons_of_mem _ found)]

theorem decimalFrom_append_dot (all : ∀ c ∈ whole, c.isDigit = true) (fraction : List Char)
    (front : Nat) :
    decimalFrom front (whole ++ '.' :: fraction) =
      Nat.ofDigitChars 10 whole front + fractionValue fraction := by
  induction whole generalizing front with
  | nil => exact if_pos rfl
  | cons c cs ih =>
      have other : c ≠ '.' := by
        rintro rfl
        exact absurd (all '.' (List.mem_cons_self ..)) (by decide)
      rw [List.cons_append, decimalFrom, if_neg other, Nat.ofDigitChars_cons,
        ih fun c found => all c (List.mem_cons_of_mem _ found)]

theorem add_fractionValue (front : Nat) (cs : List Char) :
    front + fractionValue cs = Nat.ofDigitChars 10 cs front / 10 ^ cs.length := by
  induction cs generalizing front with
  | nil => simp [fractionValue]
  | cons c cs ih =>
      have next := ih (10 * front + (c.toNat - '0'.toNat))
      rw [fractionValue, Nat.ofDigitChars_cons, List.length_cons, pow_succ, ← div_div, ← next,
        Nat.cast_add, Nat.cast_mul, Nat.cast_ofNat]
      ring

theorem decimalFrom_point (all : ∀ c ∈ whole, c.isDigit = true) (fraction : List Char) :
    decimalFrom 0 (whole ++ '.' :: fraction) =
      ofNumeral (whole ++ fraction) / 10 ^ fraction.length := by
  rw [decimalFrom_append_dot all, add_fractionValue, ← Nat.ofDigitChars_append]
  rfl

end

namespace Lexeme

variable {run : List Char}

theorem isDigit_of_isNumberChar {c : Char} (h : isNumberChar c = true) (other : c ≠ '.') :
    c.isDigit = true := by
  simpa [isNumberChar, other] using h

theorem numberValue_integer (all : ∀ c ∈ run, c.isDigit = true)
    (small : decimalFrom 0 run ≤ 2 ^ 63 - 1) :
    ∃ n : Int64, (n.toInt : ℚ) = decimalFrom 0 run ∧ numberValue run = .integer n := by
  have value : decimalFrom 0 run = ofNumeral run := decimalFrom_of_digits all 0
  have small : ofNumeral run < 2 ^ 63 := by
    have : (ofNumeral run : ℚ) < 2 ^ 63 := by linarith
    exact_mod_cast this
  refine ⟨.ofNat (ofNumeral run), ?_, by rw [numberValue_of_digits all, if_pos small]⟩
  rw [value, Int64.toInt_ofNat_of_lt small, Int.cast_natCast]

theorem numberValue_large (all : ∀ c ∈ run, c.isDigit = true)
    (large : 2 ^ 63 - 1 < decimalFrom 0 run) :
    ∃ x : Double, x.IsRounded (decimalFrom 0 run) ∧ numberValue run = .real x := by
  have value : decimalFrom 0 run = ofNumeral run := decimalFrom_of_digits all 0
  have large : ¬ ofNumeral run < 2 ^ 63 := by
    intro small
    have : (ofNumeral run : ℚ) + 1 ≤ 2 ^ 63 := by exact_mod_cast small
    linarith
  have rounded := Double.isRounded_nearestDecimal (ofNumeral run) 0
  rw [pow_zero, div_one, ← value] at rounded
  exact ⟨_, rounded, by rw [numberValue_of_digits all, if_neg large]; rfl⟩

theorem numberValue_dotted (all : ∀ c ∈ run, isNumberChar c = true) (dot : run.count '.' = 1) :
    ∃ x : Double, x.IsRounded (decimalFrom 0 run) ∧ numberValue run = .real x := by
  obtain ⟨whole, fraction, rfl⟩ := List.append_of_mem
    (List.count_pos_iff.1 (show 0 < run.count '.' by omega))
  rw [List.count_append, List.count_cons_self] at dot
  have digits : ∀ c ∈ whole ++ fraction, c.isDigit = true := by
    intro c found
    refine isDigit_of_isNumberChar (all c ?_) ?_
    · rcases List.mem_append.1 found with before | behind
      · exact List.mem_append_left _ before
      · exact List.mem_append_right _ (List.mem_cons_of_mem _ behind)
    · rintro rfl
      have := List.count_pos_iff.2 found
      rw [List.count_append] at this
      omega
  rw [decimalFrom_point fun c found => digits c (List.mem_append_left _ found)]
  exact ⟨_, Double.isRounded_nearestDecimal _ _, numberValue_of_point digits⟩

end Lexeme

namespace Cursor

/-- A cursor finds a malformed number only where a digit stands behind blanks, in front of a run
with two dots or more. -/
theorem exists_digits_of_malformed {c : Cursor} {call : Call} {p : Nat}
    (h : (c.answer call).1 = some (.error (.malformedNumber p))) :
    ∃ blanks text : List Char, c.rest = blanks ++ text ∧ (∀ b ∈ blanks, isBlank b = true) ∧
      p = c.position + byteLength blanks ∧ (∃ first ∈ text.head?, first.isDigit = true) ∧
      2 ≤ (text.takeWhile isNumberChar).count '.' := by
  have malformed : (next { c with finished := false }).1 = some (.error (.malformedNumber p)) := by
    cases call with
    | next =>
        have live : c.finished = false := finished_of_next_eq_some (Prod.ext h rfl)
        rwa [answer_next, ← live] at *
    | read =>
        rw [fst_next rfl, read_withFinished]
        exact h
  obtain ⟨blanks, text, ahead⟩ := exists_ahead (c := { c with finished := false }) rfl
  obtain ⟨place, digit, dots⟩ := (ahead.malformed p).1 malformed
  exact ⟨blanks, text, ahead.rest, ahead.allBlank, place, digit, dots⟩

/-- Number literals denote their decimal value. Let a text start with a digit, and let `run` be its
longest run of digits and dots.

If the run has no dot and denotes at most `2 ^ 63 - 1`, then the token is that integer. If it has no
dot and denotes more, or has one dot, then the token is the double that its number is rounded to. In
both cases the token takes all of the run. If the run has two dots or more, then the number is
malformed, and the cursor stays. A number is malformed nowhere else. -/
theorem reads_numbers (call : Call) :
    (∀ (text run after : List Char) (position : Nat),
      (∃ first ∈ text.head?, first.isDigit = true) → text.span isNumberChar = (run, after) →
      (run.count '.' = 0 → decimalFrom 0 run ≤ 2 ^ 63 - 1 →
        ∃ n : Int64, (n.toInt : ℚ) = decimalFrom 0 run ∧
          answer ⟨text, position, false⟩ call =
            (some (.ok ⟨.number (.integer n), position⟩),
              ⟨after, position + byteLength run, false⟩)) ∧
      (run.count '.' = 0 ∧ 2 ^ 63 - 1 < decimalFrom 0 run ∨ run.count '.' = 1 →
        ∃ x : Double, x.IsRounded (decimalFrom 0 run) ∧
          answer ⟨text, position, false⟩ call =
            (some (.ok ⟨.number (.real x), position⟩),
              ⟨after, position + byteLength run, false⟩)) ∧
      (2 ≤ run.count '.' →
        (answer ⟨text, position, false⟩ call).1 = some (.error (.malformedNumber position)) ∧
          (answer ⟨text, position, false⟩ call).2.position = position)) ∧
    ∀ (c : Cursor) (p : Nat), (c.answer call).1 = some (.error (.malformedNumber p)) →
      ∃ blanks text : List Char, c.rest = blanks ++ text ∧ (∀ b ∈ blanks, isBlank b = true) ∧
        p = c.position + byteLength blanks ∧ (∃ first ∈ text.head?, first.isDigit = true) ∧
        2 ≤ (text.takeWhile isNumberChar).count '.' := by
  refine ⟨?_, fun c p => exists_digits_of_malformed⟩
  rintro (_ | ⟨first, cs⟩) run after position ⟨_, ⟨⟩, digit⟩ span
  have starts : isNumberChar first = true := Lexeme.isNumberChar_of_isDigit digit
  rw [List.span_eq_takeWhile_dropWhile, List.takeWhile_cons_of_pos starts,
    List.dropWhile_cons_of_pos starts] at span
  obtain ⟨rfl, rfl⟩ := Prod.mk.inj span
  have all : ∀ c ∈ first :: cs.takeWhile isNumberChar, isNumberChar c = true := by
    rintro c (_ | ⟨_, found⟩)
    · exact starts
    · exact all_takeWhile _ _ c found
  have split := Lexeme.split_of_isDigit digit cs
  generalize first :: cs.takeWhile isNumberChar = run at *
  have digits (none : run.count '.' = 0) : ∀ c ∈ run, c.isDigit = true := fun c found =>
    Lexeme.isDigit_of_isNumberChar (all c found) (ne_of_mem_of_not_mem found
      (List.count_eq_zero.1 none))
  have token (one : run.count '.' ≤ 1) : answer ⟨first :: cs, position, false⟩ call =
      (some (.ok ⟨.number (Lexeme.numberValue run), position⟩),
        ⟨cs.dropWhile isNumberChar, position + byteLength run, false⟩) := by
    rw [if_neg (Nat.not_lt.2 one)] at split
    exact answer_lexeme split position call
  refine ⟨fun none small => ?_, ?_, fun dots => ?_⟩
  · obtain ⟨n, value, isInteger⟩ := Lexeme.numberValue_integer (digits none) small
    exact ⟨n, value, isInteger ▸ token (by omega)⟩
  · rintro (⟨none, large⟩ | one)
    · obtain ⟨x, rounded, isReal⟩ := Lexeme.numberValue_large (digits none) large
      exact ⟨x, rounded, isReal ▸ token (by omega)⟩
    · obtain ⟨x, rounded, isReal⟩ := Lexeme.numberValue_dotted all one
      exact ⟨x, rounded, isReal ▸ token (by omega)⟩
  · rw [if_pos (show 1 < _ from dots)] at split
    have failed := answer_fault split (isBlank_eq_false_of_isDigit digit) position call
    exact ⟨failed, position_eq_of_fault (Prod.ext failed rfl) (by rintro p ⟨⟩)⟩

/-- The largest integer of 64 bits behind two zeros is an integer, the number after it is a double,
and a number with two dots is malformed. -/
theorem reads_numbers_boundary :
    decimalFrom 0 "009223372036854775807".toList = 2 ^ 63 - 1 ∧
    (∃ n : Int64, (n.toInt : ℚ) = 2 ^ 63 - 1 ∧
      (ofText "009223372036854775807 a").next =
        (some (.ok ⟨.number (.integer n), 0⟩), ⟨" a".toList, 21, false⟩)) ∧
    decimalFrom 0 "9223372036854775808".toList = 2 ^ 63 ∧
    (∃ x : Double, x.IsRounded (2 ^ 63) ∧
      (ofText "9223372036854775808 a").next =
        (some (.ok ⟨.number (.real x), 0⟩), ⟨" a".toList, 19, false⟩)) ∧
    (ofText "1.2.3 a").next.1 = some (.error (.malformedNumber 0)) ∧
    ∃ blanks text : List Char, "1.2.3 a".toList = blanks ++ text ∧
      2 ≤ (text.takeWhile isNumberChar).count '.' := by
  have last : decimalFrom 0 "009223372036854775807".toList = 2 ^ 63 - 1 := by decide +kernel
  have beyond : decimalFrom 0 "9223372036854775808".toList = 2 ^ 63 := by decide +kernel
  have held := ((reads_numbers .next).1 "009223372036854775807 a".toList
    "009223372036854775807".toList " a".toList 0 ⟨'0', rfl, rfl⟩ rfl).1 rfl last.le
  have rounded := ((reads_numbers .next).1 "9223372036854775808 a".toList
    "9223372036854775808".toList " a".toList 0 ⟨'9', rfl, rfl⟩ rfl).2.1
    (.inl ⟨rfl, beyond ▸ by norm_num⟩)
  have malformed := (((reads_numbers .next).1 "1.2.3 a".toList "1.2.3".toList " a".toList 0
    ⟨'1', rfl, rfl⟩ rfl).2.2 (by decide)).1
  obtain ⟨blanks, text, rest, -, -, -, dots⟩ :=
    (reads_numbers .next).2 (ofText "1.2.3 a") 0 malformed
  rw [last] at held
  rw [beyond] at rounded
  exact ⟨last, held, beyond, rounded, malformed, blanks, text, rest, dots⟩

end Cursor

end PredicateLang
