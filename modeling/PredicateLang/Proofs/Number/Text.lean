import PredicateLang.Proofs.Number.Rounding
import PredicateLang.Proofs.Scanning.Lexemes

/-!
# The text of a number

A number that a source can name is written as a run of digits with one dot at most, unless it is
infinite. An integer reads back as itself. A finite double reads back as itself too, unless its
text has no dot and denotes a number below `2 ^ 63`: then it reads back as that number, an
integer, and the double is the one nearest to it (`Double.text_spec`). This takes a double
that is whole and below `2 ^ 63`.
-/

namespace PredicateLang

theorem isDigit_of_mem_numeral {n : Nat} {c : Char} (h : c ∈ numeral n) : c.isDigit = true :=
  Nat.isDigit_of_mem_toDigits (by decide) (by decide) h

theorem numeral_ne_nil (n : Nat) : numeral n ≠ [] :=
  Nat.toDigits_ne_nil

theorem ofNumeral_append_zeros (cs : List Char) (k : Nat) :
    ofNumeral (cs ++ List.replicate k '0') = ofNumeral cs * 10 ^ k := by
  rw [ofNumeral, Nat.ofDigitChars_append, Nat.ofDigitChars_replicate_zero, Nat.mul_comm]
  rfl

theorem ofNumeral_zeros_append (k : Nat) (cs : List Char) :
    ofNumeral (List.replicate k '0' ++ cs) = ofNumeral cs := by
  rw [ofNumeral, Nat.ofDigitChars_append, Nat.ofDigitChars_replicate_zero, Nat.mul_zero]
  rfl

namespace Lexeme

variable {cs whole fraction : List Char}

theorem dot_not_mem (all : ∀ c ∈ cs, c.isDigit = true) : '.' ∉ cs :=
  fun found => absurd (all '.' found) (by decide)

theorem isNumberChar_of_isDigit {c : Char} (h : c.isDigit = true) : isNumberChar c = true := by
  simp [isNumberChar, h]

theorem isNumber_of_digits (some : cs ≠ []) (all : ∀ c ∈ cs, c.isDigit = true) : IsNumber cs := by
  have dots : cs.count '.' = 0 := List.count_eq_zero.2 (dot_not_mem all)
  obtain ⟨first, more, rfl⟩ := List.exists_cons_of_ne_nil some
  refine ⟨first, more, rfl, all first (List.mem_cons_self ..), ?_, by omega⟩
  exact fun c found => isNumberChar_of_isDigit (all c (List.mem_cons_of_mem _ found))

theorem isNumber_of_point (some : whole ≠ []) (all : ∀ c ∈ whole ++ fraction, c.isDigit = true) :
    IsNumber (whole ++ '.' :: fraction) := by
  have dots : (whole ++ '.' :: fraction).count '.' = 1 := by
    have none := List.count_eq_zero.2 (dot_not_mem all)
    rw [List.count_append] at none ⊢
    rw [List.count_cons_self]
    omega
  obtain ⟨first, more, rfl⟩ := List.exists_cons_of_ne_nil some
  refine ⟨first, more ++ '.' :: fraction, rfl, all first (by simp), ?_, Nat.le_of_eq dots⟩
  intro c found
  rcases List.mem_append.1 found with before | found
  · exact isNumberChar_of_isDigit (all c (by simp [before]))
  · rcases List.mem_cons.1 found with rfl | behind
    · decide
    · exact isNumberChar_of_isDigit (all c (by simp [behind]))

theorem numberValue_of_digits (all : ∀ c ∈ cs, c.isDigit = true) :
    numberValue cs = if ofNumeral cs < 2 ^ 63 then .integer (.ofNat (ofNumeral cs))
      else .real (.nearestDecimal false (ofNumeral cs) 0) := by
  have stops : Stops Char.isDigit [] := .nil
  have before := takeWhile_append_of_stops all stops
  have behind := dropWhile_append_of_stops all stops
  rw [List.append_nil] at before behind
  simp [numberValue, before, behind, dot_not_mem all]

theorem numberValue_of_point (all : ∀ c ∈ whole ++ fraction, c.isDigit = true) :
    numberValue (whole ++ '.' :: fraction) =
      .real (.nearestDecimal false (ofNumeral (whole ++ fraction)) (-fraction.length)) := by
  have digits : ∀ c ∈ whole, c.isDigit = true := fun c found => all c (by simp [found])
  have stops : Stops Char.isDigit ('.' :: fraction) := .cons (by decide) _
  simp [numberValue, takeWhile_append_of_stops digits stops,
    dropWhile_append_of_stops digits stops]

end Lexeme

theorem Decimal.withPoint_spec (down : Nat) {digits : List Char}
    (all : ∀ c ∈ digits, c.isDigit = true) :
    ∃ whole fraction : List Char, withPoint (down + 1) digits = whole ++ '.' :: fraction ∧
      whole ≠ [] ∧ fraction.length = down + 1 ∧ (∀ c ∈ whole ++ fraction, c.isDigit = true) ∧
      ofNumeral (whole ++ fraction) = ofNumeral digits := by
  let padded := List.replicate (down + 1 + 1 - digits.length) '0' ++ digits
  have long : down + 2 ≤ padded.length := by
    simp only [padded, List.length_append, List.length_replicate]
    omega
  refine ⟨padded.take (padded.length - (down + 1)), padded.drop (padded.length - (down + 1)),
    rfl, ?_, ?_, ?_, ?_⟩
  · refine List.ne_nil_of_length_pos ?_
    rw [List.length_take]
    omega
  · rw [List.length_drop]
    omega
  · rw [List.take_append_drop]
    intro c found
    rcases List.mem_append.1 found with zero | digit
    · rw [List.eq_of_mem_replicate zero]
      decide
    · exact all c digit
  · rw [List.take_append_drop]
    exact ofNumeral_zeros_append _ _

theorem Number.toList_text_integer {k : Nat} (small : k < 2 ^ 63) :
    (Number.integer (.ofNat k)).text.toList = numeral k := by
  have positive : ¬ ((k : Int) < 0) := by omega
  simp [Number.text, intText, Int64.toInt_ofNat_of_lt small, positive]

theorem Number.text_spec_integer {k : Nat} (small : k < 2 ^ 63) :
    IsNumber (Number.integer (.ofNat k)).text.toList ∧
      Lexeme.numberValue (Number.integer (.ofNat k)).text.toList = .integer (.ofNat k) := by
  have digits : ∀ c ∈ numeral k, c.isDigit = true := fun c => isDigit_of_mem_numeral
  rw [toList_text_integer small]
  refine ⟨Lexeme.isNumber_of_digits (numeral_ne_nil k) digits, ?_⟩
  rw [Lexeme.numberValue_of_digits digits, ofNumeral_numeral, if_pos small]

theorem Double.ofRank_val (x : Magnitude) : ofRank false x.val = .finite false x := by
  simp [ofRank, x.isLt]

/-- The text of a decimal that reads back as a double is read as that double, or as an integer
that the double is nearest to. -/
theorem Decimal.written_spec {d : Decimal} {x : Magnitude}
    (h : nearestDecimalRank d.digits d.exponent = x.val) :
    IsNumber (d.written false) ∧
      (Lexeme.numberValue (d.written false) = .real (.finite false x) ∨
        ∃ n < 2 ^ 63, Lexeme.numberValue (d.written false) = .integer (.ofNat n) ∧
          x.val = nearestRank n 1) := by
  obtain ⟨digits, exponent⟩ := d
  have numerals : ∀ c ∈ numeral digits, c.isDigit = true := fun c => isDigit_of_mem_numeral
  cases exponent with
  | ofNat up =>
      have written : (Decimal.mk digits (.ofNat up)).written false =
          numeral digits ++ List.replicate up '0' := by simp [Decimal.written]
      have value : ofNumeral (numeral digits ++ List.replicate up '0') = digits * 10 ^ up := by
        rw [ofNumeral_append_zeros, ofNumeral_numeral]
      have all : ∀ c ∈ numeral digits ++ List.replicate up '0', c.isDigit = true := by
        intro c found
        rcases List.mem_append.1 found with digit | zero
        · exact numerals c digit
        · rw [List.eq_of_mem_replicate zero]
          decide
      have some : numeral digits ++ List.replicate up '0' ≠ [] := by simp [numeral_ne_nil]
      rw [written]
      refine ⟨Lexeme.isNumber_of_digits some all, ?_⟩
      rw [Lexeme.numberValue_of_digits all, value]
      split
      · next small => exact .inr ⟨_, small, rfl, h.symm⟩
      · left
        have rank : nearestDecimalRank (digits * 10 ^ up) 0 = x.val := by
          rw [← h]
          simp [nearestDecimalRank]
        rw [Double.nearestDecimal, rank, Double.ofRank_val]
  | negSucc down =>
      obtain ⟨whole, fraction, point, some, places, all, value⟩ := withPoint_spec down numerals
      have written : (Decimal.mk digits (.negSucc down)).written false =
          whole ++ '.' :: fraction := by rw [← point, Decimal.written]
      rw [written]
      refine ⟨Lexeme.isNumber_of_point some all, .inl ?_⟩
      rw [Lexeme.numberValue_of_point all, value, ofNumeral_numeral, places, Double.nearestDecimal,
        show (-((down + 1 : Nat) : Int)) = .negSucc down from rfl, h, Double.ofRank_val]

theorem Double.toList_text (x : Magnitude) :
    (Double.finite false x).text.toList = (x.shortest .up).written false := by
  simp [Double.text, finiteText, Decimal.chars, plainStyle]

/-- The text of a finite double without a sign is a number. It reads back as that double, or as an
integer that the double is nearest to. -/
theorem Double.text_spec (x : Magnitude) :
    IsNumber (Double.finite false x).text.toList ∧
      (Lexeme.numberValue (Double.finite false x).text.toList = .real (.finite false x) ∨
        ∃ n < 2 ^ 63, Lexeme.numberValue (Double.finite false x).text.toList =
          .integer (.ofNat n) ∧ x.val = nearestRank n 1) := by
  rw [toList_text]
  exact Decimal.written_spec (x.readsBack_shortest .up)

def Magnitude.twoPow63 : Magnitude := ⟨1086 * 2 ^ 52, by decide⟩

theorem Magnitude.units_twoPow63 : twoPow63.units = 2 ^ 63 * oneUnits := by
  decide +kernel

theorem Double.numberValue_text {x : Magnitude}
    (h : ¬ oneUnits ∣ x.units ∨ 2 ^ 63 * oneUnits ≤ x.units) :
    Lexeme.numberValue (Double.finite false x).text.toList = .real (.finite false x) := by
  obtain ⟨-, real | ⟨n, small, integer, nearest⟩⟩ := text_spec x
  · exact real
  · rcases h with broken | large
    · exact absurd (whole_of_nearestRank nearest) broken
    · have limit : x.units = Magnitude.twoPow63.units := by
        rw [Magnitude.units_twoPow63]
        exact Nat.le_antisymm (units_le_of_lt small nearest) large
      obtain rfl := Magnitude.units_injective limit
      -- The shortest digits of this double denote a number that 64 bits do not hold.
      rw [toList_text]
      decide +kernel

def Magnitude.twoPow53 : Magnitude := ⟨1076 * 2 ^ 52, by decide⟩

theorem Magnitude.units_twoPow53 : twoPow53.units = 2 ^ 53 * oneUnits := by
  decide +kernel

/-- A double up to `2 ^ 53` reads back as itself or as an integer of its value. -/
theorem Double.numberValue_text_of_le {x : Magnitude} (h : x.units ≤ 2 ^ 53 * oneUnits) :
    Lexeme.numberValue (Double.finite false x).text.toList = .real (.finite false x) ∨
      ∃ n < 2 ^ 63, Lexeme.numberValue (Double.finite false x).text.toList =
        .integer (.ofNat n) ∧ x.units = n * oneUnits := by
  obtain ⟨-, real | ⟨n, small, integer, nearest⟩⟩ := text_spec x
  · exact .inl real
  · by_cases exact : n < 2 ^ 53
    · exact .inr ⟨n, small, integer, units_of_lt exact nearest⟩
    · have limit : x.units = Magnitude.twoPow53.units := by
        rw [Magnitude.units_twoPow53]
        exact Nat.le_antisymm h (le_units_of_le (Nat.le_of_not_lt exact) nearest)
      obtain rfl := Magnitude.units_injective limit
      refine .inr ⟨2 ^ 53, by decide, ?_, Magnitude.units_twoPow53⟩
      rw [toList_text]
      decide +kernel

end PredicateLang
