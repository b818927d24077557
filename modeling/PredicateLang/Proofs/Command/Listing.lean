import Mathlib.Algebra.GroupWithZero.Nat
import PredicateLang.Command.Listing
import PredicateLang.Proofs.Printing.Text

/-!
# The lines of a listing

A listing of tokens is meant to be read line by line: what each line feed ends is the entry of one
token, and the digits at its head are the offset of that token. This holds exactly as long as no
token has a line feed in its own text, and only the content of a string can have one
(`tokenListing_spec`).
-/

namespace PredicateLang

def Token.Kind.lineFeeds : Token.Kind → Nat
  | .string s => s.toList.count '\n'
  | .symbol _ | .keyword _ | .name _ | .number _ => 0

def Token.entry (t : Token) : List Char :=
  List.replicate (4 - (numeral t.position).length) ' ' ++
    (numeral t.position ++ ' ' :: ' ' :: t.kind.text.toList)

def terminatedLines (text : String) : List (List Char) :=
  (text.toList.splitOn '\n').dropLast

/-- The numbers at the heads of the lines of a text, behind the blanks there. -/
def listedOffsets (text : String) : List Nat :=
  (terminatedLines text).map fun line =>
    ofNumeral ((line.dropWhile (· == ' ')).takeWhile Char.isDigit)

theorem not_mem_cons_of_class {p q : Char → Bool} {c first : Char} {more : List Char}
    (starts : p first = true) (all : ∀ c ∈ more, q c = true) (none : p c = false ∧ q c = false) :
    c ∉ first :: more := by
  intro found
  rcases List.mem_cons.1 found with rfl | behind
  · rw [none.1] at starts
    contradiction
  · have inside := all c behind
    rw [none.2] at inside
    contradiction

theorem lineFeed_not_mem_of_isWord {cs : List Char} (h : IsWord cs) : '\n' ∉ cs := by
  obtain ⟨first, more, rfl, letter, all⟩ := h
  exact not_mem_cons_of_class letter all (by decide)

theorem lineFeed_not_mem_of_isNumber {cs : List Char} (h : IsNumber cs) : '\n' ∉ cs := by
  obtain ⟨first, more, rfl, digit, all, -⟩ := h
  exact not_mem_cons_of_class digit all (by decide)

theorem lineFeed_not_mem_numeral (n : Nat) : '\n' ∉ numeral n :=
  fun found => absurd (isDigit_of_mem_numeral found) (by decide)

theorem Number.lineFeed_not_mem_text {n : Number} (h : (Token.Kind.number n).Legible) :
    '\n' ∉ n.text.toList := by
  rcases h.cases_number with ⟨k, small, rfl⟩ | ⟨x, rfl⟩ | rfl
  · exact lineFeed_not_mem_of_isNumber (text_spec_integer small).1
  · exact lineFeed_not_mem_of_isNumber (Double.text_spec x).1
  · decide

/-- Only the content of a string puts line feeds into the text of a token. -/
theorem Token.Kind.count_text {k : Token.Kind} (h : k.Legible) :
    k.text.toList.count '\n' = k.lineFeeds := by
  cases k with
  | symbol s => cases s <;> decide
  | keyword k => cases k <;> decide
  | name s =>
      have none := List.count_eq_zero.2 (lineFeed_not_mem_of_isWord h.name.1)
      simp [text, lineFeeds, none]
  | number n =>
      have none := List.count_eq_zero.2 (Number.lineFeed_not_mem_text h)
      simp [text, lineFeeds, none]
  | string s => simp [text, lineFeeds]

namespace Token

theorem toList_line (t : Token) : t.line.toList = t.entry ++ ['\n'] := by
  simp [line, entry, alignRight, natText]

theorem count_entry {t : Token} (h : t.kind.Legible) : t.entry.count '\n' = t.kind.lineFeeds := by
  have none := List.count_eq_zero.2 (lineFeed_not_mem_numeral t.position)
  simp [entry, none, Kind.count_text h, List.count_replicate]

theorem ofNumeral_entry (t : Token) :
    ofNumeral ((t.entry.dropWhile (· == ' ')).takeWhile Char.isDigit) = t.position := by
  have digits : ∀ c ∈ numeral t.position, c.isDigit = true := fun c => isDigit_of_mem_numeral
  have blanks : ∀ c ∈ List.replicate (4 - (numeral t.position).length) ' ', (c == ' ') = true :=
    fun c found => by rw [List.eq_of_mem_replicate found]; rfl
  have start : Stops (· == ' ') (numeral t.position ++ ' ' :: ' ' :: t.kind.text.toList) := by
    obtain ⟨first, more, same⟩ := List.exists_cons_of_ne_nil (numeral_ne_nil t.position)
    have other : first ≠ ' ' := by
      rintro rfl
      exact absurd (digits ' ' (by simp [same])) (by decide)
    rw [same, List.cons_append]
    refine .cons ?_ _
    exact beq_eq_false_iff_ne.2 other
  rw [entry, dropWhile_append_of_stops blanks start,
    takeWhile_append_of_stops digits (.cons (by decide) _), ofNumeral_numeral]

end Token

section

variable {c : Char} {parts : List (List Char)}

theorem length_splitOn (c : Char) (cs : List Char) : (cs.splitOn c).length = cs.count c + 1 := by
  induction cs with
  | nil => rfl
  | cons first cs ih =>
      rw [List.splitOn, List.splitOnP_cons_eq_if_modifyHead, List.count_cons, ← List.splitOn]
      split
      · rw [List.length_cons, ih]
      · rw [List.length_modifyHead, ih, Nat.add_zero]

theorem splitOn_flatMap (c : Char) (parts : List (List Char)) :
    (parts.flatMap (· ++ [c])).splitOn c = parts.flatMap (·.splitOn c) ++ [[]] := by
  induction parts with
  | nil => rfl
  | cons part parts ih =>
      rw [List.flatMap_cons, List.append_assoc, List.singleton_append,
        List.splitOn_append_cons_self, ih, List.flatMap_cons, List.append_assoc]

theorem length_flatMap_splitOn (c : Char) (parts : List (List Char)) :
    (parts.flatMap (·.splitOn c)).length = parts.length + (parts.map (List.count c)).sum := by
  induction parts with
  | nil => rfl
  | cons part parts ih =>
      rw [List.flatMap_cons, List.length_append, length_splitOn, ih, List.map_cons, List.sum_cons,
        List.length_cons]
      omega

theorem flatMap_splitOn_of_not_mem (h : ∀ part ∈ parts, c ∉ part) :
    parts.flatMap (·.splitOn c) = parts := by
  induction parts with
  | nil => rfl
  | cons part parts ih =>
      rw [List.flatMap_cons, List.splitOn_eq_singleton (h part (by simp)),
        ih fun other found => h other (by simp [found]), List.singleton_append]

end

def listingOf (tokens : List Token) : String :=
  .ofList ((tokens.map Token.entry).flatMap (· ++ ['\n']))

theorem linesOfItems_tokens (tokens : List Token) :
    linesOfItems (tokens.map .ok) = .ok (listingOf tokens) := by
  induction tokens with
  | nil => rfl
  | cons token tokens ih =>
      have joined : token.line ++ listingOf tokens = listingOf (token :: tokens) := by
        rw [← String.toList_inj, String.toList_append, Token.toList_line]
        simp [listingOf]
      rw [List.map_cons, linesOfItems, ih, ← joined]
      rfl

theorem linesOfItems_error (tokens : List Token) (e : ScanError) (rest : List ScanItem) :
    linesOfItems (tokens.map .ok ++ .error e :: rest) = .error e := by
  induction tokens with
  | nil => rfl
  | cons token tokens ih =>
      rw [List.map_cons, List.cons_append, linesOfItems, ih]
      rfl

theorem Cursor.items_cases (count : Nat) (c : Cursor) :
    ∃ tokens : List Token, items count c = tokens.map .ok ∨
      ∃ e : ScanError, items count c = tokens.map .ok ++ [.error e] := by
  induction count generalizing c with
  | zero => exact ⟨[], .inl rfl⟩
  | succ count ih =>
      rw [items]
      split
      · exact ⟨[], .inl rfl⟩
      · next item d found =>
          cases item with
          | error e =>
              rw [items_of_finished (finished_of_next_eq_error found)]
              exact ⟨[], .inr ⟨e, rfl⟩⟩
          | ok token =>
              obtain ⟨tokens, same | ⟨e, same⟩⟩ := ih d
              · exact ⟨token :: tokens, .inl (by rw [same]; rfl)⟩
              · exact ⟨token :: tokens, .inr ⟨e, by rw [same]; rfl⟩⟩

section

variable {tokens : List Token} (legible : ∀ t ∈ tokens, t.kind.Legible)

theorem terminatedLines_listingOf (tokens : List Token) :
    terminatedLines (listingOf tokens) = (tokens.map Token.entry).flatMap (·.splitOn '\n') := by
  rw [terminatedLines, listingOf, String.toList_ofList, splitOn_flatMap, List.dropLast_concat]

include legible

theorem length_terminatedLines : (terminatedLines (listingOf tokens)).length =
    tokens.length + (tokens.map fun t => t.kind.lineFeeds).sum := by
  have counts : (tokens.map Token.entry).map (List.count '\n') =
      tokens.map fun t => t.kind.lineFeeds := by
    rw [List.map_map]
    exact List.map_congr_left fun t found => Token.count_entry (legible t found)
  rw [terminatedLines_listingOf, length_flatMap_splitOn, counts, List.length_map]

/-- A listing with one line for each token is one without line feeds in strings. -/
theorem lineFeeds_of_length (h : (terminatedLines (listingOf tokens)).length = tokens.length) :
    ∀ t ∈ tokens, t.kind.lineFeeds = 0 := by
  rw [length_terminatedLines legible, Nat.add_eq_left, List.sum_eq_zero_iff_forall_eq_nat] at h
  exact fun t found => h _ (List.mem_map_of_mem found)

theorem terminatedLines_of_lineFeeds (h : ∀ t ∈ tokens, t.kind.lineFeeds = 0) :
    terminatedLines (listingOf tokens) = tokens.map Token.entry := by
  rw [terminatedLines_listingOf]
  refine flatMap_splitOn_of_not_mem fun part found => ?_
  obtain ⟨t, member, rfl⟩ := List.mem_map.1 found
  rw [← List.count_eq_zero, Token.count_entry (legible t member), h t member]

theorem listedOffsets_of_lineFeeds (h : ∀ t ∈ tokens, t.kind.lineFeeds = 0) :
    listedOffsets (listingOf tokens) = tokens.map Token.position := by
  rw [listedOffsets, terminatedLines_of_lineFeeds legible h, List.map_map]
  exact List.map_congr_left fun t _ => t.ofNumeral_entry

end

/-- A text without faults is listed as the entries of its tokens, each with a line feed behind it.
These are the lines of the listing, and the offsets at the heads of the lines are those of the
tokens, if and only if no string has a line feed in its content: each such line feed ends one line
more. A text with a fault has no listing, but the error of that fault. -/
theorem tokenListing_spec (source : String) :
    (∃ (tokens : List Token) (text : String), scan source = tokens.map .ok ∧
      tokenListing source = .ok text ∧
      text.toList = tokens.flatMap (fun t => t.entry ++ ['\n']) ∧
      (terminatedLines text).length =
        tokens.length + (tokens.map fun t => t.kind.lineFeeds).sum ∧
      (terminatedLines text = tokens.map Token.entry ↔ ∀ t ∈ tokens, t.kind.lineFeeds = 0) ∧
      (listedOffsets text = tokens.map Token.position ↔ ∀ t ∈ tokens, t.kind.lineFeeds = 0)) ∨
    ∃ (tokens : List Token) (e : ScanError), scan source = tokens.map .ok ++ [.error e] ∧
      tokenListing source = .error (.scan e) := by
  obtain ⟨tokens, scanned | ⟨e, scanned⟩⟩ := Cursor.items_cases source.length (.ofText source)
  · have legible : ∀ t ∈ tokens, t.kind.Legible := fun t found =>
      Cursor.legible_of_mem_items (.ofText source) (by
        rw [scanned]
        exact List.mem_map_of_mem found)
    refine .inl ⟨tokens, listingOf tokens, scanned, ?_, ?_, length_terminatedLines legible,
      ⟨fun same => ?_, terminatedLines_of_lineFeeds legible⟩,
      ⟨fun same => ?_, listedOffsets_of_lineFeeds legible⟩⟩
    · rw [tokenListing, scan, scanned, linesOfItems_tokens]
      rfl
    · rw [listingOf, String.toList_ofList, List.flatMap_map]
    · exact lineFeeds_of_length legible (by rw [same, List.length_map])
    · have length := congrArg List.length same
      rw [listedOffsets, List.length_map, List.length_map] at length
      exact lineFeeds_of_length legible length
  · refine .inr ⟨tokens, e, scanned, ?_⟩
    rw [tokenListing, scan, scanned, linesOfItems_error]
    rfl

/-- A string that goes over two lines takes two lines of the listing, and the second one has no
offset. -/
example : tokenListing "'a\nb' c" = .ok "   0  string 'a\nb'\n   6  identifier 'c'\n" ∧
    listedOffsets "   0  string 'a\nb'\n   6  identifier 'c'\n" = [0, 0, 6] :=
  ⟨by rfl, by decide⟩

end PredicateLang
