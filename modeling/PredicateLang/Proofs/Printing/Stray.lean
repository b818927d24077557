import Mathlib.Data.List.Chain
import PredicateLang.Proofs.Printing.Text
import PredicateLang.Proofs.Reading.Interruption

/-!
# Texts that are not read

The text of a tree in which a plain dot follows a finite number is never read. Up to that number it
is like the text of any other tree (`Expr.Legible.takesDot`), but then the dot is taken for a part
of the number: either it is the second one, which is a fault, or the name of the field follows the
number without a symbol between them, and in an expression no two tokens do that
(`Phrase.Derives.isChain`). If the tree is not too high, this is the error that reading meets
(`TakesDot.ofText`).
-/

namespace PredicateLang

def Token.Kind.Joined (k k' : Token.Kind) : Prop :=
  (∃ s : Symbol, k = .symbol s) ∨ ∃ s : Symbol, k' = .symbol s

theorem isChain_around_symbol {ks ks' : List Token.Kind} {s : Symbol}
    (h : ks.IsChain Token.Kind.Joined) (h' : ks'.IsChain Token.Kind.Joined) :
    (ks ++ .symbol s :: ks').IsChain Token.Kind.Joined := by
  refine h.append (List.isChain_cons.2 ⟨fun k _ => .inl ⟨s, rfl⟩, h'⟩) ?_
  rintro k _ _ ⟨⟩
  exact .inr ⟨s, rfl⟩

/-- In an expression no two tokens follow each other without a symbol. -/
theorem Phrase.Derives.isChain {p : Phrase} {ks : List Token.Kind} {e : Expr}
    (h : p.Derives ks e) : ks.IsChain Token.Kind.Joined := by
  induction h with
  | expr _ ih | first _ _ ih | plain _ ih | base _ ih => exact ih
  | link op _ _ ihLeft ihRight => exact isChain_around_symbol ihLeft ihRight
  | not _ ih => exact isChain_around_symbol List.IsChain.nil ih
  | field kind s _ ih => exact isChain_around_symbol ih (.singleton _)
  | number | string | name | null | undefined | true | false => exact .singleton _
  | group _ ih => exact isChain_around_symbol List.IsChain.nil (isChain_around_symbol ih .nil)

/-- A text is read as a tree is, up to a number at the start of a group that takes the dot behind
it. What this number is read as makes no difference to the height of the tree. -/
def TakesDot (cs : List Char) (tree : Expr) : Prop :=
  ∃ (n : Number) (s : String) (ks ks' : List Token.Kind) (rest : List Char),
    ((Token.Kind.number n).Legible ∧ n.isFinite = true ∧ (Token.Kind.name s).Legible ∧
      Stops isWordChar rest) ∧
    Lexes cs (ks ++ [.symbol .openParen]) (n.text.toList ++ '.' :: (s.toList ++ rest)) ∧
    ∀ m : Number, ∃ tree' : Expr, tree'.height = tree.height ∧
      Phrase.primary.Derives (ks ++ .symbol .openParen :: .number m :: ks') tree'

/-- A part of a text takes a dot, and so does the whole, whose tree is no other than that of the
part would have it. -/
theorem TakesDot.around {cs mid : List Char} {inner outer : Expr} {before : List Token.Kind}
    (h : TakesDot mid inner) (lexes : Lexes cs before mid) (after : List Token.Kind)
    (wraps : ∀ (ks : List Token.Kind) (inner' : Expr), inner'.height = inner.height →
      Phrase.primary.Derives ks inner' → ∃ outer' : Expr, outer'.height = outer.height ∧
        Phrase.primary.Derives (before ++ (ks ++ after)) outer') : TakesDot cs outer := by
  obtain ⟨n, s, ks, ks', rest, legible, upTo, trees⟩ := h
  refine ⟨n, s, before ++ ks, ks' ++ after, rest, legible, ?_, fun m => ?_⟩
  · rw [List.append_assoc]
    exact lexes.trans upTo
  · obtain ⟨inner', same, derives⟩ := trees m
    simpa using wraps _ inner' same derives

namespace Expr

theorem isNumber_text {n : Number} (h : (Token.Kind.number n).Legible)
    (finite : n.isFinite = true) : IsNumber n.text.toList := by
  rcases h.cases_number with ⟨k, small, rfl⟩ | ⟨x, rfl⟩ | rfl
  · exact (Number.text_spec_integer small).1
  · exact (Double.text_spec x).1
  · contradiction

/-- A number that takes the dot of an access is a fault, or the name of the field follows it. -/
theorem cases_of_dot {n : Number} {s : String} (h : (Token.Kind.number n).Legible)
    (finite : n.isFinite = true) (isName : (Token.Kind.name s).Legible) {rest : List Char}
    (stops : Stops isWordChar rest) :
    (∃ (first : Char) (more : List Char), isBlank first = false ∧
      n.text.toList ++ '.' :: (s.toList ++ rest) = first :: more ∧
      Lexeme.split first more = .error .malformedNumber) ∨
    ∃ m : Number, Lexes (n.text.toList ++ '.' :: (s.toList ++ rest)) [.number m, .name s] rest := by
  obtain ⟨first, more, run, digit, all, dots⟩ := isNumber_text h finite
  obtain ⟨word, isName⟩ := isName.name
  have longer : ∀ c ∈ more ++ ['.'], isNumberChar c = true := by
    intro c found
    rcases List.mem_append.1 found with before | dot
    · exact all c before
    · rw [List.mem_singleton.1 dot]
      decide
  have ends : Stops isNumberChar (s.toList ++ rest) := by
    obtain ⟨letter, letters, same, alpha, -⟩ := word
    rw [same]
    exact .cons (isNumberChar_eq_false_of_isAlpha alpha) _
  have text : n.text.toList ++ '.' :: (s.toList ++ rest) =
      first :: ((more ++ ['.']) ++ (s.toList ++ rest)) := by simp [run]
  have split := Lexeme.split_run digit longer ends
  rw [text]
  split at split
  · exact .inl ⟨first, _, isBlank_eq_false_of_isDigit digit, rfl, split⟩
  · have name := Lexes.word_of_text word stops
    rw [isName] at name
    exact .inr ⟨_, .lexeme split name⟩

theorem height_parenthesized_reread (n : Number) : n.reread.parenthesized.height = 1 := by
  unfold Number.reread
  split <;> rfl

theorem Legible.exists_derives {e : Expr} (h : e.Legible) :
    ∃ ks : List Token.Kind, Phrase.primary.Derives ks e.reread.parenthesized := by
  induction e with
  | name s => exact ⟨_, .name s⟩
  | literal v =>
      obtain ⟨ks, derives, -⟩ := readsAs_literal h
      exact ⟨ks, derives⟩
  | not e ih =>
      obtain ⟨ks, derives⟩ := ih h
      exact ⟨_, derives.parens_not⟩
  | binary op left right ihLeft ihRight =>
      obtain ⟨ks, derives⟩ := ihLeft h.1
      obtain ⟨ks', derives'⟩ := ihRight h.2
      exact ⟨_, .parens_binary op derives derives'⟩
  | access kind base field ih _ =>
      obtain ⟨legible, s, rfl, -⟩ := h
      obtain ⟨ks, derives⟩ := ih legible
      exact ⟨_, derives.parens_access kind s⟩
  | group e ih =>
      obtain ⟨ks, derives⟩ := ih h
      exact ⟨_, derives.parens⟩

theorem Legible.takesDot {e : Expr} (h : e.Legible) (unclear : ¬ e.DotsClear) (rest : List Char) :
    TakesDot (e.text.toList ++ rest) e.reread.parenthesized := by
  induction e generalizing rest with
  | name | literal =>
      refine absurd ?_ unclear
      rintro n ⟨⟩
  | not e ih =>
      rw [toList_text_not]
      refine (ih h unclear (')' :: rest)).around
        ((Lexes.symbol .openParen _).trans (Lexes.symbol .exclamation _))
        [.symbol .closeParen] fun ks inner' same derives => ⟨group (not inner'), ?_, ?_⟩
      · simp only [reread, parenthesized, height, same]
      · exact derives.parens_not
  | binary op left right ihLeft ihRight =>
      rw [toList_text_binary, List.append_assoc]
      -- A clear left operand is read, and then the dot is in the right one.
      by_cases clear : left.DotsClear
      · have unclear : ¬ right.DotsClear := fun other =>
          unclear (dotsClear_binary_iff.2 ⟨clear, other⟩)
        obtain ⟨ks, derives, lexes⟩ := h.1.readsAs clear
        have toRight := (Lexes.symbol op.symbol _).trans
          (.blank (c := ' ') rfl (.nil (right.text.toList ++ ')' :: rest)))
        have toOperator := (lexes _ (.cons left rfl (by decide) _)).trans
          (.blank (c := ' ') rfl toRight)
        have fromStart := (Lexes.symbol .openParen _).trans toOperator
        rw [show Symbol.openParen.chars = ['('] from rfl] at fromStart
        refine (ihRight h.2 unclear (')' :: rest)).around (by simpa using fromStart)
          [.symbol .closeParen] fun ks' inner' same derives' =>
            ⟨group (binary op left.reread.parenthesized inner'), ?_, ?_⟩
        · simp only [reread, parenthesized, height, same]
        · simpa [Symbol.chars] using Phrase.Derives.parens_binary op derives derives'
      · obtain ⟨ks, derives⟩ := h.2.exists_derives
        refine (ihLeft h.1 clear _).around (Lexes.symbol .openParen _)
          (.symbol op.symbol :: (ks ++ [.symbol .closeParen])) fun ks' inner' same derives' =>
            ⟨group (binary op inner' right.reread.parenthesized), ?_, ?_⟩
        · simp only [reread, parenthesized, height, same]
        · simpa using Phrase.Derives.parens_binary op derives' derives
  | access kind base field ih _ =>
      obtain ⟨legible, s, rfl, isName⟩ := h
      rw [toList_text_access, List.append_assoc]
      by_cases clear : base.DotsClear
      · obtain ⟨rfl, n, rfl, finite⟩ : kind = .strict ∧
            ∃ n : Number, base = literal (.number n) ∧ n.isFinite = true := by
          simpa [dotsClear_access_iff, clear] using unclear
        refine ⟨n, s, [], [.symbol .dot, .name s, .symbol .closeParen], ')' :: rest,
          ⟨legible.number, finite, isName, .cons rfl rest⟩, ?_, fun m =>
            ⟨group (access .strict (literal (.number m)) (name s)), ?_, ?_⟩⟩
        · simpa [text, literalText, Value.text, Access.symbol, Symbol.chars] using
            Lexes.symbol .openParen (n.text.toList ++ '.' :: (s.toList ++ ')' :: rest))
        · simp only [reread, parenthesized, height, height_parenthesized_reread]
        · exact .parens_access .strict s (.number m)
      · refine (ih legible clear _).around (Lexes.symbol .openParen _)
          [.symbol kind.symbol, .name s, .symbol .closeParen] fun ks inner' same derives =>
            ⟨group (access kind inner' (name s)), ?_, ?_⟩
        · simp only [reread, parenthesized, height, same]
        · simpa using derives.parens_access kind s
  | group e ih =>
      rw [toList_text_group]
      refine (ih h unclear (')' :: rest)).around (Lexes.symbol .openParen _)
        [.symbol .closeParen] fun ks inner' same derives => ⟨group inner', ?_, ?_⟩
      · simp only [reread, parenthesized, height, same]
      · exact derives.parens

end Expr

section

variable {source : String} {tree : Expr} (h : TakesDot source.toList tree)

include h

theorem TakesDot.ofText_ne_ok (e : Expr) : Expr.ofText source ≠ .ok e := by
  obtain ⟨n, s, ks, ks', rest, ⟨isNumber, finite, isName, stops⟩, lexes, -⟩ := h
  intro read
  obtain ⟨tokens, scanned, derives⟩ := Expr.exists_tokens_of_ofText read
  rcases Expr.cases_of_dot isNumber finite isName stops with
    ⟨first, more, blank, same, split⟩ | ⟨m, joined⟩
  · rw [same] at lexes
    obtain ⟨before, position, behind, -, faulty⟩ := scan_of_lexes_fault lexes blank split
    rw [Expr.ofText, faulty] at read
    exact Expr.ofItems_fault_ne_ok before e read
  · obtain ⟨before, count, position, kinds, -, -, same⟩ :=
      Cursor.items_of_lexes (lexes.trans joined) (Nat.le_of_eq String.length_toList) 0
    have both : tokens.map Except.ok = before.map .ok ++ _ := scanned.symm.trans same
    obtain ⟨before', behind, rfl, same', -⟩ := List.map_eq_append_iff.1 both
    obtain rfl := (List.map_inj_right fun _ _ h => Except.ok.inj h).1 same'
    rw [List.map_append, kinds] at derives
    obtain ⟨_, ⟨⟩⟩ | ⟨_, ⟨⟩⟩ :=
      (List.isChain_cons.1 derives.isChain.left_of_append.right_of_append).1 _ rfl

/-- Where a number takes the dot behind it, this is the error that is met, if the tree is not too
high: a second dot is a fault, and otherwise the name of the field is blamed. -/
theorem TakesDot.ofText (low : tree.height ≤ maxHeight) :
    (∃ position : Nat, Expr.ofText source = .error (.scan (.malformedNumber position))) ∨
      ∃ (s : String) (position : Nat), Expr.ofText source =
        .error (.parse (.unexpectedToken .closeParen ⟨.name s, position⟩)) := by
  obtain ⟨n, s, ks, ks', rest, ⟨isNumber, finite, isName, stops⟩, lexes, trees⟩ := h
  rcases Expr.cases_of_dot isNumber finite isName stops with
    ⟨first, more, blank, same, split⟩ | ⟨m, joined⟩
  · rw [same] at lexes
    obtain ⟨before, position, behind, kinds, faulty⟩ := scan_of_lexes_fault lexes blank split
    obtain ⟨tree', height, derives⟩ := trees (.integer 0)
    have begins : Phrase.expr.Derives
        (before.map Token.kind ++ .number (.integer 0) :: ks') tree' := by
      rw [kinds]
      simpa using derives.lift (by decide)
    refine .inl ⟨position, ?_⟩
    rw [Expr.ofText, faulty]
    exact Expr.ofItems_interrupted begins (height ▸ low) _ _
  · obtain ⟨tokens, count, position, kinds, -, -, same⟩ :=
      Cursor.items_of_lexes (lexes.trans joined) (Nat.le_of_eq String.length_toList) 0
    obtain ⟨before, last, rfl, isBefore, isLast⟩ := List.map_eq_append_iff.1 kinds
    obtain ⟨front, opener, rfl, isFront, isOpener⟩ := List.map_eq_append_iff.1 isBefore
    obtain ⟨opener, rfl, isOpen⟩ := List.map_eq_singleton_iff.1 isOpener
    obtain ⟨token, stray, rfl, isToken, isStray⟩ := List.map_eq_cons_iff.1 isLast
    obtain ⟨⟨_, place⟩, rfl, rfl⟩ := List.map_eq_singleton_iff.1 isStray
    obtain ⟨tree', height, derives⟩ := trees m
    have begins : Phrase.expr.Derives
        ((front ++ [opener, token]).map Token.kind ++ ks') tree' := by
      simpa [isFront, isOpen, isToken] using derives.lift (by decide)
    have isLeaf : token.kind.opening? = some (.leaf (.literal (.number m))) := by
      rw [isToken]
      rfl
    have unclosed : (⟨.name s, place⟩ : Token).kind ≠ .symbol .closeParen := by rintro ⟨⟩
    have blamed := Expr.ofItems_unclosed begins (height ▸ low) isOpen isLeaf rfl unclosed
      (Cursor.items count ⟨rest, position, false⟩)
    refine .inr ⟨s, place, ?_⟩
    rw [Expr.ofText, scan, Cursor.ofText, same]
    simpa using blamed

end

namespace Expr

/-- The text of a legible tree is read if and only if no plain dot follows a finite number and the
groups do not make the tree too high. Then it is read as its text says. -/
theorem Legible.ofText_text_eq_ok_iff {e : Expr} (h : e.Legible) (tree : Expr) :
    ofText e.text = .ok tree ↔
      e.DotsClear ∧ tree = e.reread.parenthesized ∧ tree.height ≤ maxHeight := by
  constructor
  · intro read
    have clear : e.DotsClear := by
      by_contra unclear
      have takes := h.takesDot unclear []
      rw [List.append_nil] at takes
      exact takes.ofText_ne_ok tree read
    obtain ⟨low, high⟩ := (h.readsAs clear).ofText
    by_cases le : e.reread.parenthesized.height ≤ maxHeight
    · obtain rfl : e.reread.parenthesized = tree := Except.ok.inj ((low le).symm.trans read)
      exact ⟨clear, rfl, le⟩
    · obtain ⟨token, deep⟩ := high (Nat.lt_of_not_le le)
      rw [deep] at read
      contradiction
  · rintro ⟨clear, rfl, low⟩
    exact (h.readsAs clear).ofText.1 low

end Expr

end PredicateLang
