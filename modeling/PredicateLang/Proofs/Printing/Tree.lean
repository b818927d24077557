import PredicateLang.Proofs.Number.Text
import PredicateLang.Proofs.Reading.Acceptance

/-!
# Trees of a source, and their text read again

The text of a tree puts parentheses around every operation, so what is read from it is
`Expr.parenthesized`: the tree with a group around every operation. Number literals need not
come back as they are, because their text does not say whether a whole number is an integer or a
double. `Expr.reread` replaces each number literal by what its text is read as.

`Expr.Legible` is what the tree of a source satisfies: its names are words and no keywords, its
literals are those of a token, and every field is a name.
-/

namespace PredicateLang

def Number.isFinite : Number → Bool
  | .integer _ => true
  | .real x => x.isFinite

/-- The leaf that the text of a number is read as. That of an infinite double is a name. -/
def Number.reread : Number → Expr
  | .real (.infinite negative) => .name (Double.infinite negative).text
  | n => .literal (.number (Lexeme.numberValue n.text.toList))

namespace Expr

def parenthesized : Expr → Expr
  | name s => name s
  | literal v => literal v
  | not operand => group (not operand.parenthesized)
  | binary op left right => group (binary op left.parenthesized right.parenthesized)
  | access kind base field => group (access kind base.parenthesized field.parenthesized)
  | group inner => group inner.parenthesized

def reread : Expr → Expr
  | name s => name s
  | literal (.number n) => n.reread
  | literal v => literal v
  | not operand => not operand.reread
  | binary op left right => binary op left.reread right.reread
  | access kind base field => access kind base.reread field.reread
  | group inner => group inner.reread

def numbers : Expr → List Number
  | literal (.number n) => [n]
  | name _ | literal _ => []
  | not operand => operand.numbers
  | binary _ left right => left.numbers ++ right.numbers
  | access _ base field => base.numbers ++ field.numbers
  | group inner => inner.numbers

def numbersBeforeDot : Expr → List Number
  | name _ | literal _ => []
  | not operand => operand.numbersBeforeDot
  | binary _ left right => left.numbersBeforeDot ++ right.numbersBeforeDot
  | access .strict (literal (.number n)) field => n :: field.numbersBeforeDot
  | access _ base field => base.numbersBeforeDot ++ field.numbersBeforeDot
  | group inner => inner.numbersBeforeDot

def DotsClear (e : Expr) : Prop :=
  ∀ n ∈ e.numbersBeforeDot, n.isFinite = false

theorem dotsClear_binary_iff {op : Connective} {left right : Expr} :
    (binary op left right).DotsClear ↔ left.DotsClear ∧ right.DotsClear :=
  List.forall_mem_append

theorem dotsClear_access_iff {kind : Access} {base : Expr} {s : String} :
    (access kind base (name s)).DotsClear ↔ base.DotsClear ∧
      (kind = .strict → ∀ n : Number, base = literal (.number n) → n.isFinite = false) := by
  unfold DotsClear
  rw [numbersBeforeDot.eq_def]
  split
  all_goals cases ‹access _ _ _ = _›
  · simp [numbersBeforeDot]
  · next other =>
      simp only [numbersBeforeDot, List.append_nil, iff_self_and]
      rintro - rfl n rfl
      exact absurd rfl (other n rfl)

/-- The tree of a source, as far as its names and its literals go. -/
def Legible : Expr → Prop
  | name s => (Token.Kind.name s).Legible
  | literal v => ∃ k : Token.Kind, k.Legible ∧ k.opening? = some (.leaf (literal v))
  | not operand => operand.Legible
  | binary _ left right => left.Legible ∧ right.Legible
  | access _ base field => base.Legible ∧ ∃ s : String, field = name s ∧ field.Legible
  | group inner => inner.Legible

theorem Legible.cases_literal {v : Value} (h : (literal v).Legible) :
    (∃ k : Keyword, v = k.value) ∨ (∃ n : Number, v = .number n ∧ (Token.Kind.number n).Legible) ∨
      ∃ s : String, v = .string s := by
  obtain ⟨k, legible, opening⟩ := h
  unfold Token.Kind.opening? at opening
  split at opening <;> cases opening
  · exact .inl ⟨_, rfl⟩
  · exact .inr (.inl ⟨_, rfl, legible⟩)
  · exact .inr (.inr ⟨_, rfl⟩)

theorem Legible.number {n : Number} (h : (literal (.number n)).Legible) :
    (Token.Kind.number n).Legible := by
  rcases h.cases_literal with ⟨k, same⟩ | ⟨_, ⟨⟩, legible⟩ | ⟨_, ⟨⟩⟩
  · cases k <;> contradiction
  · exact legible

theorem Legible.of_mem_numbers {e : Expr} {n : Number} (h : e.Legible) (found : n ∈ e.numbers) :
    (Token.Kind.number n).Legible := by
  induction e with
  | name s => contradiction
  | literal v =>
      rcases h.cases_literal with ⟨k, rfl⟩ | ⟨m, rfl, isNumber⟩ | ⟨s, rfl⟩
      · cases k <;> contradiction
      · obtain rfl := List.mem_singleton.1 found
        exact isNumber
      · contradiction
  | not e ih => exact ih h found
  | binary op left right ihLeft ihRight =>
      rcases List.mem_append.1 found with found | found
      · exact ihLeft h.1 found
      · exact ihRight h.2 found
  | access kind base field ih _ =>
      obtain ⟨legible, s, rfl, -⟩ := h
      rw [numbers, numbers, List.append_nil] at found
      exact ih legible found
  | group e ih => exact ih h found

end Expr

theorem Phrase.Derives.legible {p : Phrase} {ks : List Token.Kind} {e : Expr}
    (h : p.Derives ks e) (all : ∀ k ∈ ks, k.Legible) : e.Legible := by
  induction h with
  | expr _ ih | first _ _ ih | plain _ ih | base _ ih => exact ih all
  | link op _ _ ihLeft ihRight =>
      exact ⟨ihLeft fun k found => all k (by simp [found]),
        ihRight fun k found => all k (by simp [found])⟩
  | not _ ih => exact ih fun k found => all k (by simp [found])
  | field kind s _ ih =>
      exact ⟨ih fun k found => all k (by simp [found]), s, rfl, all (.name s) (by simp)⟩
  | number n => exact ⟨.number n, all _ (by simp), rfl⟩
  | string s => exact ⟨.string s, all _ (by simp), rfl⟩
  | name s => exact all (.name s) (by simp)
  | null | undefined | true | false => exact ⟨_, all _ (.head _), rfl⟩
  | group _ ih => exact ih fun k found => all k (by simp [found])

namespace Expr

theorem exists_tokens_of_ofText {source : String} {e : Expr} (h : ofText source = .ok e) :
    ∃ tokens : List Token, scan source = tokens.map .ok ∧
      Phrase.expr.Derives (tokens.map Token.kind) e := by
  obtain ⟨tokens, scanned⟩ := exists_tokens_of_ofItems h
  rw [ofText, scanned] at h
  exact ⟨tokens, scanned, (derives_of_ofItems h).1⟩

theorem legible_of_ofText {source : String} {e : Expr} (h : ofText source = .ok e) :
    e.Legible := by
  obtain ⟨tokens, scanned, derives⟩ := exists_tokens_of_ofText h
  refine derives.legible fun k found => ?_
  obtain ⟨token, member, rfl⟩ := List.mem_map.1 found
  have delivered : .ok token ∈ scan source := by
    rw [scanned]
    exact List.mem_map_of_mem member
  exact Cursor.legible_of_mem_items (.ofText source) delivered

/-- A text of tokens that form a tree is read as that tree, unless the tree is too high. -/
theorem ofText_of_lexes {source : String} {ks : List Token.Kind} {e : Expr}
    (lexes : Lexes source.toList ks []) (derives : Phrase.expr.Derives ks e) :
    (e.height ≤ maxHeight → ofText source = .ok e) ∧
      (maxHeight < e.height →
        ∃ token : Token, ofText source = .error (.parse (.tooDeep token))) := by
  obtain ⟨tokens, rfl, scanned⟩ := scan_of_lexes lexes
  rw [ofText, scanned]
  exact ⟨ofItems_of_derives derives, ofItems_of_derives_high derives⟩

end Expr

end PredicateLang
