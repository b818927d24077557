import PredicateLang.Proofs.Printing.Text

/-!
# Printing and reading back

The text of a tree without ambiguous numbers is read as that tree with a group around every
operation. Two kinds of numbers are ambiguous: a double whose text may be that of an integer, and
a number that a plain dot follows. `Double.BeyondInt64` says that a double is none of the first
kind.

The groups make the tree higher, so the text of a tree that can be read need not be readable.
-/

namespace PredicateLang

/-- A finite double that is not whole, or at least `2 ^ 63`. -/
def Double.BeyondInt64 : Double → Prop
  | .finite negative x =>
      ¬ oneUnits ∣ x.units ∨ negative = false ∧ 2 ^ 63 * oneUnits ≤ x.units
  | _ => False

theorem Double.BeyondInt64.reread_eq {x : Double} (h : x.BeyondInt64)
    (legible : (Token.Kind.number (.real x)).Legible) :
    (Number.real x).reread = .literal (.number (.real x)) := by
  rcases legible.cases_number with ⟨k, _, same⟩ | ⟨m, same⟩ | same <;> cases same
  · have distinct : ¬ oneUnits ∣ m.units ∨ 2 ^ 63 * oneUnits ≤ m.units := h.imp_right And.right
    have value := Double.numberValue_text distinct
    rw [Number.reread, Number.text, value]
    rintro _ ⟨⟩
  · contradiction

namespace Expr

theorem reread_eq {e : Expr} (legible : e.Legible)
    (beyond : ∀ x : Double, .real x ∈ e.numbers → x.BeyondInt64) : e.reread = e := by
  induction e with
  | name s => rfl
  | literal v =>
      rcases legible.cases_literal with ⟨k, rfl⟩ | ⟨n, rfl, isNumber⟩ | ⟨s, rfl⟩
      · cases k <;> rfl
      · rcases isNumber.cases_number with ⟨k, small, rfl⟩ | ⟨x, rfl⟩ | rfl
        · have value := (Number.text_spec_integer small).2
          rw [reread, Number.reread, value]
          rintro _ ⟨⟩
        · exact (beyond _ (List.mem_singleton_self _)).reread_eq isNumber
        · exact absurd (beyond _ (List.mem_singleton_self _)) id
      · rfl
  | not e ih => rw [reread, ih legible beyond]
  | binary op left right ihLeft ihRight =>
      rw [reread, ihLeft legible.1 fun x found => beyond x (List.mem_append_left _ found),
        ihRight legible.2 fun x found => beyond x (List.mem_append_right _ found)]
  | access kind base field ih _ =>
      obtain ⟨legible, s, rfl, -⟩ := legible
      rw [reread, ih legible fun x found => beyond x (List.mem_append_left _ found), reread]
  | group e ih => rw [reread, ih legible beyond]

/-- Printing a tree that was read, and reading the text, gives the tree with a group around
every operation, or an error that is about its height alone. This is so if every double in it is
finite and either not whole or at least `2 ^ 63`, and no plain dot follows a number. -/
theorem ofText_text {source : String} {e : Expr} (h : ofText source = .ok e)
    (beyond : ∀ x : Double, .real x ∈ e.numbers → x.BeyondInt64)
    (clear : e.numbersBeforeDot = []) :
    (e.parenthesized.height ≤ maxHeight → ofText e.text = .ok e.parenthesized) ∧
      (maxHeight < e.parenthesized.height →
        ∃ token : Token, ofText e.text = .error (.parse (.tooDeep token))) := by
  have legible := legible_of_ofText h
  have reads := legible.readsAs (by simp [DotsClear, clear])
  rw [reread_eq legible beyond] at reads
  exact reads.ofText

/-- A negated fraction is read back from its text. -/
theorem ofText_text_fraction :
    ofText "!1.5" = .ok (not (literal (.number (.real (.nearest false 3 2))))) ∧
      ofText (not (literal (.number (.real (.nearest false 3 2))))).text =
        .ok (group (not (literal (.number (.real (.nearest false 3 2)))))) := by
  have value : Lexeme.numberValue ['1', '.', '5'] = .real (.nearest false 3 2) := by
    decide +kernel
  have finite : Double.nearest false 3 2 =
      .finite false ⟨1022 * 2 ^ 52 + 3 * 2 ^ 51, by decide⟩ := by decide +kernel
  generalize Double.nearest false 3 2 = x at value finite ⊢
  have number : Lexes ['1', '.', '5'] [.number (.real x)] [] := by
    rw [← value]
    exact .number_alone ⟨'1', ['.', '5'], rfl, by decide, List.all_eq_true.1 (by decide), by decide⟩
  have source : Lexes "!1.5".toList [.symbol .exclamation, .number (.real x)] [] :=
    (Lexes.symbol .exclamation ['1', '.', '5']).trans number
  have derives : Phrase.unary.Derives [.symbol .exclamation, .number (.real x)]
      (not (literal (.number (.real x)))) :=
    .not (Phrase.Derives.lift (.number _) (by decide))
  have read := (ofText_of_lexes source (derives.lift (by decide))).1 (show 2 ≤ 256 by decide)
  refine ⟨read, (ofText_text read ?_ rfl).1 (show 3 ≤ 256 by decide)⟩
  intro y found
  obtain rfl : y = x := Number.real.inj (List.mem_singleton.1 found)
  rw [finite]
  exact .inl (by decide +kernel)

end Expr

end PredicateLang
