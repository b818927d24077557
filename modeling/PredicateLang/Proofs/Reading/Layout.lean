import PredicateLang.Expr.Meaning
import PredicateLang.Proofs.Reading.Parallel

/-!
# Layout means nothing

Two sources with the same tokens, but for their places, are read as the same tree, or fail in the
same way at the same token (`Expr.ofText_layout`). So they have the same value in every scope.
-/

namespace PredicateLang

/-- The tokens stand at the same place of two lists, and are of the same kind. -/
def SamePlace (tokens tokens' : List Token) (token token' : Token) : Prop :=
  ∃ k : Nat, tokens[k]? = some token ∧ tokens'[k]? = some token' ∧ token'.kind = token.kind

theorem parallel_of_forall₂ {R : Token → Token → Prop} {tokens tokens' : List Token}
    (h : List.Forall₂ R tokens tokens') :
    Parallel R none [] (tokens.map .ok) (tokens'.map .ok) := by
  induction h with
  | nil => exact .nil rfl
  | cons same _ ih => exact .cons same ih

theorem forall₂_samePlace {tokens tokens' : List Token}
    (kinds : tokens.map Token.kind = tokens'.map Token.kind) :
    List.Forall₂ (SamePlace tokens tokens') tokens tokens' := by
  rw [List.forall₂_iff_get]
  have lengths : tokens.length = tokens'.length := by
    simpa using congrArg List.length kinds
  refine ⟨lengths, fun k inside inside' => ⟨k, ?_, ?_, ?_⟩⟩
  · exact List.getElem?_eq_getElem inside
  · exact List.getElem?_eq_getElem inside'
  · have same : (tokens'.map Token.kind)[k]? = (tokens.map Token.kind)[k]? := by rw [kinds]
    rw [List.getElem?_map, List.getElem?_map, List.getElem?_eq_getElem inside,
      List.getElem?_eq_getElem inside'] at same
    exact Option.some.inj same

namespace Expr

variable {source source' : String} {tokens tokens' : List Token}

/-- Layout means nothing. Two sources without faults that have the same kinds of tokens are read as
the same tree, or fail in the same way: at tokens in the same place, or at their ends.

So in every scope they have the same value or the same error of evaluation, unless both are not
read. -/
theorem ofText_layout (scanned : scan source = tokens.map .ok)
    (scanned' : scan source' = tokens'.map .ok)
    (kinds : tokens.map Token.kind = tokens'.map Token.kind) :
    ReadsAlike (SamePlace tokens tokens') none (ofText source) (ofText source') ∧
    ∀ scope : Scope, evaluateText source scope = evaluateText source' scope ∨
      ∃ err err' : ReadError, evaluateText source scope = .error (.read err) ∧
        evaluateText source' scope = .error (.read err') ∧
        ReadsAlike (SamePlace tokens tokens') none (.error err) (.error err') := by
  have outcome : ReadsAlike (SamePlace tokens tokens') none (ofText source) (ofText source') := by
    rw [ofText, ofText, scanned, scanned']
    exact parallel_ofItems (fun _ _ same => same.choose_spec.2.2)
      (parallel_of_forall₂ (forall₂_samePlace kinds))
  refine ⟨outcome, fun scope => ?_⟩
  unfold evaluateText
  generalize ofText source = result at outcome ⊢
  generalize ofText source' = result' at outcome ⊢
  cases outcome with
  | tree e => exact .inl rfl
  | blamed blamed same => exact .inr ⟨_, _, rfl, rfl, .blamed blamed same⟩
  | ended expected none => exact .inl rfl

/-- Blanks move the second name of an unclosed group, and it is blamed where it stands. -/
theorem ofText_layout_blanks :
    scan "(a b" = [⟨.symbol .openParen, 0⟩, ⟨.name "a", 1⟩, ⟨.name "b", 3⟩].map .ok ∧
    scan "( a\tb" = [⟨.symbol .openParen, 0⟩, ⟨.name "a", 2⟩, ⟨.name "b", 4⟩].map .ok ∧
    ReadsAlike (SamePlace
      [⟨.symbol .openParen, 0⟩, ⟨.name "a", 1⟩, ⟨.name "b", 3⟩]
      [⟨.symbol .openParen, 0⟩, ⟨.name "a", 2⟩, ⟨.name "b", 4⟩]) none
      (ofText "(a b") (ofText "( a\tb") := by
  have scanned : scan "(a b" =
      [⟨.symbol .openParen, 0⟩, ⟨.name "a", 1⟩, ⟨.name "b", 3⟩].map .ok := rfl
  have scanned' : scan "( a\tb" =
      [⟨.symbol .openParen, 0⟩, ⟨.name "a", 2⟩, ⟨.name "b", 4⟩].map .ok := rfl
  exact ⟨scanned, scanned', (ofText_layout scanned scanned' rfl).1⟩

end Expr

end PredicateLang
