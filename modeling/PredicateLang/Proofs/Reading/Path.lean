import Mathlib.Data.List.Induction
import PredicateLang.Proofs.Printing.Text

/-!
# Reading paths

A `Path` is a variable and fields taken one after the other. Its text has nothing in it but names
and operators, so its tree grows to the left by one access for every field, and its height is the
number of names. A path is read unless it has more names than `maxHeight`. Then the operator that
builds the first tree that is too high is blamed (`Path.ofText_append`), whatever follows.
-/

namespace PredicateLang

def IsName (s : String) : Prop :=
  IsWord s.toList ∧ ∀ k : Keyword, s ≠ k.text

theorem Keyword.ofText?_eq_none {s : String} (h : ∀ k : Keyword, s ≠ k.text) :
    ofText? s = none := by
  have null : s ≠ "null" := h .null
  have undefined : s ≠ "undefined" := h .undefined
  have true : s ≠ "true" := h .true
  have false : s ≠ "false" := h .false
  rw [ofText?, if_neg null, if_neg undefined, if_neg true, if_neg false]

theorem IsName.wordKind {s : String} (h : IsName s) : Lexeme.wordKind s = .name s := by
  rw [Lexeme.wordKind, Keyword.ofText?_eq_none h.2]

abbrev Name : Type := { s : String // IsName s }

structure Path where
  root : Name
  steps : List (Access × Name)

open Machine

namespace Path

variable (root : Name) (steps more : List (Access × Name)) (p : Path)

def size : Nat :=
  p.steps.length + 1

def take (count : Nat) : Path :=
  ⟨p.root, p.steps.take count⟩

def accessChars : List (Access × Name) → List Char
  | [] => []
  | (kind, s) :: steps => kind.symbol.chars ++ (s.val.toList ++ accessChars steps)

def text : String :=
  .ofList (p.root.val.toList ++ accessChars p.steps)

def accessKinds : List (Access × Name) → List Token.Kind
  | [] => []
  | (kind, s) :: steps => .symbol kind.symbol :: .name s :: accessKinds steps

def tree : Expr :=
  p.steps.foldl (fun base step => .access step.1 base (.name step.2)) (.name p.root)

theorem tree_concat (kind : Access) (s : Name) :
    tree ⟨root, steps ++ [(kind, s)]⟩ = .access kind (tree ⟨root, steps⟩) (.name s) := by
  rw [tree, List.foldl_append]
  rfl

@[simp] theorem accessChars_append :
    accessChars (steps ++ more) = accessChars steps ++ accessChars more := by
  induction steps with
  | nil => rfl
  | cons step steps ih => simp [accessChars, ih]

@[simp] theorem accessKinds_append :
    accessKinds (steps ++ more) = accessKinds steps ++ accessKinds more := by
  induction steps with
  | nil => rfl
  | cons step steps ih => simp [accessKinds, ih]

theorem stops_accessChars : Stops isWordChar (accessChars steps) := by
  match steps with
  | [] => exact .nil
  | (.strict, s) :: steps => exact .cons rfl _
  | (.lenient, s) :: steps => exact .cons rfl _

theorem lexes_name {s : Name} {rest : List Char} (stops : Stops isWordChar rest) :
    Lexes (s.val.toList ++ rest) [.name s] rest := by
  rw [← s.property.wordKind]
  exact .word_of_text s.property.1 stops

theorem lexes_accesses :
    Lexes (accessChars (steps ++ more)) (accessKinds steps) (accessChars more) := by
  induction steps with
  | nil => exact .nil _
  | cons step steps ih =>
      exact (Lexes.symbol step.1.symbol _).trans ((lexes_name (stops_accessChars _)).trans ih)

theorem lexes_append :
    Lexes (text ⟨root, steps ++ more⟩).toList (.name root :: accessKinds steps)
      (accessChars more) := by
  rw [text, String.toList_ofList]
  exact (lexes_name (stops_accessChars _)).trans (lexes_accesses steps more)

theorem derives_tree :
    Phrase.access.Derives (.name p.root :: accessKinds p.steps) p.tree := by
  obtain ⟨root, steps⟩ := p
  induction steps using List.reverseRecOn with
  | nil => exact .base (.name _)
  | append_singleton steps step ih =>
      rw [tree_concat, accessKinds_append]
      exact .field step.1 step.2 ih

theorem height_tree : p.tree.height = p.size := by
  obtain ⟨root, steps⟩ := p
  induction steps using List.reverseRecOn with
  | nil => rfl
  | append_singleton steps step ih =>
      have pos := (tree ⟨root, steps⟩).height_pos
      simp only [size, List.length_append, List.length_singleton] at ih ⊢
      rw [tree_concat, Expr.height, ih, Expr.height]
      omega

theorem ofText_eq_tree (short : p.size ≤ maxHeight) : Expr.ofText p.text = .ok p.tree := by
  have whole := lexes_append p.root p.steps []
  rw [List.append_nil] at whole
  exact (Expr.ofText_of_lexes whole (p.derives_tree.lift (by decide))).1 (p.height_tree ▸ short)

/-- The machine gives up at an operator that makes the tree of a path too high. -/
theorem halts_append {operator field : Token} {before rest : List Token} {kind : Access}
    {s : Name} (full : p.size = maxHeight)
    (kinds : before.map Token.kind = .name p.root :: accessKinds p.steps)
    (isOperator : operator.kind = .symbol kind.symbol) (isName : field.kind = .name s) :
    Halts maxHeight (start (.ofTokens (before ++ operator :: field :: rest)))
      (.error (.parse (.tooDeep operator))) (.ofTokens rest) := by
  have run : Arrives maxHeight (p.tree.height + 0)
      ⟨[], .operand, .ofTokens (before ++ operator :: field :: rest)⟩
      ⟨[], .operator p.tree, .ofTokens (operator :: field :: rest)⟩ :=
    p.derives_tree.arrives kinds (by decide) (ends_primary _)
  have base := run.resolve_right fun high => by
    rw [p.height_tree, full] at high
    exact absurd high.1 (Nat.lt_irrefl _)
  have access : Move maxHeight [] (.operator p.tree) (some operator) true []
      (.field operator kind p.tree) :=
    .access (isOperator ▸ kind.continuation?_symbol) (by decide)
  refine .of_reaches (base.trans access.reaches_take) (.of_step ?_)
  have high : maxHeight < (Expr.access kind p.tree (.name s)).height := by
    rw [Expr.height, p.height_tree, full]
    exact Nat.lt_succ_of_le (Nat.le_max_left _ _)
  rw [step_field isName, build, if_pos high]
  rfl

/-- A path that is as long as can be is no start of a longer one. The next operator is blamed. -/
theorem ofText_append (kind : Access) (s : Name) (full : p.size = maxHeight) :
    Expr.ofText (text ⟨p.root, p.steps ++ (kind, s) :: more⟩) =
      .error (.parse (.tooDeep ⟨.symbol kind.symbol, byteLength p.text.toList⟩)) := by
  have lexes := lexes_append p.root p.steps ((kind, s) :: more)
  obtain ⟨first, cs, chars, split⟩ :=
    Lexeme.exists_split_symbol kind.symbol (s.val.toList ++ accessChars more)
  have next : accessChars ((kind, s) :: more) = first :: cs := chars
  rw [next] at lexes
  have after : Lexes (s.val.toList ++ accessChars more) (.name s :: accessKinds more) [] := by
    have all := lexes_accesses more []
    rw [List.append_nil] at all
    exact (lexes_name (stops_accessChars more)).trans all
  obtain ⟨before, behind, position, kinds, kinds', bytes, scanned⟩ :=
    scan_of_lexes_around lexes split after
  obtain ⟨field, rest, rfl, isName, -⟩ := List.map_eq_cons_iff.1 kinds'
  -- The place of the operator is where the text of the shorter path ends.
  have place : position = byteLength p.text.toList := by
    rw [text, String.toList_ofList, accessChars_append, next] at bytes
    simp only [text, String.toList_ofList, byteLength_append] at bytes ⊢
    omega
  rw [Expr.ofText, scanned, ← place]
  exact (Expr.concludes_ofItems _).eq_of_halts_error
    (p.halts_append full kinds rfl isName)

theorem ofText_eq_tooDeep (long : maxHeight < p.size) :
    ∃ (kind : Access) (s : Name), p.steps[maxHeight - 1]? = some (kind, s) ∧
      Expr.ofText p.text = .error (.parse (.tooDeep
        ⟨.symbol kind.symbol, byteLength (p.take (maxHeight - 1)).text.toList⟩)) := by
  have inside : maxHeight - 1 < p.steps.length :=
    Nat.sub_one_lt_of_le (by decide) (Nat.le_of_lt_succ long)
  have full : (p.take (maxHeight - 1)).size = maxHeight := by
    rw [size, take, List.length_take_of_le (Nat.le_of_lt inside)]
    rfl
  have split : p.steps.take (maxHeight - 1) ++
      p.steps[maxHeight - 1] :: p.steps.drop (maxHeight - 1 + 1) = p.steps := by
    rw [List.getElem_cons_drop, List.take_append_drop]
  have refused := (p.take (maxHeight - 1)).ofText_append (p.steps.drop (maxHeight - 1 + 1))
    p.steps[maxHeight - 1].1 p.steps[maxHeight - 1].2 full
  refine ⟨_, _, List.getElem?_eq_getElem inside, ?_⟩
  rwa [take, split] at refused

end Path

end PredicateLang
