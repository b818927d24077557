import PredicateLang.Proofs.Grammar
import PredicateLang.Proofs.Reading.Tokens

/-!
# Derivations are runs of the machine

By `Phrase.Derives.arrives` the machine runs through every phrase that the grammar derives and
arrives at its tree, unless it gives up because the tree is too high for the frames around it.
The induction is on the derivation. What it needs of the tokens behind the phrase is that they
do not belong to it: the first of them must not continue a tighter phrase.

No limit is too low for every machine, so a list of tokens has one tree at most
(`Phrase.Derives.unique`).
-/

namespace PredicateLang

namespace Machine

def TooDeep (limit : Nat) (c : Config) : Prop :=
  ∃ (token : Token) (feed : Feed), Halts limit c (.error (.parse (.tooDeep token))) feed

/-- The machine arrives at a state, unless it gives up at a tree that needs the given height. -/
def Arrives (limit height : Nat) (c d : Config) : Prop :=
  Reaches limit c d ∨ limit < height ∧ TooDeep limit c

variable {limit height height' : Nat} {stack : List Frame} {feed : Feed} {token : Token}
  {tokens rest : List Token} {c d d' : Config}

theorem TooDeep.of_reaches (steps : Reaches limit c d) (h : TooDeep limit d) :
    TooDeep limit c := by
  obtain ⟨token, feed, halts⟩ := h
  exact ⟨token, feed, .of_reaches steps halts⟩

theorem Arrives.mono (h : Arrives limit height c d) (le : height ≤ height') :
    Arrives limit height' c d :=
  h.imp_right fun high => ⟨Nat.lt_of_lt_of_le high.1 le, high.2⟩

theorem Arrives.trans (h : Arrives limit height c d) (h' : Arrives limit height d d') :
    Arrives limit height c d' := by
  rcases h with steps | high
  · exact h'.imp steps.trans fun high => ⟨high.1, high.2.of_reaches steps⟩
  · exact .inr high

theorem arrives_of_build {e : Expr} (h : step limit c = build limit token e stack feed) :
    Arrives limit e.height c ⟨stack, .operator e, feed⟩ := by
  by_cases high : limit < e.height
  · refine .inr ⟨high, token, feed, .of_step ?_⟩
    rw [h, build, if_pos high]
    rfl
  · refine .inl (.single ?_)
    rw [h, build, if_neg high]

theorem arrives_opened (limit : Nat) (stack : List Frame) (tokens : List Token)
    {opening : Opening} (h : token.kind.opening? = some opening) :
    Arrives limit (stack.length + 1) ⟨stack, .operand, .ofTokens (token :: tokens)⟩
      (opened token stack (.ofTokens tokens) opening) := by
  by_cases deep : limit < stack.length + 1
  · refine .inr ⟨deep, token, .ofTokens tokens, .of_step ?_⟩
    simp only [step, stepOperand, take, Feed.shift_ofTokens, List.head?_cons, List.tail_cons,
      deep, if_true]
    rfl
  · refine .inl (.single ?_)
    simp only [step, stepOperand, take, Feed.shift_ofTokens, List.head?_cons, List.tail_cons,
      deep, if_false, h]

theorem arrives_leaf {e : Expr} (h : token.kind.opening? = some (.leaf e)) :
    Arrives limit (e.height + stack.length) ⟨stack, .operand, .ofTokens (token :: rest)⟩
      ⟨stack, .operator e, .ofTokens rest⟩ := by
  rw [Token.Kind.height_of_leaf h, Nat.add_comm]
  exact arrives_opened limit stack rest h

theorem arrives_not {e : Expr} (isOpener : token.kind = .symbol .exclamation)
    (inner : Arrives limit height ⟨.not token :: stack, .operand, .ofTokens tokens⟩
      ⟨.not token :: stack, .operator e, .ofTokens rest⟩)
    (ends : Ends .not rest.head?) (high : e.height + stack.length + 1 ≤ height) :
    Arrives limit height ⟨stack, .operand, .ofTokens (token :: tokens)⟩
      ⟨stack, .operator (.not e), .ofTokens rest⟩ := by
  have opening := arrives_opened limit stack tokens
    (show token.kind.opening? = some .not by rw [isOpener]; rfl)
  have close : step limit ⟨.not token :: stack, .operator e, .ofTokens rest⟩ =
      build limit token (.not e) stack (.ofTokens rest) := step_of_ends ends
  have closing := arrives_of_build close
  have pos := e.height_pos
  refine (opening.mono (by omega)).trans (inner.trans (closing.mono ?_))
  simp only [Expr.height]
  omega

theorem arrives_group {closer : Token} {e : Expr} (isOpener : token.kind = .symbol .openParen)
    (isCloser : closer.kind = .symbol .closeParen)
    (inner : Arrives limit height ⟨.group token :: stack, .operand, .ofTokens tokens⟩
      ⟨.group token :: stack, .operator e, .ofTokens (closer :: rest)⟩)
    (high : e.height + stack.length + 1 ≤ height) :
    Arrives limit height ⟨stack, .operand, .ofTokens (token :: tokens)⟩
      ⟨stack, .operator (.group e), .ofTokens rest⟩ := by
  have opening := arrives_opened limit stack tokens
    (show token.kind.opening? = some .group by rw [isOpener]; rfl)
  have ends : Ends (stackLevel (.group token :: stack)) (some closer) := by
    rintro _ ⟨⟩ continuation found
    rw [isCloser] at found
    contradiction
  have close : step limit ⟨.group token :: stack, .operator e, .ofTokens (closer :: rest)⟩ =
      build limit token (.group e) stack (.ofTokens rest) := by
    rw [step_of_ends ends]
    simp only [stepClose, Feed.lookahead_ofTokens, List.head?_cons, isCloser, if_true, take,
      Feed.shift_ofTokens, List.tail_cons]
  have pos := e.height_pos
  refine (opening.mono (by omega)).trans (inner.trans ((arrives_of_build close).mono ?_))
  simp only [Expr.height]
  omega

theorem arrives_binary {op : Connective} {left right : Expr}
    (continues : token.kind.continuation? = some (.binary op))
    (loose : (stackLevel stack).rank ≤ op.level.rank)
    (inner : Arrives limit height ⟨.binary token op left :: stack, .operand, .ofTokens tokens⟩
      ⟨.binary token op left :: stack, .operator right, .ofTokens rest⟩)
    (ends : Ends op.level.next rest.head?) (high : (Expr.binary op left right).height ≤ height) :
    Arrives limit height ⟨stack, .operator left, .ofTokens (token :: tokens)⟩
      ⟨stack, .operator (.binary op left right), .ofTokens rest⟩ := by
  have operation : Move limit stack (.operator left) (some token) true
      (.binary token op left :: stack) .operand := .binary continues loose
  have close : step limit ⟨.binary token op left :: stack, .operator right, .ofTokens rest⟩ =
      build limit token (.binary op left right) stack (.ofTokens rest) := step_of_ends ends
  exact .trans (.inl operation.reaches_take) (inner.trans ((arrives_of_build close).mono high))

theorem step_field {operator field : Token} {kind : Access} {base : Expr} {s : String}
    (isName : field.kind = .name s) :
    step limit ⟨stack, .field operator kind base, .ofTokens (field :: rest)⟩ =
      build limit operator (.access kind base (.name s)) stack (.ofTokens rest) := by
  simp only [step, stepField, Feed.lookahead_ofTokens, List.head?_cons, isName,
    Token.Kind.name?, take, Feed.shift_ofTokens, List.tail_cons]

theorem arrives_access {field : Token} {kind : Access} {base : Expr} {s : String}
    (continues : token.kind.continuation? = some (.access kind))
    (loose : (stackLevel stack).rank ≤ Level.access.rank) (isName : field.kind = .name s)
    (high : (Expr.access kind base (.name s)).height ≤ height) :
    Arrives limit height ⟨stack, .operator base, .ofTokens (token :: field :: rest)⟩
      ⟨stack, .operator (.access kind base (.name s)), .ofTokens rest⟩ := by
  have operation : Move limit stack (.operator base) (some token) true stack
      (.field token kind base) := .access continues loose
  exact .trans (.inl operation.reaches_take) ((arrives_of_build (step_field isName)).mono high)

end Machine

open Machine

theorem Connective.continuation?_symbol (op : Connective) :
    (Token.Kind.symbol op.symbol).continuation? = some (.binary op) := by
  cases op <;> rfl

theorem Access.continuation?_symbol (kind : Access) :
    (Token.Kind.symbol kind.symbol).continuation? = some (.access kind) := by
  cases kind <;> rfl

theorem ends_of_continuation {token : Token} {continuation : Continuation} {min : Level}
    (found : token.kind.continuation? = some continuation)
    (lt : continuation.level.rank < min.rank) : Ends min (some token) := by
  rintro _ ⟨⟩ other found'
  rw [found] at found'
  cases found'
  exact lt

theorem ends_of_continuation_none {token : Token} {min : Level}
    (none : token.kind.continuation? = none) : Ends min (some token) := by
  rintro _ ⟨⟩ continuation found
  rw [none] at found
  contradiction

theorem ends_not_of_ends_access {ahead : Option Token} (h : Ends .access ahead) :
    Ends .not ahead := by
  intro token found continuation continues
  have lt := h token found continuation continues
  cases continuation with
  | binary op => cases op <;> decide
  | access kind => exact absurd lt (Nat.lt_irrefl _)

theorem Connective.rank_lt_next (op : Connective) : op.level.rank < op.level.next.rank := by
  cases op <;> decide

theorem Connective.rank_next_le (op : Connective) :
    op.level.next.rank ≤ op.level.next.next.rank := by
  cases op <;> decide

/-- The machine runs through a phrase and arrives at its tree. -/
theorem Phrase.Derives.arrives {limit : Nat} {p : Phrase} {ks : List Token.Kind} {e : Expr}
    (h : p.Derives ks e) {stack : List Frame} {tokens rest : List Token}
    (kinds : tokens.map Token.kind = ks) (tight : (stackLevel stack).rank ≤ p.level.rank)
    (ends : Ends p.level.next rest.head?) :
    Arrives limit (e.height + stack.length) ⟨stack, .operand, .ofTokens (tokens ++ rest)⟩
      ⟨stack, .operator e, .ofTokens rest⟩ := by
  induction h generalizing stack tokens rest with
  | expr _ ih => exact ih kinds tight ends
  | @first op ks e _ ih =>
      rw [Phrase.level_chain] at tight ends
      rw [Phrase.level_operand] at ih
      exact ih kinds (Nat.le_trans tight (Nat.le_of_lt op.rank_lt_next))
        (ends.mono op.rank_next_le)
  | @link op ks ks' left right _ _ ihLeft ihRight =>
      rw [Phrase.level_chain] at tight ends ihLeft
      rw [Phrase.level_operand] at ihRight
      obtain ⟨tokensLeft, more, rfl, kindsLeft, more_eq⟩ := List.map_eq_append_iff.1 kinds
      obtain ⟨operator, tokensRight, rfl, isOperator, kindsRight⟩ := List.map_eq_cons_iff.1 more_eq
      have continues : operator.kind.continuation? = some (.binary op) :=
        isOperator ▸ op.continuation?_symbol
      -- The left operand is read on the same stack, the right one inside a frame of its own.
      have toLeft := @ihLeft stack tokensLeft (operator :: (tokensRight ++ rest))
        kindsLeft tight (ends_of_continuation continues op.rank_lt_next)
      have toRight := @ihRight (.binary operator op left :: stack) tokensRight rest
        kindsRight (Nat.le_refl _) (ends.mono op.rank_next_le)
      rw [List.append_assoc, List.cons_append]
      refine (toLeft.mono ?_).trans (arrives_binary continues tight (toRight.mono ?_) ends ?_)
      all_goals simp only [Expr.height, List.length_cons]; omega
  | @not ks e _ ih =>
      obtain ⟨opener, tokens, rfl, isOpener, kinds⟩ := List.map_eq_cons_iff.1 kinds
      have inner := @ih (.not opener :: stack) tokens rest kinds (Nat.le_refl _) ends
      refine arrives_not isOpener (inner.mono ?_) (ends_not_of_ends_access ends) ?_
      all_goals simp only [Expr.height, List.length_cons]; omega
  | plain _ ih => exact ih kinds (Nat.le_trans tight (by decide)) (ends_primary _)
  | base _ ih => exact ih kinds (Nat.le_trans tight (by decide)) (ends_primary _)
  | @field kind s ks e _ ih =>
      obtain ⟨tokensBase, more, rfl, kindsBase, more_eq⟩ := List.map_eq_append_iff.1 kinds
      obtain ⟨operator, more, rfl, isOperator, more_eq⟩ := List.map_eq_cons_iff.1 more_eq
      obtain ⟨field, more, rfl, isName, more_eq⟩ := List.map_eq_cons_iff.1 more_eq
      obtain rfl := List.map_eq_nil_iff.1 more_eq
      have continues : operator.kind.continuation? = some (.access kind) :=
        isOperator ▸ kind.continuation?_symbol
      have toBase := @ih stack tokensBase (operator :: field :: rest) kindsBase tight
        (ends_primary _)
      rw [List.append_assoc, List.cons_append, List.cons_append, List.nil_append]
      refine (toBase.mono ?_).trans (arrives_access continues tight isName ?_)
      all_goals simp only [Expr.height]; omega
  | number | string | name | null | undefined | true | false =>
      obtain ⟨token, tokens, rfl, isLeaf, none⟩ := List.map_eq_cons_iff.1 kinds
      obtain rfl := List.map_eq_nil_iff.1 none
      exact arrives_leaf (by rw [isLeaf]; rfl)
  | @group ks e _ ih =>
      obtain ⟨opener, more, rfl, isOpener, more_eq⟩ := List.map_eq_cons_iff.1 kinds
      obtain ⟨tokens, more, rfl, kindsInner, more_eq⟩ := List.map_eq_append_iff.1 more_eq
      obtain ⟨closer, more, rfl, isCloser, more_eq⟩ := List.map_eq_cons_iff.1 more_eq
      obtain rfl := List.map_eq_nil_iff.1 more_eq
      have inner := @ih (.group opener :: stack) tokens (closer :: rest) kindsInner
        (Nat.le_refl _) (ends_of_continuation_none (by rw [isCloser]; rfl))
      rw [List.cons_append, List.append_assoc, List.cons_append, List.nil_append]
      refine arrives_group isOpener isCloser (inner.mono ?_) ?_
      all_goals simp only [Expr.height, List.length_cons]; omega

theorem Phrase.Derives.arrives_start (limit : Nat) {tokens : List Token} {e : Expr}
    (h : Phrase.expr.Derives (tokens.map Token.kind) e) :
    Arrives limit e.height (start (.ofTokens tokens)) ⟨[], .operator e, .ofTokens []⟩ := by
  have run : Arrives limit (e.height + 0) ⟨[], .operand, .ofTokens (tokens ++ [])⟩
      ⟨[], .operator e, .ofTokens []⟩ := h.arrives rfl (Nat.le_refl _) (by rintro _ ⟨⟩)
  rwa [List.append_nil] at run

theorem Machine.step_end (limit : Nat) (e : Expr) :
    step limit ⟨[], .operator e, .ofTokens []⟩ = .halt (.ok e) (.ofTokens []) :=
  step_of_finished (by rintro _ ⟨⟩)

theorem Token.exists_map_kind (ks : List Token.Kind) :
    ∃ tokens : List Token, tokens.map Token.kind = ks :=
  ⟨ks.map (⟨·, 0⟩), by simp [Function.comp_def]⟩

theorem Phrase.Derives.unique {ks : List Token.Kind} {e e' : Expr}
    (h : Phrase.expr.Derives ks e) (h' : Phrase.expr.Derives ks e') : e = e' := by
  obtain ⟨tokens, rfl⟩ := Token.exists_map_kind ks
  -- Neither tree is too high for this limit.
  let limit := max e.height e'.height
  have run : Reaches limit _ _ := (h.arrives_start limit).resolve_right
    fun high => absurd high.1 (Nat.not_lt.2 (Nat.le_max_left _ _))
  have run' : Reaches limit _ _ := (h'.arrives_start limit).resolve_right
    fun high => absurd high.1 (Nat.not_lt.2 (Nat.le_max_right _ _))
  have same := run.eq_of_halt run' (step_end limit e) (step_end limit e')
  injection same with _ phases _
  injection phases

end PredicateLang
