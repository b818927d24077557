import PredicateLang.Proofs.Reading.Completeness
import PredicateLang.Proofs.Reading.Simulation
import PredicateLang.Proofs.Reading.Spelling

/-!
# Which token is blamed

`Fault` lists the ways in which the machine stops at a token that cannot come next, one
constructor each. Such an error blames the first token with which no expression can go on:
what has been read before it begins an expression (`Spelled.viable`), and the machine stops at
it whatever follows it (`Reaches.split`), so no expression goes on with it. Where no token is
left to be blamed, one more token is all that is missing.
-/

namespace PredicateLang

theorem Feed.ofTokens_injective : Function.Injective Feed.ofTokens := by
  intro tokens tokens' same
  have heads : tokens.head? = tokens'.head? := congrArg Feed.lookahead same
  have tails : tokens.tail = tokens'.tail := by
    have mapped : tokens.tail.map Except.ok = tokens'.tail.map Except.ok :=
      congrArg Feed.items same
    exact (List.map_inj_right fun _ _ h => Except.ok.inj h).1 mapped
  cases tokens with
  | nil => exact (List.head?_eq_none_iff.1 heads.symm).symm
  | cons token tokens =>
      obtain ⟨rest, rfl⟩ := List.head?_eq_some_iff.1 heads.symm
      exact congrArg _ tails

namespace Machine

/-- The ways to stop at a token in advance, or at the end of the tokens, that cannot come next on
top of a stack. -/
inductive Fault (limit : Nat) : List Frame → Phase → Option Token → ParseError → Prop
  | noOperand {stack : List Frame} {token : Token} :
      stack.length + 1 ≤ limit → token.kind.opening? = none →
      Fault limit stack .operand (some token) (.expectedExpression token)
  | endOfOperand {stack : List Frame} :
      Fault limit stack .operand none (.unexpectedEnd .expression)
  | noClose {stack : List Frame} {opener token : Token} {e : Expr} :
      Ends .or (some token) → token.kind ≠ .symbol .closeParen →
      Fault limit (.group opener :: stack) (.operator e) (some token)
        (.unexpectedToken .closeParen token)
  | endOfGroup {stack : List Frame} {opener : Token} {e : Expr} :
      Fault limit (.group opener :: stack) (.operator e) none (.unexpectedEnd .closeParen)
  | noName {stack : List Frame} {operator token : Token} {kind : Access} {base : Expr} :
      token.kind.name? = none →
      Fault limit stack (.field operator kind base) (some token) (.unexpectedToken .name token)
  | endOfField {stack : List Frame} {operator : Token} {kind : Access} {base : Expr} :
      Fault limit stack (.field operator kind base) none (.unexpectedEnd .name)

variable {limit : Nat} {stack : List Frame} {phase : Phase} {ahead : Option Token}
  {tokens rest : List Token} {feed feed' : Feed} {err : ParseError} {d : Config}

theorem Fault.token?_eq (fault : Fault limit stack phase ahead err) : err.token? = ahead := by
  cases fault <;> rfl

@[simp] theorem take_ofTokens (next : Option Token → Feed → Step) :
    take (.ofTokens tokens) next = next tokens.head? (.ofTokens tokens.tail) := by
  simp only [take, Feed.shift_ofTokens]

theorem Fault.step_ofTokens (fault : Fault limit stack phase tokens.head? err) :
    ∃ feed : Feed,
      step limit ⟨stack, phase, .ofTokens tokens⟩ = .halt (.error (.parse err)) feed := by
  generalize head : tokens.head? = ahead at fault
  cases fault with
  | noOperand shallow found =>
      refine ⟨.ofTokens tokens.tail, ?_⟩
      simp only [step, stepOperand, take_ofTokens, head, Nat.not_lt.2 shallow, if_false, found,
        fail]
  | endOfOperand =>
      refine ⟨.ofTokens tokens.tail, ?_⟩
      simp only [step, stepOperand, take_ofTokens, head, fail]
  | noClose ends isOther =>
      refine ⟨.ofTokens tokens, ?_⟩
      rw [step_of_ends (by rw [Feed.lookahead_ofTokens, head]; exact ends)]
      simp only [stepClose, Feed.lookahead_ofTokens, head, isOther, if_false, fail]
  | endOfGroup =>
      refine ⟨.ofTokens tokens, ?_⟩
      rw [step_of_ends (by rw [Feed.lookahead_ofTokens, head]; rintro _ ⟨⟩)]
      simp only [stepClose, Feed.lookahead_ofTokens, head, fail]
  | noName found | endOfField =>
      refine ⟨.ofTokens tokens, ?_⟩
      simp only [step, stepField, Feed.lookahead_ofTokens, *, fail]

theorem tooDeep_of_build {token : Token} {e : Expr}
    (h : build limit token e stack feed = .halt (.error (.parse err)) feed') :
    ∃ token : Token, err = .tooDeep token := by
  unfold build at h
  split at h
  · cases h
    exact ⟨token, rfl⟩
  · contradiction

/-- On a list of tokens the machine stops with a parse error only at a tree that is too high or
at a fault. -/
theorem fault_of_step (h : step limit ⟨stack, phase, .ofTokens tokens⟩ =
    .halt (.error (.parse err)) feed') :
    (∃ token : Token, err = .tooDeep token) ∨ Fault limit stack phase tokens.head? err := by
  cases phase with
  | operand =>
      simp only [step, stepOperand, take_ofTokens] at h
      split at h
      · next head =>
          cases h
          rw [head]
          exact .inr .endOfOperand
      · next token head =>
          split at h
          · cases h
            exact .inl ⟨token, rfl⟩
          · split at h
            · next found =>
                cases h
                rw [head]
                exact .inr (.noOperand (by omega) found)
            · contradiction
  | operator e =>
      simp only [step, stepOperator] at h
      split at h
      · next found =>
          have ends := Feed.continuation?_eq_none_iff.1 found
          cases stack with
          | nil => cases h
          | cons frame stack =>
              cases frame with
              | not | binary => exact .inl (tooDeep_of_build h)
              | group opener =>
                  simp only [stepClose, Feed.lookahead_ofTokens] at h ends
                  split at h
                  · next head =>
                      cases h
                      rw [head]
                      exact .inr .endOfGroup
                  · next token head =>
                      split at h
                      · rw [take_ofTokens] at h
                        exact .inl (tooDeep_of_build h)
                      · next isOther =>
                          cases h
                          rw [head] at ends ⊢
                          exact .inr (.noClose ends isOther)
      · rw [take_ofTokens] at h
        contradiction
  | field operator kind base =>
      simp only [step, stepField, Feed.lookahead_ofTokens] at h
      split at h
      · next head =>
          cases h
          rw [head]
          exact .inr .endOfField
      · next token head =>
          split at h
          · next found =>
              cases h
              rw [head]
              exact .inr (.noName found)
          · rw [take_ofTokens] at h
            exact .inl (tooDeep_of_build h)

/-- The machine stops on a list of tokens without having read it as one expression, and not
because of a height. -/
def Refuses (limit : Nat) (tokens : List Token) : Prop :=
  ∃ (result : Except ReadError Expr) (feed : Feed),
    Halts limit (start (.ofTokens tokens)) result feed ∧
      (∀ token : Token, result ≠ .error (.parse (.tooDeep token))) ∧
      ∀ e : Expr, result = .ok e → feed ≠ .ofTokens []

theorem Refuses.not_derivable (h : Refuses limit tokens) :
    ¬ Derivable (tokens.map Token.kind) := by
  rintro ⟨e, derives⟩
  obtain ⟨result, feed, halts, notDeep, notWhole⟩ := h
  rcases derives.arrives_start limit with steps | ⟨_, token, feed', deep⟩
  · obtain ⟨rfl, rfl⟩ := halts.unique (.of_reaches steps (.of_step (step_end limit e)))
    exact notWhole e rfl rfl
  · exact notDeep token (halts.unique deep).1

theorem not_viable_of_refuses {read : List Token} {token : Token}
    (h : ∀ more : List Token, Refuses limit (read ++ token :: more)) :
    ¬ Viable (read.map Token.kind ++ [token.kind]) := by
  rintro ⟨more, derivable⟩
  obtain ⟨behind, rfl⟩ := Token.exists_map_kind more
  exact (h behind).not_derivable (by simpa using derivable)

theorem Reaches.refuses_of_fault
    (steps : Reaches limit (start (.ofTokens tokens)) ⟨stack, phase, .ofTokens rest⟩)
    (fault : Fault limit stack phase rest.head? err)
    (notDeep : ∀ token : Token, err ≠ .tooDeep token) : Refuses limit tokens := by
  obtain ⟨feed, stop⟩ := fault.step_ofTokens
  refine ⟨_, feed, .of_reaches steps (.of_step stop), ?_, ?_⟩
  · rintro token ⟨⟩
    exact notDeep token rfl
  · rintro e ⟨⟩

theorem Reaches.refuses_of_trailing {e : Expr} {token : Token}
    (steps : Reaches limit (start (.ofTokens tokens)) ⟨[], .operator e, .ofTokens (token :: rest)⟩)
    (ends : Ends .or (some token)) : Refuses limit tokens := by
  have stop : step limit ⟨[], .operator e, .ofTokens (token :: rest)⟩ =
      .halt (.ok e) (.ofTokens (token :: rest)) := step_of_finished ends
  refine ⟨_, _, .of_reaches steps (.of_step stop), ?_, ?_⟩
  · rintro token ⟨⟩
  · rintro e _ same
    exact absurd (Feed.ofTokens_injective same) (List.cons_ne_nil _ _)

/-- What a run from the start has read begins an expression, and the run would have been the same
if anything else had followed the next token. -/
theorem Reaches.viable_split (steps : Reaches limit (start (.ofTokens tokens)) d) :
    ∃ read rest : List Token, tokens = read ++ rest ∧ d.feed = .ofTokens rest ∧
      Viable (read.map Token.kind) ∧
      ∀ rest' : List Token, rest'.head? = rest.head? →
        Reaches limit (start (.ofTokens (read ++ rest'))) ⟨d.stack, d.phase, .ofTokens rest'⟩ := by
  obtain ⟨read, rest, tokens_eq, feed_eq, run⟩ := steps.split
  obtain ⟨read', rest', tokens_eq', feed_eq', spelled⟩ := steps.spelled
  obtain rfl := Feed.ofTokens_injective (feed_eq.symm.trans feed_eq')
  obtain rfl := List.append_cancel_right (tokens_eq.symm.trans tokens_eq')
  exact ⟨read, rest, tokens_eq, feed_eq, spelled.viable, run⟩

end Machine

open Machine

/-- A token comes after the start of an expression and is the first with which none goes on. -/
def Blames (tokens : List Token) (token : Token) : Prop :=
  ∃ k : Nat, tokens[k]? = some token ∧ Viable ((tokens.take k).map Token.kind) ∧
    ¬ Viable ((tokens.take (k + 1)).map Token.kind)

theorem blames_append {read rest : List Token} {token : Token}
    (viable : Viable (read.map Token.kind))
    (stray : ¬ Viable (read.map Token.kind ++ [token.kind])) :
    Blames (read ++ token :: rest) token := by
  refine ⟨read.length, by simp, by simpa using viable, ?_⟩
  rw [List.take_append, List.take_of_length_le (Nat.le_succ _), Nat.add_sub_cancel_left]
  simpa using stray

theorem missing_of_refuses {limit : Nat} {tokens : List Token}
    (viable : Viable (tokens.map Token.kind)) (refuses : Refuses limit tokens) :
    (∃ more : List Token.Kind, more ≠ [] ∧ Derivable (tokens.map Token.kind ++ more)) ∧
      ¬ Derivable (tokens.map Token.kind) := by
  have underivable := refuses.not_derivable
  obtain ⟨more, derivable⟩ := viable
  refine ⟨⟨more, ?_, derivable⟩, underivable⟩
  rintro rfl
  rw [List.append_nil] at derivable
  exact underivable derivable

/-- A parse error that is not about a height blames the first token with which no expression
goes on, or the end of a list that begins an expression and is none. -/
theorem Expr.ofItems_blames {tokens : List Token} {err : ParseError}
    (h : Expr.ofItems (tokens.map .ok) = .error (.parse err))
    (notDeep : ∀ token : Token, err ≠ .tooDeep token) :
    (∀ token : Token, err.token? = some token → Blames tokens token) ∧
    (∀ expected : Expected, err = .unexpectedEnd expected →
      (∃ more : List Token.Kind, more ≠ [] ∧ Derivable (tokens.map Token.kind ++ more)) ∧
        ¬ Derivable (tokens.map Token.kind)) := by
  have concludes := Expr.concludes_ofItems tokens
  rw [h] at concludes
  cases concludes with
  | @trailing e feed token steps found none =>
      have ends := Feed.continuation?_eq_none_iff.1 none
      obtain ⟨read, rest, rfl, rfl, viable, run⟩ := steps.viable_split
      obtain ⟨rest, rfl⟩ := List.head?_eq_some_iff.1 found
      constructor
      · rintro _ ⟨⟩
        exact blames_append viable (not_viable_of_refuses fun more =>
          (run (token :: more) rfl).refuses_of_trailing ends)
      · rintro expected ⟨⟩
  | failed halts =>
      obtain ⟨⟨stack, phase, feed⟩, steps, stop⟩ := halts
      obtain ⟨read, rest, rfl, rfl, viable, run⟩ := steps.viable_split
      rcases fault_of_step stop with ⟨token, deep⟩ | fault
      · exact absurd deep (notDeep token)
      · constructor
        · intro token blamed
          rw [fault.token?_eq] at blamed
          obtain ⟨rest, rfl⟩ := List.head?_eq_some_iff.1 blamed
          exact blames_append viable (not_viable_of_refuses fun more =>
            (run (token :: more) rfl).refuses_of_fault fault notDeep)
        · rintro expected rfl
          obtain rfl : rest = [] := List.head?_eq_none_iff.1 fault.token?_eq.symm
          have refuses := steps.refuses_of_fault fault notDeep
          rw [List.append_nil] at refuses ⊢
          exact missing_of_refuses viable refuses

/-- The name after a name in an open group is blamed. -/
theorem Expr.ofItems_blames_name :
    Expr.ofItems ([⟨.symbol .openParen, 0⟩, ⟨.name "a", 1⟩, ⟨.name "b", 3⟩].map .ok) =
      .error (.parse (.unexpectedToken .closeParen ⟨.name "b", 3⟩)) ∧
    Blames [⟨.symbol .openParen, 0⟩, ⟨.name "a", 1⟩, ⟨.name "b", 3⟩] ⟨.name "b", 3⟩ := by
  have read : Expr.ofItems ([⟨.symbol .openParen, 0⟩, ⟨.name "a", 1⟩, ⟨.name "b", 3⟩].map .ok) =
      .error (.parse (.unexpectedToken .closeParen ⟨.name "b", 3⟩)) := rfl
  exact ⟨read, (Expr.ofItems_blames read (by rintro _ ⟨⟩)).1 _ rfl⟩

end PredicateLang
