import PredicateLang.Proofs.Reading.Moves

/-!
# Runs on a list of tokens

On a stream without faults the machine takes its tokens one after the other. `Reaches.split`
says which ones a run has taken, and that the run would have been the same if anything else
had followed the next token.
-/

namespace PredicateLang.Machine

variable {limit : Nat} {stack stack' : List Frame} {phase phase' : Phase} {taken : Bool}
  {ahead : Option Token} {tokens rest : List Token} {feed : Feed} {c d : Config}

theorem Move.exists_token (move : Move limit stack phase ahead true stack' phase') :
    ∃ token : Token, ahead = some token := by
  cases move <;> exact ⟨_, rfl⟩

theorem leaves_ofTokens_iff :
    Leaves (.ofTokens tokens) taken feed ↔
      feed = .ofTokens (if taken then tokens.tail else tokens) := by
  cases taken <;> simp [Leaves, eq_comm]

theorem Move.step_ofTokens (move : Move limit stack phase tokens.head? taken stack' phase') :
    step limit ⟨stack, phase, .ofTokens tokens⟩ =
      .next ⟨stack', phase', .ofTokens (if taken then tokens.tail else tokens)⟩ := by
  refine Move.step_eq ?_ (leaves_ofTokens_iff.2 rfl)
  exact move

theorem Move.reaches_take {token : Token}
    (move : Move limit stack phase (some token) true stack' phase') :
    Reaches limit ⟨stack, phase, .ofTokens (token :: rest)⟩ ⟨stack', phase', .ofTokens rest⟩ :=
  .single (show Move limit stack phase (token :: rest).head? true stack' phase' from
    move).step_ofTokens

theorem Move.reaches_keep (move : Move limit stack phase tokens.head? false stack' phase') :
    Reaches limit ⟨stack, phase, .ofTokens tokens⟩ ⟨stack', phase', .ofTokens tokens⟩ :=
  .single move.step_ofTokens

/-- A property of the stack, the phase, the next token and the tokens taken so far holds after a
run if it holds at the start and every transition keeps it. -/
theorem Reaches.induct
    {motive : List Frame → Phase → Option Token → List Token → Prop}
    (steps : Reaches limit ⟨stack, phase, .ofTokens tokens⟩ d)
    (base : motive stack phase tokens.head? [])
    (take : ∀ {stack stack' : List Frame} {phase phase' : Phase} {token : Token}
      {read : List Token} (ahead : Option Token),
      Move limit stack phase (some token) true stack' phase' →
      motive stack phase (some token) read → motive stack' phase' ahead (read ++ [token]))
    (keep : ∀ {stack stack' : List Frame} {phase phase' : Phase} {ahead : Option Token}
      {read : List Token}, Move limit stack phase ahead false stack' phase' →
      motive stack phase ahead read → motive stack' phase' ahead read) :
    ∃ read rest : List Token, tokens = read ++ rest ∧ d.feed = .ofTokens rest ∧
      motive d.stack d.phase rest.head? read := by
  induction steps with
  | refl => exact ⟨[], tokens, rfl, rfl, base⟩
  | @tail c d _ one ih =>
      obtain ⟨read, rest, rfl, hfeed, held⟩ := ih
      obtain ⟨taken, move, leaves⟩ := move_of_step one
      rw [hfeed] at move leaves
      rw [leaves_ofTokens_iff] at leaves
      cases taken with
      | false => exact ⟨read, rest, rfl, leaves, keep move held⟩
      | true =>
          obtain ⟨token, ahead⟩ := move.exists_token
          obtain ⟨rest, rfl⟩ := List.head?_eq_some_iff.1 ahead
          exact ⟨read ++ [token], rest, by simp, leaves, take _ move held⟩

/-- Which tokens a run has taken. Whatever follows the next one has had no part in it. -/
theorem Reaches.split (steps : Reaches limit ⟨stack, phase, .ofTokens tokens⟩ d) :
    ∃ read rest : List Token, tokens = read ++ rest ∧ d.feed = .ofTokens rest ∧
      ∀ rest' : List Token, rest'.head? = rest.head? →
        Reaches limit ⟨stack, phase, .ofTokens (read ++ rest')⟩
          ⟨d.stack, d.phase, .ofTokens rest'⟩ := by
  refine steps.induct (motive := fun stack' phase' ahead read => ∀ rest' : List Token,
    rest'.head? = ahead → Reaches limit ⟨stack, phase, .ofTokens (read ++ rest')⟩
      ⟨stack', phase', .ofTokens rest'⟩) ?_ ?_ ?_
  · intro rest' _
    exact .refl
  · intro stack₁ stack₂ phase₁ phase₂ token read ahead move held rest' _
    have before := held (token :: rest') rfl
    rw [List.append_assoc]
    exact before.trans move.reaches_take
  · rintro stack₁ stack₂ phase₁ phase₂ _ read move held rest' rfl
    exact (held rest' rfl).trans move.reaches_keep

end PredicateLang.Machine
