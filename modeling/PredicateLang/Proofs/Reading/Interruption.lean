import PredicateLang.Proofs.Reading.Faults
import PredicateLang.Proofs.Reading.Nesting

/-!
# Streams that leave an expression

A stream may begin as an expression within the limit does and then go on with something that has no
place there. What it breaks off with is reported and nothing else, in particular no height: a fault
(`Expr.ofItems_interrupted`), or, after the first operand of a group, a token that neither continues
the group nor closes it (`Expr.ofItems_unclosed`).
-/

namespace PredicateLang

theorem Feed.stream_ofTokens (tokens : List Token) :
    (ofTokens tokens).stream = tokens.map .ok := by
  cases tokens <;> rfl

theorem Feed.eq_of_stream {tokens tokens' : List Token}
    (h : (ofTokens tokens).stream = tokens'.map .ok) : tokens = tokens' := by
  rw [stream_ofTokens] at h
  exact (List.map_inj_right fun _ _ => Except.ok.inj).1 h

namespace Machine

variable {limit : Nat} {c d : Config} {read more rest : List Token} {token : Token}

/-- A run that gets past a token takes it on the way. -/
theorem Reaches.exists_take (steps : Reaches limit c d)
    (before : c.feed = .ofTokens (read ++ token :: more)) (after : d.feed = .ofTokens rest)
    (less : rest.length ≤ more.length) :
    ∃ (c' : Config) (stack : List Frame) (phase : Phase),
      Reaches limit c ⟨stack, phase, .ofTokens more⟩ ∧
        Move limit c'.stack c'.phase (some token) true stack phase := by
  induction steps using Relation.ReflTransGen.head_induction_on generalizing read with
  | refl =>
      have same := congrArg List.length (Feed.ofTokens_injective (before.symm.trans after))
      rw [List.length_append, List.length_cons] at same
      omega
  | @head c c' one _ ih =>
      obtain ⟨taken, move, leaves⟩ := move_of_step one
      rw [before] at move leaves
      rw [leaves_ofTokens_iff] at leaves
      cases taken with
      | false =>
          obtain ⟨d, stack, phase, onward, takes⟩ := ih leaves
          exact ⟨d, stack, phase, .head one onward, takes⟩
      | true =>
          cases read with
          | nil =>
              obtain ⟨stack, phase, feed⟩ := c'
              obtain rfl : feed = .ofTokens more := leaves
              exact ⟨c, stack, phase, .single one, move⟩
          | cons first read =>
              obtain ⟨d, stack, phase, onward, takes⟩ := ih leaves
              exact ⟨d, stack, phase, .head one onward, takes⟩

theorem Move.eq_of_openParen {stack stack' : List Frame} {phase phase' : Phase}
    (move : Move limit stack phase (some token) true stack' phase')
    (isOpen : token.kind = .symbol .openParen) :
    stack' = .group token :: stack ∧ phase' = .operand := by
  cases move with
  | group => exact ⟨rfl, rfl⟩
  | leaf _ found | not _ found | binary found | access found | field found =>
      rw [isOpen] at found
      cases found
  | closeGroup isClose =>
      rw [isOpen] at isClose
      cases isClose

end Machine

open Machine

namespace Expr

theorem concludes_ofItems_startingWith {tokens : List Token} (some : tokens ≠ [])
    (items : List ScanItem) :
    Concludes (.startingWith tokens items) (ofItems (tokens.map .ok ++ items)) := by
  obtain ⟨token, tokens, rfl⟩ := List.exists_cons_of_ne_nil some
  exact concludes_ofItems_cons token _

/-- A fault behind the start of an expression within the limit is reported. -/
theorem ofItems_interrupted {tokens : List Token} {more : List Token.Kind} {tree : Expr}
    (derives : Phrase.expr.Derives (tokens.map Token.kind ++ more) tree)
    (low : tree.height ≤ maxHeight) (x : ScanError) (rest : List ScanItem) :
    ofItems (tokens.map .ok ++ .error x :: rest) = .error (.scan x) := by
  cases tokens with
  | nil => rfl
  | cons token tokens =>
      obtain ⟨behind, rfl⟩ := Token.exists_map_kind more
      rw [← List.map_append] at derives
      have whole := ofItems_of_derives derives low
      rw [List.map_append] at whole
      rcases cases_of_fault token tokens (behind.map .ok) with
        ⟨err, -, -, -, -, failed⟩ | ⟨reported, -⟩
      · have failed : ofItems ((token :: tokens).map .ok ++ behind.map .ok) = _ := failed
        rw [whole] at failed
        contradiction
      · exact reported

/-- Reading an expression within the limit comes to the first leaf of a group with the group open
and with room for the leaf, whatever follows it. -/
theorem exists_reaches_group {front : List Token} {opener token : Token}
    {more : List Token.Kind} {tree : Expr}
    (derives : Phrase.expr.Derives ((front ++ [opener, token]).map Token.kind ++ more) tree)
    (low : tree.height ≤ maxHeight) (isOpen : opener.kind = .symbol .openParen) :
    ∃ stack : List Frame, (Frame.group opener :: stack).length + 1 ≤ maxHeight ∧
      ∀ items : List ScanItem,
        Reaches maxHeight (start (.startingWith (front ++ [opener, token]) items))
          ⟨.group opener :: stack, .operand, ⟨some token, items⟩⟩ := by
  obtain ⟨behind, rfl⟩ := Token.exists_map_kind more
  rw [← List.map_append, List.append_assoc, List.cons_append, List.singleton_append] at derives
  have whole := (derives.arrives_start maxHeight).resolve_right fun high => by omega
  obtain ⟨c, _, _, steps, move⟩ := whole.exists_take rfl rfl (Nat.zero_le _)
  obtain ⟨rfl, rfl⟩ := move.eq_of_openParen isOpen
  refine ⟨c.stack, Nat.not_lt.1 fun deep => Nat.not_lt.2 low ?_, ?_⟩
  · -- Without room the whole tree would be too high.
    obtain ⟨read, stream, -, high⟩ :=
      steps.lt_height (Feed.shift_ofTokens _) (Nat.le_of_lt_succ deep)
    rw [List.tail_cons, Feed.stream_ofTokens behind, ← List.map_append] at stream
    refine high (behind.map Token.kind) tree ?_
    rwa [← List.map_append, ← Feed.eq_of_stream stream]
  · obtain ⟨read, stream, runs⟩ := steps.replay (show _ = some token from rfl)
    rw [Feed.stream_ofTokens (token :: behind), ← List.map_append] at stream
    obtain rfl : front ++ [opener] = read :=
      List.append_cancel_right (by simpa using Feed.eq_of_stream stream)
    rwa [List.append_assoc] at runs

/-- A token behind the first leaf of a group is blamed if it neither continues nor closes the group,
whatever follows it. -/
theorem ofItems_unclosed {front : List Token} {opener token stray : Token}
    {more : List Token.Kind} {tree leaf : Expr}
    (derives : Phrase.expr.Derives ((front ++ [opener, token]).map Token.kind ++ more) tree)
    (low : tree.height ≤ maxHeight) (isOpen : opener.kind = .symbol .openParen)
    (isLeaf : token.kind.opening? = some (.leaf leaf)) (none : stray.kind.continuation? = none)
    (isOther : stray.kind ≠ .symbol .closeParen) (rest : List ScanItem) :
    ofItems ((front ++ [opener, token]).map .ok ++ .ok stray :: rest) =
      .error (.parse (.unexpectedToken .closeParen stray)) := by
  obtain ⟨stack, shallow, runs⟩ := exists_reaches_group derives low isOpen
  have takes : step maxHeight ⟨.group opener :: stack, .operand, ⟨some token, .ok stray :: rest⟩⟩ =
      .next ⟨.group opener :: stack, .operator leaf, ⟨some stray, rest⟩⟩ := by
    have leaves : Leaves ⟨some token, .ok stray :: rest⟩ true ⟨some stray, rest⟩ := rfl
    exact Move.step_eq (.leaf shallow isLeaf) leaves
  have stops : step maxHeight ⟨.group opener :: stack, .operator leaf, ⟨some stray, rest⟩⟩ =
      .halt (.error (.parse (.unexpectedToken .closeParen stray))) ⟨some stray, rest⟩ := by
    rw [step_of_ends (ends_of_continuation_none none)]
    simp only [stepClose, isOther, if_false, fail]
  have halts := Halts.of_reaches ((runs (.ok stray :: rest)).tail takes) (.of_step stops)
  exact (concludes_ofItems_startingWith (by simp) _).eq_of_halts_error halts

end Expr

end PredicateLang
