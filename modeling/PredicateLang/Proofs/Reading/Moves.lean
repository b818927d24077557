import PredicateLang.Proofs.Reading.Machine

/-!
# What a step of the machine can do

`Move` lists the transitions of the machine, one constructor each: what it needs of the stack,
the phase and the token in advance, whether it takes that token, and where it leads. By
`move_of_step` these are all the steps that do not stop; how the others stop is in
`cases_of_halt`. What follows the token in advance has no part in a transition.
-/

namespace PredicateLang

def Ends (min : Level) (ahead : Option Token) : Prop :=
  ∀ token ∈ ahead, ∀ continuation ∈ token.kind.continuation?,
    continuation.level.rank < min.rank

theorem Level.rank_le (l : Level) : l.rank ≤ Level.primary.rank := by
  cases l <;> decide

theorem Ends.mono {min min' : Level} {ahead : Option Token} (h : Ends min ahead)
    (le : min.rank ≤ min'.rank) : Ends min' ahead :=
  fun token found continuation continues =>
    Nat.lt_of_lt_of_le (h token found continuation continues) le

theorem Ends.of_kind {min : Level} {token token' : Token} (h : Ends min (some token))
    (same : token'.kind = token.kind) : Ends min (some token') := by
  rintro _ ⟨⟩ continuation continues
  exact h token rfl continuation (same ▸ continues)

/-- No operator binds tighter than an access. -/
theorem ends_primary (ahead : Option Token) : Ends .primary ahead := by
  intro token _ continuation _
  cases continuation with
  | binary op => cases op <;> decide
  | access kind => exact Nat.lt_succ_self _

namespace Feed

variable {min : Level} {feed : Feed} {token : Token} {continuation : Continuation}

theorem continuation?_of_end (ahead : feed.lookahead = none) : feed.continuation? min = none := by
  rw [continuation?, ahead]
  rfl

theorem continuation?_of_none (ahead : feed.lookahead = some token)
    (h : token.kind.continuation? = none) : feed.continuation? min = none := by
  rw [continuation?, ahead]
  change token.kind.continuation?.bind _ = none
  rw [h, Option.bind_none]

theorem continuation?_of_some (ahead : feed.lookahead = some token)
    (h : token.kind.continuation? = some continuation) :
    feed.continuation? min =
      if min.rank ≤ continuation.level.rank then some (token, continuation) else none := by
  rw [continuation?, ahead]
  change (token.kind.continuation?.bind fun continuation =>
    (if min.rank ≤ continuation.level.rank then some () else none).bind fun _ =>
      some (token, continuation)) = _
  rw [h, Option.bind_some]
  split <;> rfl

theorem continuation?_eq_none_iff : feed.continuation? min = none ↔ Ends min feed.lookahead := by
  cases ahead : feed.lookahead with
  | none => simp [continuation?_of_end ahead, Ends]
  | some token =>
      cases h : token.kind.continuation? with
      | none => simp [continuation?_of_none ahead h, Ends, h]
      | some continuation => simp [continuation?_of_some ahead h, Ends, h]

theorem continuation?_eq_some_iff :
    feed.continuation? min = some (token, continuation) ↔
      feed.lookahead = some token ∧ token.kind.continuation? = some continuation ∧
        min.rank ≤ continuation.level.rank := by
  cases ahead : feed.lookahead with
  | none => simp [continuation?_of_end ahead]
  | some other =>
      cases h : other.kind.continuation? with
      | none =>
          simp only [continuation?_of_none ahead h, reduceCtorEq, Option.some.injEq, false_iff,
            not_and]
          rintro rfl
          simp [h]
      | some continuation =>
          simp only [continuation?_of_some ahead h, Option.some.injEq]
          constructor
          · intro found
            split at found
            · cases found
              exact ⟨rfl, h, ‹_›⟩
            · contradiction
          · rintro ⟨rfl, found, loose⟩
            rw [h] at found
            cases found
            rw [if_pos loose]

end Feed

namespace Machine

/-- The transitions of the machine: from a stack and a phase, with a token in advance that is
taken or not, to another stack and phase. -/
inductive Move (limit : Nat) :
    List Frame → Phase → Option Token → Bool → List Frame → Phase → Prop
  | leaf {stack : List Frame} {token : Token} {e : Expr} :
      stack.length + 1 ≤ limit → token.kind.opening? = some (.leaf e) →
      Move limit stack .operand (some token) true stack (.operator e)
  | group {stack : List Frame} {token : Token} :
      stack.length + 1 ≤ limit → token.kind.opening? = some .group →
      Move limit stack .operand (some token) true (.group token :: stack) .operand
  | not {stack : List Frame} {token : Token} :
      stack.length + 1 ≤ limit → token.kind.opening? = some .not →
      Move limit stack .operand (some token) true (.not token :: stack) .operand
  | binary {stack : List Frame} {token : Token} {op : Connective} {left : Expr} :
      token.kind.continuation? = some (.binary op) →
      (stackLevel stack).rank ≤ op.level.rank →
      Move limit stack (.operator left) (some token) true (.binary token op left :: stack)
        .operand
  | access {stack : List Frame} {token : Token} {kind : Access} {base : Expr} :
      token.kind.continuation? = some (.access kind) →
      (stackLevel stack).rank ≤ Level.access.rank →
      Move limit stack (.operator base) (some token) true stack (.field token kind base)
  | closeNot {stack : List Frame} {ahead : Option Token} {opener : Token} {e : Expr} :
      Ends .not ahead → (Expr.not e).height ≤ limit →
      Move limit (.not opener :: stack) (.operator e) ahead false stack (.operator (.not e))
  | closeBinary {stack : List Frame} {ahead : Option Token} {operator : Token}
      {op : Connective} {left right : Expr} :
      Ends op.level.next ahead → (Expr.binary op left right).height ≤ limit →
      Move limit (.binary operator op left :: stack) (.operator right) ahead false stack
        (.operator (.binary op left right))
  | closeGroup {stack : List Frame} {opener token : Token} {e : Expr} :
      token.kind = .symbol .closeParen → (Expr.group e).height ≤ limit →
      Move limit (.group opener :: stack) (.operator e) (some token) true stack
        (.operator (.group e))
  | field {stack : List Frame} {operator token : Token} {kind : Access} {base : Expr}
      {s : String} :
      token.kind.name? = some s → (Expr.access kind base (.name s)).height ≤ limit →
      Move limit stack (.field operator kind base) (some token) true stack
        (.operator (.access kind base (.name s)))

/-- What a transition leaves to be read: all, or what follows the token that it takes. -/
def Leaves (feed : Feed) (taken : Bool) (feed' : Feed) : Prop :=
  if taken then feed.shift = (.ok feed.lookahead, feed') else feed' = feed

section

variable {limit : Nat} {stack stack' : List Frame} {phase phase' : Phase} {feed feed' : Feed}
  {taken : Bool} {c d : Config}

theorem build_eq_next_iff {token : Token} {e : Expr} :
    build limit token e stack feed = .next d ↔
      e.height ≤ limit ∧ d = ⟨stack, .operator e, feed⟩ := by
  simp only [build, fail]
  split
  · simp; omega
  · simp only [Step.next.injEq, eq_comm (b := d)]
    exact ⟨fun h => ⟨by omega, h⟩, And.right⟩

theorem take_eq_next_iff {next : Option Token → Feed → Step} :
    take feed next = .next d ↔
      ∃ feed' : Feed, Leaves feed true feed' ∧ next feed.lookahead feed' = .next d := by
  obtain ⟨ahead, items⟩ := feed
  match items with
  | [] | .ok _ :: _ | .error _ :: _ => simp [take, Feed.shift, Leaves]

theorem step_of_ends {e : Expr} (ends : Ends (stackLevel stack) feed.lookahead) :
    step limit ⟨stack, .operator e, feed⟩ = stepClose limit e feed stack := by
  rw [step, stepOperator, Feed.continuation?_eq_none_iff.2 ends]

theorem step_of_finished {e : Expr} (ends : Ends .or feed.lookahead) :
    step limit ⟨[], .operator e, feed⟩ = .halt (.ok e) feed :=
  step_of_ends ends

/-- A transition is a step, whatever follows the token in advance. -/
theorem Move.step_eq (move : Move limit stack phase feed.lookahead taken stack' phase')
    (leaves : Leaves feed taken feed') :
    step limit ⟨stack, phase, feed⟩ = .next ⟨stack', phase', feed'⟩ := by
  generalize ahead : feed.lookahead = token at move
  cases move with
  | leaf shallow found | group shallow found | not shallow found =>
      rw [step, stepOperand, take_eq_next_iff]
      refine ⟨feed', leaves, ?_⟩
      simp only [ahead, Nat.not_lt.2 shallow, if_false, found, opened]
  | binary found loose =>
      rw [step, stepOperator, Feed.continuation?_eq_some_iff.2 ⟨ahead, found, loose⟩]
      exact take_eq_next_iff.2 ⟨feed', leaves, rfl⟩
  | access found loose =>
      rw [step, stepOperator, Feed.continuation?_eq_some_iff.2 ⟨ahead, found, loose⟩]
      exact take_eq_next_iff.2 ⟨feed', leaves, rfl⟩
  | closeNot ends low | closeBinary ends low =>
      obtain rfl : feed' = feed := leaves
      rw [step_of_ends (ahead ▸ ends)]
      exact build_eq_next_iff.2 ⟨low, rfl⟩
  | @closeGroup _ opener _ _ isClose low =>
      have ends : Ends (stackLevel (.group opener :: stack')) feed.lookahead := by
        rw [ahead]
        rintro _ ⟨⟩ continuation found
        rw [isClose] at found
        contradiction
      rw [step_of_ends ends]
      simp only [stepClose, ahead, isClose, if_true]
      exact take_eq_next_iff.2 ⟨feed', leaves, build_eq_next_iff.2 ⟨low, rfl⟩⟩
  | field found low =>
      simp only [step, stepField, ahead, found]
      exact take_eq_next_iff.2 ⟨feed', leaves, build_eq_next_iff.2 ⟨low, rfl⟩⟩

theorem move_of_stepOperand (h : stepOperand limit stack feed = .next d) :
    Move limit stack .operand feed.lookahead true d.stack d.phase ∧ Leaves feed true d.feed := by
  obtain ⟨feed', leaves, h⟩ := take_eq_next_iff.1 h
  split at h
  · contradiction
  · next token ahead =>
      split at h
      · contradiction
      · next shallow =>
          have shallow : stack.length + 1 ≤ limit := by omega
          split at h
          · contradiction
          · next opening found =>
              cases h
              rw [ahead]
              cases opening with
              | leaf e => exact ⟨.leaf shallow found, leaves⟩
              | group => exact ⟨.group shallow found, leaves⟩
              | not => exact ⟨.not shallow found, leaves⟩

theorem move_of_stepClose {e : Expr} (ends : Ends (stackLevel stack) feed.lookahead)
    (h : stepClose limit e feed stack = .next d) :
    ∃ taken : Bool, Move limit stack (.operator e) feed.lookahead taken d.stack d.phase ∧
      Leaves feed taken d.feed := by
  cases stack with
  | nil => contradiction
  | cons frame stack =>
      cases frame with
      | not opener =>
          obtain ⟨low, rfl⟩ := build_eq_next_iff.1 h
          exact ⟨false, .closeNot ends low, rfl⟩
      | binary operator op left =>
          obtain ⟨low, rfl⟩ := build_eq_next_iff.1 h
          exact ⟨false, .closeBinary ends low, rfl⟩
      | group opener =>
          simp only [stepClose] at h
          split at h
          · contradiction
          · next token ahead =>
              split at h
              · next isClose =>
                  obtain ⟨feed', leaves, h⟩ := take_eq_next_iff.1 h
                  obtain ⟨low, rfl⟩ := build_eq_next_iff.1 h
                  rw [ahead]
                  exact ⟨true, .closeGroup isClose low, leaves⟩
              · contradiction

/-- Every step that does not stop is a transition. -/
theorem move_of_step (h : step limit c = .next d) :
    ∃ taken : Bool, Move limit c.stack c.phase c.feed.lookahead taken d.stack d.phase ∧
      Leaves c.feed taken d.feed := by
  obtain ⟨stack, phase, feed⟩ := c
  cases phase with
  | operand => exact ⟨true, move_of_stepOperand h⟩
  | operator left =>
      simp only [step, stepOperator] at h
      split at h
      · next found => exact move_of_stepClose (Feed.continuation?_eq_none_iff.1 found) h
      · next token continuation found =>
          obtain ⟨ahead, found, loose⟩ := Feed.continuation?_eq_some_iff.1 found
          obtain ⟨feed', leaves, h⟩ := take_eq_next_iff.1 h
          cases h
          rw [ahead]
          cases continuation with
          | binary op => exact ⟨true, .binary found loose, leaves⟩
          | access kind => exact ⟨true, .access found loose, leaves⟩
  | field operator kind base =>
      simp only [step, stepField] at h
      split at h
      · contradiction
      · next token ahead =>
          split at h
          · contradiction
          · next s found =>
              obtain ⟨feed', leaves, h⟩ := take_eq_next_iff.1 h
              obtain ⟨low, rfl⟩ := build_eq_next_iff.1 h
              rw [ahead]
              exact ⟨true, .field found low, leaves⟩

/-! ### The steps that stop -/

variable {result : Except ReadError Expr}

theorem build_eq_halt {token : Token} {e : Expr} {rest : Feed}
    (h : build limit token e stack feed = .halt result rest) :
    ∃ err : ParseError, result = .error (.parse err) := by
  unfold build at h
  split at h <;> cases h
  exact ⟨_, rfl⟩

theorem take_eq_halt {next : Option Token → Feed → Step} {rest : Feed}
    (h : take feed next = .halt result rest) :
    (∃ x : ScanError, result = .error (.scan x) ∧ feed.shift = (.error x, rest)) ∨
      ∃ (taken : Option Token) (left : Feed), next taken left = .halt result rest := by
  unfold take at h
  split at h
  · exact .inr ⟨_, _, h⟩
  · next shifted =>
      cases h
      exact .inl ⟨_, rfl, shifted⟩

/-- The machine stops with a tree where nothing is open, with a fault where it comes to it in the
stream, and with a parse error otherwise. -/
theorem cases_of_halt {rest : Feed} (h : step limit c = .halt result rest) :
    (∃ e : Expr, result = .ok e ∧ c.stack = [] ∧ c.phase = .operator e) ∨
    (∃ x : ScanError, result = .error (.scan x) ∧ c.feed.shift = (.error x, rest)) ∨
    ∃ err : ParseError, result = .error (.parse err) := by
  obtain ⟨stack, phase, feed⟩ := c
  cases phase with
  | operand =>
      refine .inr ((take_eq_halt h).imp_right ?_)
      rintro ⟨taken, left, stop⟩
      split at stop
      · cases stop
        exact ⟨_, rfl⟩
      · split at stop
        · cases stop
          exact ⟨_, rfl⟩
        · split at stop <;> cases stop
          exact ⟨_, rfl⟩
  | operator left =>
      simp only [step, stepOperator] at h
      split at h
      · cases stack with
        | nil =>
            cases h
            exact .inl ⟨left, rfl, rfl, rfl⟩
        | cons frame stack =>
            cases frame with
            | not | binary => exact .inr (.inr (build_eq_halt h))
            | group opener =>
                simp only [stepClose] at h
                split at h
                · cases h
                  exact .inr (.inr ⟨_, rfl⟩)
                · split at h
                  · refine .inr ((take_eq_halt h).imp_right ?_)
                    rintro ⟨taken, left, stop⟩
                    exact build_eq_halt stop
                  · cases h
                    exact .inr (.inr ⟨_, rfl⟩)
      · refine .inr ((take_eq_halt h).imp_right ?_)
        rintro ⟨taken, left, ⟨⟩⟩
  | field operator kind base =>
      simp only [step, stepField] at h
      split at h
      · cases h
        exact .inr (.inr ⟨_, rfl⟩)
      · split at h
        · cases h
          exact .inr (.inr ⟨_, rfl⟩)
        · refine .inr ((take_eq_halt h).imp_right ?_)
          rintro ⟨taken, left, stop⟩
          exact build_eq_halt stop

end

end Machine

end PredicateLang
