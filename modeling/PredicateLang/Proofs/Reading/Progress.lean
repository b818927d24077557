import PredicateLang.Proofs.Reading.Juxtaposition

/-!
# Calls use up the stream

A reader that is called again and again comes to the end of its stream, whatever it answers. Every
call leaves less than it has found (`Reader.remaining_answer_lt`), and where nothing is left it
finds no expression. So there is a bound on the calls that can answer anything else
(`Reader.answers_exhaust`).

The number of items that are left is no measure of that. The last call that finds an expression may
take nothing but the token in advance; and where trailing input has been taken away, the next call
only moves an item into its place. `Feed.remaining` counts both of these steps of an item, one into
the place in advance and one out of it.
-/

namespace PredicateLang

open Machine

/-- How much is left to be read: an item of the stream counts twice, and a token that has been taken
in advance once more. -/
def Feed.remaining (feed : Feed) : Nat :=
  2 * feed.items.length + if feed.lookahead.isSome then 1 else 0

namespace Feed

theorem remaining_eq_zero_iff {feed : Feed} : feed.remaining = 0 ↔ feed = .ofTokens [] := by
  obtain ⟨ahead, items⟩ := feed
  cases ahead <;> cases items <;> simp [remaining, ofTokens]

theorem remaining_shift_lt {feed : Feed} (more : 0 < feed.remaining) :
    feed.shift.2.remaining < feed.remaining := by
  obtain ⟨ahead, items⟩ := feed
  match items with
  | [] =>
      cases ahead with
      | none => contradiction
      | some token => exact Nat.zero_lt_one
  | .ok token :: items =>
      simp only [shift, remaining, Option.isSome_some, if_true, List.length_cons]
      omega
  | .error e :: items =>
      have fewer : 2 * items.length < 2 * (items.length + 1) := by omega
      exact Nat.add_lt_add_right fewer _

theorem remaining_shift_le (feed : Feed) : feed.shift.2.remaining ≤ feed.remaining := by
  rcases Nat.eq_zero_or_pos feed.remaining with isOver | more
  · rw [remaining_eq_zero_iff.1 isOver]
    exact Nat.le_refl _
  · exact Nat.le_of_lt (remaining_shift_lt more)

end Feed

/-! ### What the machine leaves -/

namespace Machine

def Step.feed : Step → Feed
  | next c => c.feed
  | halt _ feed => feed

variable {limit : Nat} {stack : List Frame} {c d : Config} {feed rest : Feed}
  {result : Except ReadError Expr}

theorem feed_take {next : Option Token → Feed → Step}
    (keeps : ∀ (taken : Option Token) (rest : Feed), (next taken rest).feed = rest) :
    (take feed next).feed = feed.shift.2 := by
  unfold take
  split
  · next shifted => rw [keeps, shifted]
  · next shifted => rw [shifted]; rfl

theorem feed_build (limit : Nat) (token : Token) (e : Expr) (stack : List Frame) (feed : Feed) :
    (build limit token e stack feed).feed = feed := by
  unfold build
  split <;> rfl

/-- Where an expression is to start, a token is asked for in any case. -/
theorem feed_stepOperand : (stepOperand limit stack feed).feed = feed.shift.2 := by
  refine feed_take fun taken rest => ?_
  split
  · rfl
  · split
    · rfl
    · split
      · rfl
      · next token _ _ opening _ => cases opening <;> rfl

theorem feed_stepClose (limit : Nat) (e : Expr) (feed : Feed) (stack : List Frame) :
    (stepClose limit e feed stack).feed = feed ∨
      (stepClose limit e feed stack).feed = feed.shift.2 := by
  cases stack with
  | nil => exact .inl rfl
  | cons frame stack =>
      cases frame with
      | not | binary => exact .inl (feed_build ..)
      | group opener =>
          simp only [stepClose]
          split
          · exact .inl rfl
          · split
            · exact .inr (feed_take fun _ _ => feed_build ..)
            · exact .inl rfl

theorem feed_step (limit : Nat) (c : Config) :
    (step limit c).feed = c.feed ∨ (step limit c).feed = c.feed.shift.2 := by
  obtain ⟨stack, phase, feed⟩ := c
  cases phase with
  | operand => exact .inr feed_stepOperand
  | operator left =>
      simp only [step, stepOperator]
      split
      · exact feed_stepClose ..
      · next token continuation _ =>
          exact .inr (feed_take fun _ _ => by cases continuation <;> rfl)
  | field operator kind base =>
      simp only [step, stepField]
      split
      · exact .inl rfl
      · split
        · exact .inl rfl
        · exact .inr (feed_take fun _ _ => feed_build ..)

theorem remaining_step_le (limit : Nat) (c : Config) :
    (step limit c).feed.remaining ≤ c.feed.remaining := by
  rcases feed_step limit c with same | shifted
  · exact Nat.le_of_eq (congrArg Feed.remaining same)
  · rw [shifted]
    exact c.feed.remaining_shift_le

theorem Reaches.remaining_le (steps : Reaches limit c d) :
    d.feed.remaining ≤ c.feed.remaining := by
  induction steps with
  | refl => exact Nat.le_refl _
  | @tail c' d' _ one ih =>
      have last := remaining_step_le limit c'
      rw [one] at last
      exact Nat.le_trans last ih

theorem Halts.remaining_le (halts : Halts limit c result rest) :
    rest.remaining ≤ c.feed.remaining := by
  obtain ⟨d, steps, stop⟩ := halts
  have last := remaining_step_le limit d
  rw [stop] at last
  exact Nat.le_trans last (Reaches.remaining_le steps)

/-- The first step of reading an expression asks for a token, and no later one gives it back. -/
theorem Halts.remaining_lt (halts : Halts limit (start feed) result rest)
    (more : 0 < feed.remaining) : rest.remaining < feed.remaining := by
  refine Nat.lt_of_le_of_lt ?_ (Feed.remaining_shift_lt more)
  have first : (step limit (start feed)).feed = feed.shift.2 := feed_stepOperand
  rw [← first]
  obtain ⟨d, steps, stop⟩ := halts
  rcases Relation.ReflTransGen.cases_head steps with rfl | ⟨c, one, onward⟩
  · rw [stop]
    exact Nat.le_refl _
  · rw [one]
    exact Halts.remaining_le ⟨d, onward, stop⟩

end Machine

theorem Call.remaining_conclude_le (call : Call) (result : Except ReadError Expr) (feed : Feed) :
    (call.conclude result feed).2.remaining ≤ feed.remaining := by
  unfold conclude
  split
  · exact Nat.le_add_right _ _
  · exact Nat.le_refl _

/-! ### Calls one after the other -/

namespace Reader

variable {r : Reader}

theorem remaining_answer_lt (hdepth : r.depth = 0) (call : Call) (more : 0 < r.feed.remaining) :
    (r.answer call).2.feed.remaining < r.feed.remaining := by
  obtain ⟨result, rest, halts, answers, -⟩ := exists_halts_answer hdepth call
  have left : (r.answer call).2.feed = (call.conclude result rest).2 := congrArg Prod.snd answers
  rw [left]
  exact Nat.lt_of_le_of_lt (call.remaining_conclude_le result rest) (halts.remaining_lt more)

theorem answers_of_remaining_eq_zero (hdepth : r.depth = 0) (isOver : r.feed.remaining = 0)
    (calls : List Call) :
    r.answers calls =
      List.replicate calls.length (.error (.parse (.unexpectedEnd .expression)), .ofTokens []) :=
  answers_at_end hdepth (Feed.remaining_eq_zero_iff.1 isOver) calls

/-- When as many calls have been made as could use up the stream, it is used up. -/
theorem exists_answers_eq_append (hdepth : r.depth = 0) {n : Nat} (bound : r.feed.remaining ≤ n)
    (calls : List Call) :
    ∃ (first : List (Except ReadError Expr × Feed)) (k : Nat), first.length ≤ n ∧
      r.answers calls =
        first ++ List.replicate k (.error (.parse (.unexpectedEnd .expression)), .ofTokens []) := by
  induction calls generalizing r n with
  | nil => exact ⟨[], 0, Nat.zero_le n, rfl⟩
  | cons call calls ih =>
      rcases Nat.eq_zero_or_pos r.feed.remaining with isOver | more
      · have rest := answers_of_remaining_eq_zero hdepth isOver (call :: calls)
        exact ⟨[], calls.length + 1, Nat.zero_le n, rest⟩
      · have less := remaining_answer_lt hdepth call more
        obtain ⟨first, k, short, rest⟩ :=
          ih (depth_answer hdepth call) (Nat.le_sub_one_of_lt (Nat.lt_of_lt_of_le less bound))
        refine ⟨((r.answer call).1, (r.answer call).2.feed) :: first, k, ?_, ?_⟩
        · rw [List.length_cons]
          omega
        · rw [answers_cons, rest, List.cons_append]

theorem remaining_ofItems_le {items : List ScanItem} (opened : ofItems items = .ok r) :
    r.feed.remaining ≤ 2 * items.length := by
  match items with
  | [] => cases opened; exact Nat.le_refl _
  | .ok token :: items =>
      cases opened
      simp only [Feed.remaining, feed, Option.isSome_some, if_true, List.length_cons]
      omega
  | .error _ :: _ => contradiction

/-- However a reader is called, it comes to the end of its stream. As long as anything is left,
every call leaves less than there was, also if it fails. When nothing is left, every further call
finds no expression where the stream ends. So all but at most two calls for each item of the stream
answer just that. -/
theorem answers_exhaust {items : List ScanItem} (opened : ofItems items = .ok r)
    (calls : List Call) :
    (∀ next : Call, 0 < (r.after calls).feed.remaining →
      ((r.after calls).answer next).2.feed.remaining < (r.after calls).feed.remaining) ∧
    ((r.after calls).feed.remaining = 0 → ∀ later : List Call,
      (r.after calls).answers later = List.replicate later.length
        (.error (.parse (.unexpectedEnd .expression)), .ofTokens [])) ∧
    ∃ (first : List (Except ReadError Expr × Feed)) (k : Nat),
      first.length ≤ 2 * items.length ∧
      r.answers calls =
        first ++ List.replicate k (.error (.parse (.unexpectedEnd .expression)), .ofTokens []) := by
  have depth := depth_ofItems opened
  have depthAfter := depth_after depth calls
  exact ⟨fun next => remaining_answer_lt depthAfter next,
    fun isOver => answers_of_remaining_eq_zero depthAfter isOver,
    exists_answers_eq_append depth (remaining_ofItems_le opened) calls⟩

def scattered : Reader :=
  ⟨some ⟨.name "a", 0⟩, [.error (.unexpectedCharacter 1 '#'), .ok ⟨.name "b", 2⟩,
    .ok ⟨.name "c", 4⟩], 0, 0⟩

/-- The second call takes `b` away as trailing input. So the third one finds no token in advance and
no expression, and leaves less all the same: the fourth one reads `c`, the last there is. -/
theorem answers_exhaust_scattered :
    ofItems (.ok ⟨.name "a", 0⟩ :: scattered.items) = .ok scattered ∧
    (scattered.after [.expression, .complete]).feed = ⟨none, [.ok ⟨.name "c", 4⟩]⟩ ∧
    ((scattered.after [.expression, .complete]).answer .complete).1 =
      .error (.parse (.unexpectedEnd .expression)) ∧
    ((scattered.after [.expression, .complete]).answer .complete).2.feed.remaining < 2 ∧
    ∀ later : List Call,
      (scattered.after [.expression, .complete, .complete, .complete]).answers later =
        List.replicate later.length
          (.error (.parse (.unexpectedEnd .expression)), .ofTokens []) := by
  have opened : ofItems (.ok ⟨.name "a", 0⟩ :: scattered.items) = .ok scattered := rfl
  have calls := answers_exhaust opened [.expression, .complete]
  have all := answers_exhaust opened [.expression, .complete, .complete, .complete]
  exact ⟨opened, rfl, rfl, calls.1 .complete (by decide), all.2.1 rfl⟩

end Reader

end PredicateLang
