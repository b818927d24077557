import PredicateLang.Proofs.Reading.Acceptance

/-!
# Calls of a reader, one after the other

A reader can be called again, whether the calls before have failed or not. What it answers is how
the machine stops on what is left to be read (`Reader.exists_halts_answer`). The machine has no
counters, so nothing else can have a part in the answer (`Reader.answer_after`): the depth is back
at zero after every call, and the height that a call has left is not looked at.

Where the answer is a fault in the stream, the machine has come to it by taking tokens, and the one
in advance stays.
-/

namespace PredicateLang

inductive Call
  /-- One expression. -/
  | expression
  /-- One expression, with which the stream has to end. -/
  | complete
  deriving DecidableEq

def Call.step : Call → Read Expr
  | expression => Reader.expression
  | complete => Reader.complete

namespace Reader

def answer (r : Reader) (call : Call) : Except ReadError Expr × Reader :=
  match EStateM.run call.step r with
  | .ok e r => (.ok e, r)
  | .error err r => (.error err, r)

def after (r : Reader) (calls : List Call) : Reader :=
  calls.foldl (fun r call => (r.answer call).2) r

@[simp] theorem after_nil (r : Reader) : r.after [] = r := rfl

@[simp] theorem after_cons (r : Reader) (call : Call) (calls : List Call) :
    r.after (call :: calls) = (r.answer call).2.after calls := rfl

end Reader

def Call.conclude : Call → Except ReadError Expr → Feed → Except ReadError Expr × Feed
  | complete, .ok _, ⟨some token, items⟩ =>
      (.error (.parse (.trailingInput token)), ⟨none, items⟩)
  | _, result, feed => (result, feed)

theorem Call.conclude_of_fault {call : Call} {result : Except ReadError Expr} {feed feed' : Feed}
    {x : ScanError} (h : (.error (.scan x), feed') = call.conclude result feed) :
    result = .error (.scan x) ∧ feed' = feed := by
  unfold conclude at h
  split at h <;> cases h
  exact ⟨rfl, rfl⟩

abbrev Feed.Takes : Feed → Feed → Prop :=
  Relation.ReflTransGen fun feed feed' => ∃ taken : Option Token, feed.shift = (.ok taken, feed')

theorem Feed.eq_of_shift_error {feed feed' : Feed} {x : ScanError}
    (h : feed.shift = (.error x, feed')) :
    ∃ rest : List ScanItem, feed.items = .error x :: rest ∧ feed' = ⟨feed.lookahead, rest⟩ := by
  obtain ⟨ahead, items⟩ := feed
  match items with
  | [] | .ok _ :: _ => cases h
  | .error _ :: items =>
      cases h
      exact ⟨items, rfl, rfl⟩

namespace Machine

variable {limit : Nat} {c d : Config} {feed : Feed} {x : ScanError}

theorem takes_of_step (h : step limit c = .next d) : c.feed.Takes d.feed := by
  obtain ⟨taken, -, leaves⟩ := move_of_step h
  cases taken with
  | true => exact .single ⟨_, leaves⟩
  | false =>
      have same : d.feed = c.feed := leaves
      rw [same]

theorem Reaches.takes (steps : Reaches limit c d) : c.feed.Takes d.feed := by
  induction steps with
  | refl => exact .refl
  | tail _ one ih => exact ih.trans (takes_of_step one)

theorem shift_of_step (h : step limit c = .halt (.error (.scan x)) feed) :
    c.feed.shift = (.error x, feed) := by
  rcases cases_of_halt h with ⟨e, ⟨⟩, -⟩ | ⟨_, ⟨⟩, shifted⟩ | ⟨err, ⟨⟩⟩
  exact shifted

end Machine

open Machine

namespace Reader

variable {r r' : Reader}

/-- The machine stops, a call answers accordingly, and the depth is what it was. -/
theorem exists_halts_answer (hdepth : r.depth = 0) (call : Call) :
    ∃ (result : Except ReadError Expr) (rest : Feed),
      Halts maxHeight (start r.feed) result rest ∧
        ((r.answer call).1, (r.answer call).2.feed) = call.conclude result rest ∧
        (r.answer call).2.depth = 0 := by
  have follows := follows_expression r hdepth
  cases call with
  | expression =>
      simp only [answer, Call.step]
      cases h : EStateM.run expression r with
      | ok e r' =>
          rw [h] at follows
          obtain ⟨steps, stop, -, -, depth⟩ := follows
          exact ⟨_, _, Reaches.halts_of_trailing steps stop, rfl, depth⟩
      | error err r' =>
          rw [h] at follows
          exact ⟨_, _, follows.1, rfl, follows.2⟩
  | complete =>
      simp only [answer, Call.step, complete, EStateM.run_bind]
      cases h : EStateM.run expression r with
      | ok e r' =>
          rw [h] at follows
          obtain ⟨steps, stop, -, -, depth⟩ := follows
          refine ⟨_, _, Reaches.halts_of_trailing steps stop, ?_⟩
          simp only [EStateM.run_get]
          cases found : r'.lookahead with
          | none => exact ⟨by simp [feed, found, Call.conclude], depth⟩
          | some token => exact ⟨by simp [feed, found, Call.conclude], depth⟩
      | error err r' =>
          rw [h] at follows
          exact ⟨_, _, follows.1, rfl, follows.2⟩

/-- How the machine stops decides what a call answers and leaves. -/
theorem answer_of_halts (hdepth : r.depth = 0) {result : Except ReadError Expr} {rest : Feed}
    (halts : Halts maxHeight (start r.feed) result rest) (call : Call) :
    ((r.answer call).1, (r.answer call).2.feed) = call.conclude result rest := by
  obtain ⟨result', rest', halts', answers, -⟩ := exists_halts_answer hdepth call
  obtain ⟨rfl, rfl⟩ := halts.unique halts'
  exact answers

theorem depth_answer (hdepth : r.depth = 0) (call : Call) : (r.answer call).2.depth = 0 := by
  obtain ⟨_, _, _, _, depth⟩ := exists_halts_answer hdepth call
  exact depth

theorem answer_eq_of_feed_eq (hdepth : r.depth = 0) (hdepth' : r'.depth = 0)
    (same : r.feed = r'.feed) (call : Call) :
    (r.answer call).1 = (r'.answer call).1 ∧
      (r.answer call).2.feed = (r'.answer call).2.feed := by
  obtain ⟨result, rest, halts, answers, -⟩ := exists_halts_answer hdepth call
  exact Prod.mk.inj (answers.trans (answer_of_halts hdepth' (same ▸ halts) call).symm)

/-- Where a call answers with a fault, the reader has come to it in the stream. -/
theorem exists_takes_of_answer_fault (hdepth : r.depth = 0) {call : Call} {x : ScanError}
    (failed : (r.answer call).1 = .error (.scan x)) :
    ∃ (before : Feed) (rest : List ScanItem), r.feed.Takes before ∧
      before.items = .error x :: rest ∧
      (r.answer call).2.feed = ⟨before.lookahead, rest⟩ := by
  obtain ⟨result, rest, ⟨c, steps, stop⟩, answers, -⟩ := exists_halts_answer hdepth call
  rw [failed] at answers
  obtain ⟨rfl, left⟩ := Call.conclude_of_fault answers
  obtain ⟨items, next, rfl⟩ := Feed.eq_of_shift_error (shift_of_step stop)
  exact ⟨c.feed, items, steps.takes, next, left⟩

theorem depth_after (hdepth : r.depth = 0) (calls : List Call) : (r.after calls).depth = 0 := by
  induction calls generalizing r with
  | nil => exact hdepth
  | cons call calls ih => exact ih (depth_answer hdepth call)

theorem depth_ofItems {items : List ScanItem} (h : ofItems items = .ok r) : r.depth = 0 := by
  match items with
  | [] | .ok _ :: _ => cases h; rfl
  | .error _ :: _ => contradiction

def ofFeed (feed : Feed) : Reader :=
  ⟨feed.lookahead, feed.items, 0, 0⟩

/-- A reader carries nothing from one call to the next but what is left to be read. After any calls,
whatever they have answered, no call counts as under way, and the next one answers and leaves what
it would with a reader that has made none. If the answer is a fault in the stream, all tokens up to
the fault have been taken but the one in advance, which stays. -/
theorem answer_after {items : List ScanItem} (opened : ofItems items = .ok r) (calls : List Call)
    (next : Call) :
    (r.after calls).depth = 0 ∧
    ((r.after calls).answer next).1 = ((ofFeed (r.after calls).feed).answer next).1 ∧
    ((r.after calls).answer next).2.feed = ((ofFeed (r.after calls).feed).answer next).2.feed ∧
    ∀ x : ScanError, ((r.after calls).answer next).1 = .error (.scan x) →
      ∃ (before : Feed) (rest : List ScanItem), (r.after calls).feed.Takes before ∧
        before.items = .error x :: rest ∧
        ((r.after calls).answer next).2.feed = ⟨before.lookahead, rest⟩ := by
  have depth := depth_after (depth_ofItems opened) calls
  have fresh : (ofFeed (r.after calls).feed).depth = 0 := rfl
  obtain ⟨answers, leaves⟩ := answer_eq_of_feed_eq depth fresh rfl next
  exact ⟨depth, answers, leaves, fun x => exists_takes_of_answer_fault depth⟩

def faultyGroup : Reader :=
  ⟨some ⟨.symbol .openParen, 0⟩, [.error (.unexpectedCharacter 1 '#'), .ok ⟨.name "a", 2⟩,
    .error (.unexpectedCharacter 3 '#'), .ok ⟨.symbol .closeParen, 4⟩], 0, 0⟩

/-- One call fails at the first fault, and the next one at the second, where the name stays. -/
theorem answer_after_faultyGroup :
    ofItems (.ok ⟨.symbol .openParen, 0⟩ :: faultyGroup.items) = .ok faultyGroup ∧
    (faultyGroup.after [.expression]).depth = 0 ∧
    ((faultyGroup.after [.expression]).answer .complete).1 =
      .error (.scan (.unexpectedCharacter 3 '#')) ∧
    ∃ (before : Feed) (rest : List ScanItem),
      (faultyGroup.after [.expression]).feed.Takes before ∧
      before.items = .error (.unexpectedCharacter 3 '#') :: rest ∧
      ((faultyGroup.after [.expression]).answer .complete).2.feed = ⟨before.lookahead, rest⟩ := by
  have opened : ofItems (.ok ⟨.symbol .openParen, 0⟩ :: faultyGroup.items) = .ok faultyGroup :=
    rfl
  have failed : ((faultyGroup.after [.expression]).answer .complete).1 =
      .error (.scan (.unexpectedCharacter 3 '#')) := rfl
  have after := answer_after opened [.expression] .complete
  exact ⟨opened, after.1, failed, after.2.2.2 _ failed⟩

end Reader

end PredicateLang
