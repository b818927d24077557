import Mathlib.Data.List.Forall2
import PredicateLang.Proofs.Reading.Acceptance

/-!
# Two streams read side by side

Two streams run parallel if they deliver corresponding tokens, one after the other, and then end.
Corresponding tokens have the same kind, so reading does the same on both streams and builds the
same tree; where it fails, it blames corresponding tokens (`Expr.parallel_ofItems`). Which tokens
correspond is a parameter: those at the same place in two sources, say, or equal ones.

The first stream may also break off with a fault, where the second goes on in any way. Then
reading the first gives that fault, unless both fail before they come to it.
-/

namespace PredicateLang

namespace ParseError

def blaming (token : Token) : ParseError → ParseError
  | .expectedExpression _ => .expectedExpression token
  | .unexpectedToken expected _ => .unexpectedToken expected token
  | .unexpectedEnd expected => .unexpectedEnd expected
  | .trailingInput _ => .trailingInput token
  | .tooDeep _ => .tooDeep token

theorem blaming_of_token? {token : Token} {err : ParseError} (h : err.token? = some token) :
    err.blaming token = err := by
  cases err <;> cases h <;> rfl

end ParseError

section

/- Tokens in the relation `R` correspond. If there is a `fault`, the first stream breaks off with it
where the second goes on with `tail`; otherwise both end. -/
variable (R : Token → Token → Prop) (fault : Option ScanError) (tail : List ScanItem)

/-- The streams deliver corresponding tokens, up to their end or up to a fault in the first. -/
inductive Parallel : List ScanItem → List ScanItem → Prop
  | nil : fault = none → Parallel [] []
  | fault {e : ScanError} (rest : List ScanItem) :
      fault = some e → Parallel (.error e :: rest) tail
  | cons {token token' : Token} {items items' : List ScanItem} :
      R token token' → Parallel items items' →
      Parallel (.ok token :: items) (.ok token' :: items')

inductive Feed.Parallel : Feed → Feed → Prop
  | nil : fault = none → Feed.Parallel ⟨none, []⟩ ⟨none, []⟩
  | cons {token token' : Token} {items items' : List ScanItem} :
      R token token' → PredicateLang.Parallel R fault tail items items' →
      Feed.Parallel ⟨some token, items⟩ ⟨some token', items'⟩

inductive Frame.Parallel : Frame → Frame → Prop
  | group {token token' : Token} : R token token' → Parallel (.group token) (.group token')
  | not {token token' : Token} : R token token' → Parallel (.not token) (.not token')
  | binary {token token' : Token} (op : Connective) (left : Expr) :
      R token token' → Parallel (.binary token op left) (.binary token' op left)

inductive Phase.Parallel : Phase → Phase → Prop
  | operand : Parallel .operand .operand
  | operator (left : Expr) : Parallel (.operator left) (.operator left)
  | field {token token' : Token} (kind : Access) (base : Expr) :
      R token token' → Parallel (.field token kind base) (.field token' kind base)

/-- Both have read the same tree, or fail in the same way at corresponding tokens. Without a fault
they may also fail at the end of the streams. -/
inductive ReadsAlike : Except ReadError Expr → Except ReadError Expr → Prop
  | tree (e : Expr) : ReadsAlike (.ok e) (.ok e)
  | blamed {err : ParseError} {token token' : Token} :
      err.token? = some token → R token token' →
      ReadsAlike (.error (.parse err)) (.error (.parse (err.blaming token')))
  | ended (expected : Expected) :
      fault = none →
      ReadsAlike (.error (.parse (.unexpectedEnd expected)))
        (.error (.parse (.unexpectedEnd expected)))

namespace Machine

structure Config.Parallel (c c' : Config) : Prop where
  stack : List.Forall₂ (Frame.Parallel R) c.stack c'.stack
  phase : Phase.Parallel R c.phase c'.phase
  feed : Feed.Parallel R fault tail c.feed c'.feed

/-- The steps lead to states that are alike, or stop alike. If the first one comes to the fault, the
second one has `source` to read: one token more, and then `tail`. -/
inductive Step.Parallel (source : Feed) : Step → Step → Prop
  | next {c c' : Config} :
      Config.Parallel R fault tail c c' → Parallel source (.next c) (.next c')
  | halt {result result' : Except ReadError Expr} {feed feed' : Feed} :
      ReadsAlike R fault result result' → Feed.Parallel R fault tail feed feed' →
      Parallel source (.halt result feed) (.halt result' feed')
  | fault {e : ScanError} {token : Token} (feed : Feed) (other : Step) :
      fault = some e → source = ⟨some token, tail⟩ →
      Parallel source (.halt (.error (.scan e)) feed) other

end Machine

end

section

variable {R : Token → Token → Prop} {fault : Option ScanError} {tail : List ScanItem}
  {stack stack' : List Frame} {feed feed' : Feed} {token token' : Token} {limit : Nat}

theorem stackLevel_eq_of_parallel (h : List.Forall₂ (Frame.Parallel R) stack stack') :
    stackLevel stack' = stackLevel stack := by
  rcases h with _ | ⟨frame, -⟩
  · rfl
  · cases frame <;> rfl

namespace Machine

theorem parallel_take {next next' : Option Token → Feed → Step}
    (feeds : Feed.Parallel R fault tail feed feed')
    (onward : ∀ {rest rest' : Feed}, Feed.Parallel R fault tail rest rest' →
      Step.Parallel R fault tail feed' (next feed.lookahead rest) (next' feed'.lookahead rest')) :
    Step.Parallel R fault tail feed' (take feed next) (take feed' next') := by
  rcases feeds with none | ⟨first, items⟩
  · exact onward (.nil none)
  · rcases items with none | ⟨rest, found⟩ | ⟨second, items⟩
    · exact onward (.nil none)
    · exact .fault _ _ found rfl
    · exact onward (.cons second items)

theorem parallel_blamed {err : ParseError} {source : Feed} (blamed : err.token? = some token)
    (tokens : R token token') (feeds : Feed.Parallel R fault tail feed feed') :
    Step.Parallel R fault tail source (fail err feed) (fail (err.blaming token') feed') :=
  .halt (.blamed blamed tokens) feeds

theorem parallel_build {source : Feed} (e : Expr) (tokens : R token token')
    (frames : List.Forall₂ (Frame.Parallel R) stack stack')
    (feeds : Feed.Parallel R fault tail feed feed') :
    Step.Parallel R fault tail source (build limit token e stack feed)
      (build limit token' e stack' feed') := by
  unfold build
  split
  · exact parallel_blamed rfl tokens feeds
  · exact .next ⟨frames, .operator e, feeds⟩

variable (kinds : ∀ token token' : Token, R token token' → token'.kind = token.kind)

include kinds

theorem parallel_stepOperand (frames : List.Forall₂ (Frame.Parallel R) stack stack')
    (feeds : Feed.Parallel R fault tail feed feed') :
    Step.Parallel R fault tail feed' (stepOperand limit stack feed)
      (stepOperand limit stack' feed') := by
  refine parallel_take feeds fun rests => ?_
  rcases feeds with none | ⟨tokens, items⟩
  · exact .halt (.ended _ none) rests
  · dsimp only
    rw [frames.length_eq, kinds _ _ tokens]
    split
    · exact parallel_blamed rfl tokens rests
    · split
      · exact parallel_blamed rfl tokens rests
      · next opening _ =>
          cases opening with
          | leaf e => exact .next ⟨frames, .operator e, rests⟩
          | group => exact .next ⟨.cons (.group tokens) frames, .operand, rests⟩
          | not => exact .next ⟨.cons (.not tokens) frames, .operand, rests⟩

theorem parallel_stepClose (e : Expr) (frames : List.Forall₂ (Frame.Parallel R) stack stack')
    (feeds : Feed.Parallel R fault tail feed feed') :
    Step.Parallel R fault tail feed' (stepClose limit e feed stack)
      (stepClose limit e feed' stack') := by
  rcases frames with _ | ⟨frame, frames⟩
  · exact .halt (.tree e) feeds
  · cases frame with
    | not tokens => exact parallel_build _ tokens frames feeds
    | binary op left tokens => exact parallel_build _ tokens frames feeds
    | group openers =>
        rcases feeds with none | ⟨tokens, items⟩
        · exact .halt (.ended _ none) (.nil none)
        · have feeds := Feed.Parallel.cons tokens items
          simp only [stepClose, kinds _ _ tokens]
          split
          · exact parallel_take feeds (parallel_build _ openers frames)
          · exact parallel_blamed rfl tokens feeds

theorem parallel_stepOperator (left : Expr)
    (frames : List.Forall₂ (Frame.Parallel R) stack stack')
    (feeds : Feed.Parallel R fault tail feed feed') :
    Step.Parallel R fault tail feed' (stepOperator limit left stack feed)
      (stepOperator limit left stack' feed') := by
  have closing : Step.Parallel R fault tail feed' (stepClose limit left feed stack)
      (stepClose limit left feed' stack') := parallel_stepClose kinds left frames feeds
  unfold stepOperator
  rw [stackLevel_eq_of_parallel frames]
  rcases feeds with none | @⟨token, token', _, _, tokens, items⟩
  · exact closing
  · have feeds := Feed.Parallel.cons tokens items
    cases found : token.kind.continuation? with
    | none =>
        rw [Feed.continuation?_of_none rfl found,
          Feed.continuation?_of_none rfl (kinds _ _ tokens ▸ found)]
        exact closing
    | some continuation =>
        rw [Feed.continuation?_of_some rfl found,
          Feed.continuation?_of_some rfl (kinds _ _ tokens ▸ found)]
        by_cases loose : (stackLevel stack).rank ≤ continuation.level.rank
        · rw [if_pos loose, if_pos loose]
          refine parallel_take feeds fun rests => .next ?_
          cases continuation with
          | binary op => exact ⟨.cons (.binary op left tokens) frames, .operand, rests⟩
          | access kind => exact ⟨frames, .field kind left tokens, rests⟩
        · rw [if_neg loose, if_neg loose]
          exact closing

theorem parallel_stepField {operator operator' : Token} (operators : R operator operator')
    (kind : Access) (base : Expr) (frames : List.Forall₂ (Frame.Parallel R) stack stack')
    (feeds : Feed.Parallel R fault tail feed feed') :
    Step.Parallel R fault tail feed' (stepField limit operator kind base stack feed)
      (stepField limit operator' kind base stack' feed') := by
  rcases feeds with none | ⟨tokens, items⟩
  · exact .halt (.ended _ none) (.nil none)
  · have feeds := Feed.Parallel.cons tokens items
    simp only [stepField, kinds _ _ tokens]
    split
    · exact parallel_blamed rfl tokens feeds
    · exact parallel_take feeds (parallel_build _ operators frames)

variable (limit) in
theorem parallel_step {c c' : Config} (h : Config.Parallel R fault tail c c') :
    Step.Parallel R fault tail c'.feed (step limit c) (step limit c') := by
  obtain ⟨stack, phase, feed⟩ := c
  obtain ⟨stack', phase', feed'⟩ := c'
  obtain ⟨frames, phases, feeds⟩ := h
  cases phases with
  | operand => exact parallel_stepOperand kinds frames feeds
  | operator left => exact parallel_stepOperator kinds left frames feeds
  | field kind base operators => exact parallel_stepField kinds operators kind base frames feeds

/-- A run is followed by a run on the other side. -/
theorem Reaches.parallel {c c' d : Config} (steps : Reaches limit c d)
    (h : Config.Parallel R fault tail c c') :
    ∃ d' : Config, Reaches limit c' d' ∧ Config.Parallel R fault tail d d' := by
  induction steps with
  | refl => exact ⟨c', .refl, h⟩
  | @tail d next _ one ih =>
      obtain ⟨d', steps, alike⟩ := ih
      have stepped := parallel_step limit kinds alike
      rw [one] at stepped
      generalize after : step limit d' = result at stepped
      cases stepped with
      | next alike => exact ⟨_, steps.tail after, alike⟩

end Machine

open Machine

variable {result result' : Except ReadError Expr}

def ComesTo (tail : List ScanItem) (feed : Feed) : Prop :=
  ∃ (d : Config) (token : Token), Reaches maxHeight (start feed) d ∧ d.feed = ⟨some token, tail⟩

/-- Reading ends alike on parallel streams, unless it comes to the fault in the first. -/
theorem Concludes.parallel
    (kinds : ∀ token token' : Token, R token token' → token'.kind = token.kind)
    (h : Concludes feed result) (h' : Concludes feed' result')
    (feeds : Feed.Parallel R fault tail feed feed') :
    ReadsAlike R fault result result' ∨
      ∃ e : ScanError, fault = some e ∧ result = .error (.scan e) ∧ ComesTo tail feed' := by
  have starts : Config.Parallel R fault tail (start feed) (start feed') :=
    ⟨.nil, .operand, feeds⟩
  cases h with
  | @complete e rest steps ended =>
      obtain ⟨⟨_, _, rest'⟩, steps', ⟨_⟩, ⟨_⟩, rests⟩ := steps.parallel kinds starts
      rcases rests with none | _
      · rw [h'.eq_of_halts_ok (Reaches.halts_of_none steps' rfl) rfl]
        exact .inl (.tree e)
      · contradiction
  | @trailing e rest token steps found stops =>
      obtain ⟨⟨_, _, rest'⟩, steps', ⟨_⟩, ⟨_⟩, rests⟩ := steps.parallel kinds starts
      rcases rests with none | @⟨_, token', _, _, tokens, items⟩
      · contradiction
      · cases found
        have stops' := stops
        rw [Feed.continuation?_eq_none_iff] at stops'
        have halts' := Reaches.halts_of_trailing steps'
          (Feed.continuation?_eq_none_iff.2 (stops'.of_kind (kinds _ _ tokens)))
        rw [h'.eq_of_halts_trailing halts' rfl]
        exact .inl (.blamed rfl tokens)
  | @failed err rest halts =>
      obtain ⟨d, steps, stop⟩ := halts
      obtain ⟨d', steps', alike⟩ := steps.parallel kinds starts
      have stepped := parallel_step maxHeight kinds alike
      rw [stop] at stepped
      generalize after : step maxHeight d' = other at stepped
      cases stepped with
      | halt outcome _ =>
          refine .inl ?_
          cases outcome with
          | blamed blamed tokens =>
              rw [h'.eq_of_halts_error ⟨d', steps', after⟩]
              exact .blamed blamed tokens
          | ended expected none =>
              rw [h'.eq_of_halts_error ⟨d', steps', after⟩]
              exact .ended expected none
      | fault _ _ found source => exact .inr ⟨_, found, rfl, d', _, steps', source⟩

theorem Expr.parallel_ofItems
    (kinds : ∀ token token' : Token, R token token' → token'.kind = token.kind)
    {items items' : List ScanItem} (streams : Parallel R none tail items items') :
    ReadsAlike R none (ofItems items) (ofItems items') := by
  rcases streams with none | ⟨_, ⟨⟩⟩ | ⟨tokens, streams⟩
  · exact .ended .expression rfl
  · refine (Concludes.parallel kinds (concludes_ofItems_cons ..) (concludes_ofItems_cons ..)
      (.cons tokens streams)).resolve_right ?_
    rintro ⟨e, ⟨⟩, -⟩

end

end PredicateLang
