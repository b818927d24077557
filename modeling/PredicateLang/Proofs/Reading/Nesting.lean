import PredicateLang.Proofs.Reading.Completeness

/-!
# What is open makes the tree high

Every frame that is open becomes a node above what is read inside it, and the left operand of a
frame stays below that node. So a run that is to give a tree knows from its stack how high the tree
is at least, and this bound never falls (`Reaches.least_le`).

The bound does not depend on the limit, nor does it depend on what follows the next token
(`Reaches.replay`). So where too many frames are open, the tokens taken so far begin no expression
whose tree is low enough (`Reaches.lt_height`).
-/

namespace PredicateLang

/-- The least height of the node that a frame becomes around a tree that is at least so high. -/
def Frame.least (h : Nat) : Frame → Nat
  | group _ | not _ => h + 1
  | binary _ _ left => max left.height h + 1

/-- The least height of the tree that a stack becomes around one that is at least so high. -/
def stackLeast (h : Nat) (stack : List Frame) : Nat :=
  stack.foldl Frame.least h

@[simp] theorem stackLeast_nil (h : Nat) : stackLeast h [] = h := rfl

@[simp] theorem stackLeast_cons (h : Nat) (frame : Frame) (stack : List Frame) :
    stackLeast h (frame :: stack) = stackLeast (frame.least h) stack := rfl

theorem Frame.least_mono (frame : Frame) {h h' : Nat} (le : h ≤ h') :
    frame.least h ≤ frame.least h' := by
  cases frame with
  | group | not => exact Nat.succ_le_succ le
  | binary _ _ left =>
      have le' : max left.height h ≤ max left.height h' := by omega
      exact Nat.succ_le_succ le'

theorem Frame.lt_least (frame : Frame) (h : Nat) : h < frame.least h := by
  cases frame with
  | group | not => exact Nat.lt_succ_self h
  | binary _ _ left => exact Nat.lt_succ_of_le (Nat.le_max_right left.height h)

theorem stackLeast_mono (stack : List Frame) {h h' : Nat} (le : h ≤ h') :
    stackLeast h stack ≤ stackLeast h' stack := by
  induction stack generalizing h h' with
  | nil => exact le
  | cons frame stack ih => exact ih (frame.least_mono le)

theorem add_length_le_stackLeast (stack : List Frame) (h : Nat) :
    h + stack.length ≤ stackLeast h stack := by
  induction stack generalizing h with
  | nil => exact Nat.le_refl h
  | cons frame stack ih =>
      have higher := frame.lt_least h
      have rest := ih (frame.least h)
      rw [List.length_cons, stackLeast_cons]
      omega

def Phase.least : Phase → Nat
  | operand => 1
  | operator e => e.height
  | field _ _ base => base.height

namespace Feed

variable {feed feed' : Feed} {token : Token} {tokens : List Token} {items : List ScanItem}

def stream (feed : Feed) : List ScanItem :=
  feed.lookahead.toList.map .ok ++ feed.items

def startingWith (tokens : List Token) (items : List ScanItem) : Feed :=
  ⟨tokens.head?, tokens.tail.map .ok ++ items⟩

theorem startingWith_append (tokens more : List Token) (items : List ScanItem)
    (some : tokens ≠ []) :
    startingWith (tokens ++ more) items = startingWith tokens (more.map .ok ++ items) := by
  obtain ⟨token, tokens, rfl⟩ := List.exists_cons_of_ne_nil some
  simp [startingWith]

theorem startingWith_map (tokens more : List Token) (some : tokens ≠ []) :
    startingWith tokens (more.map .ok) = ofTokens (tokens ++ more) := by
  obtain ⟨token, tokens, rfl⟩ := List.exists_cons_of_ne_nil some
  simp [startingWith, ofTokens]

theorem lookahead_of_shift {taken : Option Token} (h : feed.shift = (.ok taken, feed')) :
    feed.lookahead = taken := by
  obtain ⟨ahead, items⟩ := feed
  match items with
  | [] | .ok _ :: _ =>
      cases h
      rfl
  | .error _ :: _ => cases h

theorem stream_of_shift (h : feed.shift = (.ok (some token), feed')) :
    feed.stream = .ok token :: feed'.stream := by
  obtain ⟨ahead, items⟩ := feed
  match items with
  | [] | .ok _ :: _ =>
      cases h
      rfl
  | .error _ :: _ => cases h

end Feed

namespace Machine

def Config.least (c : Config) : Nat :=
  stackLeast c.phase.least c.stack

variable {limit limit' : Nat} {stack stack' : List Frame} {phase phase' : Phase}
  {ahead : Option Token} {taken : Bool} {feed feed' rest : Feed} {token : Token} {e : Expr}
  {c d : Config}

theorem Move.least_le (move : Move limit stack phase ahead taken stack' phase') :
    stackLeast phase.least stack ≤ stackLeast phase'.least stack' := by
  cases move with
  | leaf _ found => exact stackLeast_mono _ (Nat.le_of_eq (Token.Kind.height_of_leaf found).symm)
  | group | not => exact stackLeast_mono _ (Nat.le_succ 1)
  | binary => exact stackLeast_mono _ (Nat.le_succ_of_le (Nat.le_max_left ..))
  | access | closeNot | closeBinary | closeGroup => exact Nat.le_refl _
  | field => exact stackLeast_mono _ (Nat.le_succ_of_le (Nat.le_max_left ..))

theorem Reaches.least_le (steps : Reaches limit c d) : c.least ≤ d.least := by
  induction steps with
  | refl => exact Nat.le_refl _
  | tail _ one ih =>
      obtain ⟨taken, move, -⟩ := move_of_step one
      exact Nat.le_trans ih move.least_le

theorem Move.mono (move : Move limit stack phase ahead taken stack' phase')
    (le : limit ≤ limit') : Move limit' stack phase ahead taken stack' phase' := by
  cases move with
  | leaf shallow found => exact .leaf (Nat.le_trans shallow le) found
  | group shallow found => exact .group (Nat.le_trans shallow le) found
  | not shallow found => exact .not (Nat.le_trans shallow le) found
  | binary found loose => exact .binary found loose
  | access found loose => exact .access found loose
  | closeNot ends low => exact .closeNot ends (Nat.le_trans low le)
  | closeBinary ends low => exact .closeBinary ends (Nat.le_trans low le)
  | closeGroup isClose low => exact .closeGroup isClose (Nat.le_trans low le)
  | field found low => exact .field found (Nat.le_trans low le)

theorem Reaches.mono (steps : Reaches limit c d) (le : limit ≤ limit') : Reaches limit' c d := by
  induction steps with
  | refl => exact .refl
  | tail _ one ih =>
      obtain ⟨taken, move, leaves⟩ := move_of_step one
      exact ih.tail ((move.mono le).step_eq leaves)

/-- A run that gives a tree gives none that is lower than what was open on the way requires. -/
theorem least_le_of_halts (steps : Reaches limit c d) (halts : Halts limit c (.ok e) rest) :
    d.least ≤ e.height := by
  obtain ⟨⟨stack, phase, feed⟩, steps', stop⟩ := halts
  rcases cases_of_halt stop with ⟨_, ⟨⟩, rfl, rfl⟩ | ⟨x, ⟨⟩, -⟩ | ⟨err, ⟨⟩⟩
  exact (steps'.of_halt steps stop).least_le

theorem Halts.mono_ok (halts : Halts limit c (.ok e) rest) (le : limit ≤ limit') :
    Halts limit' c (.ok e) rest := by
  obtain ⟨⟨stack, phase, feed⟩, steps, stop⟩ := halts
  refine ⟨_, steps.mono le, ?_⟩
  rcases cases_of_halt stop with ⟨_, ⟨⟩, rfl, rfl⟩ | ⟨x, ⟨⟩, -⟩ | ⟨err, ⟨⟩⟩
  exact stop

/-- Which tokens a run has taken. Whatever follows the next one has had no part in it, be it
tokens or faults. -/
theorem Reaches.replay (steps : Reaches limit c d) (ahead : d.feed.lookahead = some token) :
    ∃ read : List Token, c.feed.stream = read.map .ok ++ d.feed.stream ∧
      ∀ items : List ScanItem,
        Reaches limit ⟨c.stack, c.phase, .startingWith (read ++ [token]) items⟩
          ⟨d.stack, d.phase, ⟨some token, items⟩⟩ := by
  induction steps generalizing token with
  | refl => exact ⟨[], rfl, fun items => .refl⟩
  | @tail d d' _ one ih =>
      obtain ⟨taken, move, leaves⟩ := move_of_step one
      cases taken with
      | false =>
          have same : d'.feed = d.feed := leaves
          rw [same] at ahead
          rw [ahead] at move
          obtain ⟨read, stream, runs⟩ := ih ahead
          refine ⟨read, by rw [stream, same], fun items => (runs items).tail ?_⟩
          have ends : Leaves ⟨some token, items⟩ false ⟨some token, items⟩ := rfl
          exact Move.step_eq move ends
      | true =>
          obtain ⟨before, found⟩ := move.exists_token
          rw [found] at move
          have shifted : d.feed.shift = (.ok d.feed.lookahead, d'.feed) := leaves
          rw [found] at shifted
          obtain ⟨read, stream, runs⟩ := ih found
          refine ⟨read ++ [before], ?_, fun items => ?_⟩
          · rw [stream, Feed.stream_of_shift shifted]
            simp
          · have more := runs (.ok token :: items)
            rw [Feed.startingWith_append _ _ _ (by simp)]
            have ends : Leaves ⟨some before, .ok token :: items⟩ true ⟨some token, items⟩ := rfl
            exact more.tail (Move.step_eq move ends)

/-- Where as many frames are open as the limit allows, the tokens taken up to the next one begin no
expression with a tree within the limit, whatever follows them: neither is there one by the grammar,
nor does any machine stop with one. -/
theorem Reaches.lt_height (steps : Reaches limit (start feed) ⟨stack, .operand, feed'⟩)
    (shifted : feed'.shift = (.ok (some token), rest)) (deep : limit ≤ stack.length) :
    ∃ read : List Token, feed.stream = (read ++ [token]).map .ok ++ rest.stream ∧
      (∀ (items : List ScanItem) (limit' : Nat) (e : Expr) (rest' : Feed),
        Halts limit' (start (.startingWith (read ++ [token]) items)) (.ok e) rest' →
          limit < e.height) ∧
      ∀ (more : List Token.Kind) (e : Expr),
        Phrase.expr.Derives ((read ++ [token]).map Token.kind ++ more) e → limit < e.height := by
  obtain ⟨read, stream, runs⟩ := steps.replay (Feed.lookahead_of_shift shifted)
  have halting (items : List ScanItem) (limit' : Nat) (e : Expr) (rest' : Feed)
      (halts : Halts limit' (start (.startingWith (read ++ [token]) items)) (.ok e) rest') :
      limit < e.height := by
    -- Both runs go through the same states within the larger limit.
    have run : Reaches (max limit limit') _ _ := Reaches.mono (runs items) (Nat.le_max_left ..)
    have least := least_le_of_halts run (halts.mono_ok (Nat.le_max_right ..))
    have nested := add_length_le_stackLeast stack 1
    exact Nat.lt_of_lt_of_le (by omega) (Nat.le_trans nested least)
  refine ⟨read, ?_, halting, fun more e derives => ?_⟩
  · rw [show feed.stream = _ from stream, Feed.stream_of_shift shifted]
    simp
  · -- No tree is too high for a limit of its own height.
    obtain ⟨behind, rfl⟩ := Token.exists_map_kind more
    rw [← List.map_append] at derives
    have run := (derives.arrives_start e.height).resolve_right fun high =>
      absurd high.1 (Nat.lt_irrefl _)
    rw [← Feed.startingWith_map _ _ (by simp)] at run
    exact halting _ _ e _ (.of_reaches run (.of_step (step_end _ e)))

end Machine

end PredicateLang
