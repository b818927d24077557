import PredicateLang.Proofs.Reading.Machine

/-!
# A reader runs as the machine does

`Reader.follows_atLevel` says that a call of `atLevel` does what the machine does from a state
whose stack holds one frame for every call around it: where the call gives an expression, the
machine arrives at it with the same feed, and where the call fails, the machine halts with the
same error. `Reader.concludes_complete` draws the conclusion for a whole stream.

The counters of the reader are what makes it total, and are computed by the machine from its
stack and its trees: `depth` is the number of frames, and `height` the height of the tree that
has just been read. So neither of the two recursions ever comes to its end.
-/

namespace PredicateLang

open Machine

namespace Reader

def feed (r : Reader) : Feed :=
  ⟨r.lookahead, r.items⟩

def withFeed (r : Reader) (feed : Feed) : Reader :=
  { r with lookahead := feed.lookahead, items := feed.items }

@[simp] theorem feed_withFeed (r : Reader) (feed : Feed) : (r.withFeed feed).feed = feed := rfl

@[simp] theorem depth_withFeed (r : Reader) (feed : Feed) :
    (r.withFeed feed).depth = r.depth := rfl

@[simp] theorem height_withFeed (r : Reader) (feed : Feed) :
    (r.withFeed feed).height = r.height := rfl

@[simp] theorem lookahead_feed (r : Reader) : r.feed.lookahead = r.lookahead := rfl

theorem continuation?_eq (min : Level) (r : Reader) :
    r.continuation? min = r.feed.continuation? min := rfl

section

variable {α : Type} {r : Reader} {feed : Feed}

@[simp] theorem run_fail (e : ParseError) :
    EStateM.run (fail e : Read α) r = .error (.parse e) r := rfl

@[simp] theorem run_setHeight (height : Nat) :
    EStateM.run (setHeight height) r = .ok () { r with height := height } := rfl

theorem run_nested (step : Read α) :
    EStateM.run (nested step) r =
      match EStateM.run step { r with depth := r.depth + 1 } with
      | .ok a r' => .ok a { r' with depth := r'.depth - 1 }
      | .error err r' => .error err { r' with depth := r'.depth - 1 } := rfl

theorem run_shift_of_ok {taken : Option Token} (h : r.feed.shift = (.ok taken, feed)) :
    EStateM.run shift r = .ok taken (r.withFeed feed) := by
  obtain ⟨lookahead, items, depth, height⟩ := r
  match items with
  | [] | .ok _ :: _ => cases h; rfl
  | .error _ :: _ => cases h

theorem run_shift_of_error {fault : ScanError} (h : r.feed.shift = (.error fault, feed)) :
    EStateM.run shift r = .error (.scan fault) (r.withFeed feed) := by
  obtain ⟨lookahead, items, depth, height⟩ := r
  match items with
  | [] | .ok _ :: _ => cases h
  | .error _ :: _ => cases h; rfl

end

/-- A call on top of a stack does what the machine does from `c`: it arrives at the same
expression, which nothing continues, or stops with the same error. -/
def Follows (c : Config) (stack : List Frame) (depth : Nat) :
    EStateM.Result ReadError Reader Expr → Prop
  | .ok e r =>
      Reaches maxHeight c ⟨stack, .operator e, r.feed⟩ ∧
        r.feed.continuation? (stackLevel stack) = none ∧
        r.height = e.height ∧ e.height ≤ maxHeight ∧ r.depth = depth
  | .error err r => Halts maxHeight c (.error err) r.feed ∧ r.depth = depth

/-- A step that makes a node at a token does what the machine does from `c` until the height of
the node is checked. The reader holds the height of what stands to the right of the token. -/
def Builds (c : Config) (token : Token) (stack : List Frame) (depth left : Nat) :
    EStateM.Result ReadError Reader Expr → Prop
  | .ok e r =>
      (∃ d : Config, Reaches maxHeight c d ∧
        step maxHeight d = build maxHeight token e stack r.feed) ∧
        max left r.height + 1 = e.height ∧ r.depth = depth
  | .error err r => Halts maxHeight c (.error err) r.feed ∧ r.depth = depth

section

variable {c c' : Config} {stack : List Frame} {depth left : Nat} {token : Token}
  {result : EStateM.Result ReadError Reader Expr}

theorem Follows.of_reaches (steps : Reaches maxHeight c c') (h : Follows c' stack depth result) :
    Follows c stack depth result := by
  cases result with
  | ok e r => exact ⟨steps.trans h.1, h.2⟩
  | error err r => exact ⟨h.1.of_reaches steps, h.2⟩

theorem Builds.of_reaches (steps : Reaches maxHeight c c')
    (h : Builds c' token stack depth left result) : Builds c token stack depth left result := by
  cases result with
  | ok e r =>
      obtain ⟨⟨d, more, last⟩, rest⟩ := h
      exact ⟨⟨d, steps.trans more, last⟩, rest⟩
  | error err r => exact ⟨h.1.of_reaches steps, h.2⟩

end

def SubFollows (sub : Level → Read Expr) (stack : List Frame) : Prop :=
  ∀ (frame : Frame) (r : Reader), r.depth = stack.length + 1 →
    Follows ⟨frame :: stack, .operand, r.feed⟩ (frame :: stack) (stack.length + 1)
      (EStateM.run (sub frame.level) r)

section

variable {sub : Level → Read Expr} {stack : List Frame} {r : Reader}

theorem builds_operand_not (hsub : SubFollows sub stack) (token : Token)
    (hdepth : r.depth = stack.length + 1) :
    Builds ⟨.not token :: stack, .operand, r.feed⟩ token stack (stack.length + 1) 0
      (EStateM.run (operand sub .not) r) := by
  have call : Follows _ _ _ (EStateM.run (sub .not) r) := hsub (.not token) r hdepth
  simp only [operand, EStateM.run_bind]
  cases h : EStateM.run (sub .not) r with
  | error err r' =>
      rw [h] at call
      exact call
  | ok e r' =>
      rw [h] at call
      obtain ⟨steps, stop, height, -, depth⟩ := call
      refine ⟨⟨_, steps, ?_⟩, by simp [height, Expr.height], depth⟩
      simp only [step, stepOperator, stop, stepClose]

theorem builds_operand_group (hsub : SubFollows sub stack) (token : Token)
    (hdepth : r.depth = stack.length + 1) :
    Builds ⟨.group token :: stack, .operand, r.feed⟩ token stack (stack.length + 1) 0
      (EStateM.run (operand sub .group) r) := by
  have call : Follows _ _ _ (EStateM.run (sub .or) r) := hsub (.group token) r hdepth
  simp only [operand, EStateM.run_bind]
  cases h : EStateM.run (sub .or) r with
  | error err r' =>
      rw [h] at call
      exact call
  | ok e r' =>
      rw [h] at call
      obtain ⟨steps, stop, height, -, depth⟩ := call
      have closing : step maxHeight ⟨.group token :: stack, .operator e, r'.feed⟩ =
          stepClose maxHeight e r'.feed (.group token :: stack) := by
        simp only [step, stepOperator, stop]
      simp only [expectClose, expect, EStateM.run_bind, EStateM.run_get]
      cases found : r'.lookahead with
      | none =>
          refine ⟨.of_reaches steps (.of_step ?_), depth⟩
          simp only [closing, stepClose, lookahead_feed, found]
          rfl
      | some t =>
          by_cases isClose : t.kind = .symbol .closeParen
          · simp only [isClose, if_true, EStateM.run_bind]
            rcases shifted : r'.feed.shift with ⟨fault | taken, feed⟩
            · rw [run_shift_of_error shifted]
              refine ⟨.of_reaches steps (.of_step ?_), depth⟩
              simp only [closing, stepClose, lookahead_feed, found, isClose, if_true, take,
                shifted, feed_withFeed]
            · rw [run_shift_of_ok shifted]
              refine ⟨⟨_, steps, ?_⟩, by simp [height, Expr.height], depth⟩
              simp only [closing, stepClose, lookahead_feed, found, isClose, if_true, take,
                shifted, feed_withFeed]
          · simp only [isClose, if_false, run_fail]
            refine ⟨.of_reaches steps (.of_step ?_), depth⟩
            simp only [closing, stepClose, lookahead_feed, found, isClose, if_false]
            rfl

theorem builds_extend_binary (hsub : SubFollows sub stack) (token : Token) (op : Connective)
    (left : Expr) (hdepth : r.depth = stack.length + 1) :
    Builds ⟨.binary token op left :: stack, .operand, r.feed⟩ token stack (stack.length + 1)
      left.height (EStateM.run (extend sub left (.binary op)) r) := by
  have call : Follows _ _ _ (EStateM.run (sub op.level.next) r) :=
    hsub (.binary token op left) r hdepth
  simp only [extend, EStateM.run_bind]
  cases h : EStateM.run (sub op.level.next) r with
  | error err r' =>
      rw [h] at call
      exact call
  | ok e r' =>
      rw [h] at call
      obtain ⟨steps, stop, height, -, depth⟩ := call
      refine ⟨⟨_, steps, ?_⟩, by simp [height, Expr.height], depth⟩
      simp only [step, stepOperator, stop, stepClose]

theorem builds_extend_access (token : Token) (kind : Access) (left : Expr)
    (hheight : r.height = 0) (hdepth : r.depth = stack.length + 1) :
    Builds ⟨stack, .field token kind left, r.feed⟩ token stack (stack.length + 1)
      left.height (EStateM.run (extend sub left (.access kind)) r) := by
  have pos := left.height_pos
  simp only [extend, expectName, expect, EStateM.run_bind, EStateM.run_get]
  cases found : r.lookahead with
  | none =>
      refine ⟨.of_step ?_, hdepth⟩
      simp only [step, stepField, lookahead_feed, found]
      rfl
  | some t =>
      cases name : t.kind.name? with
      | none =>
          simp only [name, run_fail]
          refine ⟨.of_step ?_, hdepth⟩
          simp only [step, stepField, lookahead_feed, found, name]
          rfl
      | some s =>
          simp only [name, EStateM.run_bind]
          rcases shifted : r.feed.shift with ⟨fault | taken, feed⟩
          · rw [run_shift_of_error shifted]
            refine ⟨.of_step ?_, hdepth⟩
            simp only [step, stepField, lookahead_feed, found, name, take, shifted,
              feed_withFeed]
          · rw [run_shift_of_ok shifted]
            refine ⟨⟨_, .refl, ?_⟩, ?_, hdepth⟩
            · simp only [step, stepField, lookahead_feed, found, name, take, shifted,
                feed_withFeed]
            · simp only [Expr.height, height_withFeed, hheight]
              omega

theorem builds_extend (hsub : SubFollows sub stack) (token : Token) (left : Expr)
    (continuation : Continuation) (hheight : r.height = 0) (hdepth : r.depth = stack.length + 1) :
    Builds (continued token left stack r.feed continuation) token stack (stack.length + 1)
      left.height (EStateM.run (extend sub left continuation) r) := by
  cases continuation with
  | binary op => exact builds_extend_binary hsub token op left hdepth
  | access kind => exact builds_extend_access token kind left hheight hdepth

/-- A node that a step makes is checked for its height, and then what continues it is read. -/
theorem follows_of_builds {c : Config} {token : Token} {depth left : Nat} {x : Read Expr}
    {next : Expr → Nat → Read Expr} {measure : Reader → Nat}
    (made : Builds c token stack depth left (EStateM.run x r))
    (hmeasure : ∀ r : Reader, measure r = max left r.height + 1)
    (rest : ∀ (e : Expr) (r : Reader), r.depth = depth → e.height ≤ maxHeight →
      left < e.height →
      Follows ⟨stack, .operator e, r.feed⟩ stack depth (EStateM.run (next e e.height) r)) :
    Follows c stack depth <| EStateM.run (do
      let e ← x
      let r ← get
      let height ← checkHeight token (measure r)
      next e height) r := by
  simp only [EStateM.run_bind]
  cases h : EStateM.run x r with
  | error err r' =>
      rw [h] at made
      exact made
  | ok e r' =>
      rw [h] at made
      obtain ⟨⟨d, steps, last⟩, height, depth⟩ := made
      simp only [EStateM.run_get, hmeasure, height, checkHeight]
      by_cases high : maxHeight < e.height
      · simp only [high, if_true, run_fail]
        refine ⟨.of_reaches steps (.of_step ?_), depth⟩
        simp only [last, build, high, if_true]
        rfl
      · simp only [high, if_false, EStateM.run_pure]
        refine (rest e r' depth (by omega) (by omega)).of_reaches (steps.tail ?_)
        simp only [last, build, high, if_false]

/-- The links of a chain are the steps of the machine at one stack. Every link makes the tree
higher, so the links do not run out. -/
theorem follows_chain (hsub : SubFollows sub stack) (links : Nat) (left : Expr)
    (hleft : left.height ≤ maxHeight) (room : maxHeight < links + left.height)
    (r : Reader) (hdepth : r.depth = stack.length + 1) :
    Follows ⟨stack, .operator left, r.feed⟩ stack (stack.length + 1)
      (EStateM.run (chain sub (stackLevel stack) links left left.height) r) := by
  induction links generalizing left r with
  | zero => omega
  | succ links ih =>
      simp only [chain, EStateM.run_bind, EStateM.run_get, continuation?_eq]
      cases found : r.feed.continuation? (stackLevel stack) with
      | none => exact ⟨.refl, found, rfl, hleft, hdepth⟩
      | some link =>
          obtain ⟨token, continuation⟩ := link
          rw [EStateM.run_bind]
          rcases shifted : r.feed.shift with ⟨fault | taken, feed⟩
          · rw [run_shift_of_error shifted]
            refine ⟨.of_step ?_, hdepth⟩
            simp only [step, stepOperator, found, take, shifted, feed_withFeed]
          · rw [run_shift_of_ok shifted]
            let r' : Reader := { r.withFeed feed with height := 0 }
            have made := builds_extend (r := r') hsub token left continuation rfl hdepth
            have onward := follows_of_builds made (fun _ => rfl) fun e r depth low grown =>
              ih e low (by omega) r depth
            refine onward.of_reaches (.single ?_)
            simp only [step, stepOperator, found, take, shifted]
            rfl

theorem follows_body (hsub : stack.length + 1 ≤ maxHeight → SubFollows sub stack) (r : Reader)
    (hdepth : r.depth = stack.length + 1) :
    Follows ⟨stack, .operand, r.feed⟩ stack (stack.length + 1)
      (EStateM.run (body sub (stackLevel stack)) r) := by
  simp only [body, EStateM.run_bind]
  rcases shifted : r.feed.shift with ⟨fault | taken, feed⟩
  · rw [run_shift_of_error shifted]
    refine ⟨.of_step ?_, hdepth⟩
    simp only [step, stepOperand, take, shifted, feed_withFeed]
  · rw [run_shift_of_ok shifted]
    cases taken with
    | none =>
        refine ⟨.of_step ?_, hdepth⟩
        simp only [step, stepOperand, take, shifted]
        rfl
    | some token =>
        simp only [EStateM.run_bind, EStateM.run_get, depth_withFeed, hdepth]
        by_cases deep : maxHeight < stack.length + 1
        · simp only [deep, if_true, run_fail]
          refine ⟨.of_step ?_, hdepth⟩
          simp only [step, stepOperand, take, shifted, deep, if_true]
          rfl
        · have hsub := hsub (by omega)
          simp only [deep, if_false]
          cases opening : token.kind.opening? with
          | none =>
              refine ⟨.of_step ?_, hdepth⟩
              simp only [step, stepOperand, take, shifted, deep, if_false, opening]
              rfl
          | some start =>
              have taken : step maxHeight ⟨stack, .operand, r.feed⟩ =
                  .next (opened token stack feed start) := by
                simp only [step, stepOperand, take, shifted, deep, if_false, opening]
              rw [EStateM.run_bind, run_setHeight]
              let r' : Reader := { r.withFeed feed with height := 0 }
              cases start with
              | leaf e =>
                  have leaf : e.height = 1 := Token.Kind.height_of_leaf opening
                  have low : e.height ≤ maxHeight := by omega
                  have onward := follows_chain hsub maxHeight e low (by omega) r' hdepth
                  rw [leaf] at onward low
                  simp only [operand, checkHeight, EStateM.run_bind, EStateM.run_pure,
                    EStateM.run_get, Nat.zero_add, Nat.not_lt.2 low, if_false]
                  exact onward.of_reaches (.single taken)
              | group =>
                  refine (follows_of_builds (r := r') (builds_operand_group hsub token hdepth)
                    (fun _ => by rw [Nat.zero_max]) fun e r depth low grown =>
                      follows_chain hsub maxHeight e low (by omega) r depth).of_reaches
                        (.single taken)
              | not =>
                  refine (follows_of_builds (r := r') (builds_operand_not hsub token hdepth)
                    (fun _ => by rw [Nat.zero_max]) fun e r depth low grown =>
                      follows_chain hsub maxHeight e low (by omega) r depth).of_reaches
                        (.single taken)

/-- A call of `atLevel` with room left does what the machine does. -/
theorem follows_atLevel (room : Nat) (stack : List Frame)
    (hroom : room + stack.length = maxHeight + 1) (hpos : 0 < room) (r : Reader)
    (hdepth : r.depth = stack.length) :
    Follows ⟨stack, .operand, r.feed⟩ stack stack.length
      (EStateM.run (atLevel room (stackLevel stack)) r) := by
  induction room generalizing stack r with
  | zero => omega
  | succ room ih =>
      have hsub : stack.length + 1 ≤ maxHeight → SubFollows (atLevel room) stack :=
        fun low frame r depth =>
          ih (frame :: stack) (by simp only [List.length_cons]; omega) (by omega) r depth
      have inner := follows_body hsub { r with depth := r.depth + 1 }
        (by simp only [hdepth])
      rw [atLevel, run_nested]
      -- What is left is to take back the depth, whether the call has failed or not.
      cases h : EStateM.run (body (atLevel room) (stackLevel stack))
          { r with depth := r.depth + 1 } with
      | ok e r' =>
          rw [h] at inner
          obtain ⟨steps, stop, height, low, depth⟩ := inner
          exact ⟨steps, stop, height, low, by simp only [depth, Nat.add_sub_cancel]⟩
      | error err r' =>
          rw [h] at inner
          obtain ⟨stop, depth⟩ := inner
          exact ⟨stop, by simp only [depth, Nat.add_sub_cancel]⟩

theorem follows_expression (r : Reader) (hdepth : r.depth = 0) :
    Follows (start r.feed) [] 0 (EStateM.run expression r) := by
  simp only [expression, EStateM.run_bind, EStateM.run_get, hdepth]
  exact follows_atLevel (maxHeight + 1) [] rfl (by decide) r hdepth

end

end Reader

inductive Concludes (feed : Feed) : Except ReadError Expr → Prop
  | complete {e : Expr} {rest : Feed} :
      Reaches maxHeight (start feed) ⟨[], .operator e, rest⟩ → rest.lookahead = none →
      Concludes feed (.ok e)
  | trailing {e : Expr} {rest : Feed} {token : Token} :
      Reaches maxHeight (start feed) ⟨[], .operator e, rest⟩ → rest.lookahead = some token →
      rest.continuation? .or = none → Concludes feed (.error (.parse (.trailingInput token)))
  | failed {e : ReadError} {rest : Feed} :
      Halts maxHeight (start feed) (.error e) rest → Concludes feed (.error e)

theorem Reader.concludes_complete (r : Reader) (hdepth : r.depth = 0) :
    Concludes r.feed (Read.run complete r) := by
  have call := follows_expression r hdepth
  simp only [Read.run, complete, EStateM.run_bind]
  cases h : EStateM.run expression r with
  | error err r' =>
      rw [h] at call
      exact .failed call.1
  | ok e r' =>
      rw [h] at call
      obtain ⟨steps, stop, -⟩ := call
      simp only [EStateM.run_get]
      cases found : r'.lookahead with
      | none => exact .complete steps found
      | some token => exact .trailing steps found stop

theorem Expr.concludes_ofItems_nil : Concludes ⟨none, []⟩ (Expr.ofItems []) :=
  Reader.concludes_complete ⟨none, [], 0, 0⟩ rfl

theorem Expr.concludes_ofItems_cons (token : Token) (items : List ScanItem) :
    Concludes ⟨some token, items⟩ (Expr.ofItems (.ok token :: items)) :=
  Reader.concludes_complete ⟨some token, items, 0, 0⟩ rfl

theorem Expr.concludes_ofItems (tokens : List Token) :
    Concludes (.ofTokens tokens) (Expr.ofItems (tokens.map .ok)) := by
  cases tokens with
  | nil => exact concludes_ofItems_nil
  | cons token tokens => exact concludes_ofItems_cons token (tokens.map .ok)

end PredicateLang
