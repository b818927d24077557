import Mathlib.Logic.Relation
import PredicateLang.Expr.Reader

/-!
# Reading with an explicit stack

`Machine.step limit` is one step of a machine that reads expressions. What a reader holds in its
nested calls the machine holds in a stack of frames: an open parenthesis, a negation whose
operand is being read, or a connective with its left operand. The phase says what has to come
next. Every step either takes one token or closes one frame, so a property of reading is an
invariant of `step`, and two runs are compared step by step.

The limit on the height of a tree is a parameter. The machine is deterministic, so a run has at
most one end (`Reaches.eq_of_halt`).
-/

namespace PredicateLang

theorem Expr.height_pos (e : Expr) : 0 < e.height := by
  cases e <;> simp [Expr.height]

theorem Token.Kind.height_of_leaf {k : Token.Kind} {e : Expr}
    (h : k.opening? = some (.leaf e)) : e.height = 1 := by
  unfold Token.Kind.opening? at h
  split at h <;> cases h <;> rfl

/-- What has not been read of a stream: the token taken in advance, and what follows it. -/
structure Feed where
  lookahead : Option Token
  items : List ScanItem

namespace Feed

def shift : Feed → Except ScanError (Option Token) × Feed
  | ⟨taken, []⟩ => (.ok taken, ⟨none, []⟩)
  | ⟨taken, .ok token :: items⟩ => (.ok taken, ⟨some token, items⟩)
  | ⟨taken, .error e :: items⟩ => (.error e, ⟨taken, items⟩)

def ofTokens (tokens : List Token) : Feed :=
  ⟨tokens.head?, tokens.tail.map .ok⟩

@[simp] theorem lookahead_ofTokens (tokens : List Token) :
    (ofTokens tokens).lookahead = tokens.head? := rfl

@[simp] theorem shift_ofTokens (tokens : List Token) :
    (ofTokens tokens).shift = (.ok tokens.head?, ofTokens tokens.tail) := by
  match tokens with
  | [] | [_] | _ :: _ :: _ => rfl

def continuation? (min : Level) (feed : Feed) : Option (Token × Continuation) := do
  let token ← feed.lookahead
  let continuation ← token.kind.continuation?
  guard (min.rank ≤ continuation.level.rank)
  pure (token, continuation)

end Feed

inductive Frame
  | group (opener : Token)
  | not (opener : Token)
  | binary (operator : Token) (op : Connective) (left : Expr)

def Frame.level : Frame → Level
  | group _ => .or
  | not _ => .not
  | binary _ op _ => op.level.next

def stackLevel : List Frame → Level
  | [] => .or
  | frame :: _ => frame.level

@[simp] theorem stackLevel_nil : stackLevel [] = .or := rfl

@[simp] theorem stackLevel_cons (frame : Frame) (stack : List Frame) :
    stackLevel (frame :: stack) = frame.level := rfl

inductive Phase
  /-- The start of an expression. -/
  | operand
  /-- What continues an expression, or closes the frame around it. -/
  | operator (left : Expr)
  /-- The name of a field. -/
  | field (operator : Token) (kind : Access) (base : Expr)

namespace Machine

structure Config where
  stack : List Frame
  phase : Phase
  feed : Feed

inductive Step
  | next (c : Config)
  | halt (result : Except ReadError Expr) (feed : Feed)

def fail (e : ParseError) (feed : Feed) : Step :=
  .halt (.error (.parse e)) feed

def take (feed : Feed) (next : Option Token → Feed → Step) : Step :=
  match feed.shift with
  | (.ok taken, feed) => next taken feed
  | (.error e, feed) => .halt (.error (.scan e)) feed

def build (limit : Nat) (token : Token) (e : Expr) (stack : List Frame) (feed : Feed) : Step :=
  if limit < e.height then fail (.tooDeep token) feed else .next ⟨stack, .operator e, feed⟩

def opened (token : Token) (stack : List Frame) (feed : Feed) : Opening → Config
  | .leaf e => ⟨stack, .operator e, feed⟩
  | .group => ⟨.group token :: stack, .operand, feed⟩
  | .not => ⟨.not token :: stack, .operand, feed⟩

def continued (token : Token) (left : Expr) (stack : List Frame) (feed : Feed) :
    Continuation → Config
  | .binary op => ⟨.binary token op left :: stack, .operand, feed⟩
  | .access kind => ⟨stack, .field token kind left, feed⟩

def stepOperand (limit : Nat) (stack : List Frame) (feed : Feed) : Step :=
  take feed fun taken feed =>
    match taken with
    | none => fail (.unexpectedEnd .expression) feed
    | some token =>
        if limit < stack.length + 1 then fail (.tooDeep token) feed
        else
          match token.kind.opening? with
          | none => fail (.expectedExpression token) feed
          | some opening => .next (opened token stack feed opening)

def stepClose (limit : Nat) (e : Expr) (feed : Feed) : List Frame → Step
  | [] => .halt (.ok e) feed
  | .not token :: stack => build limit token (.not e) stack feed
  | .binary token op left :: stack => build limit token (.binary op left e) stack feed
  | .group opener :: stack =>
      match feed.lookahead with
      | none => fail (.unexpectedEnd .closeParen) feed
      | some token =>
          if token.kind = .symbol .closeParen then
            take feed fun _ feed => build limit opener (.group e) stack feed
          else fail (.unexpectedToken .closeParen token) feed

def stepOperator (limit : Nat) (left : Expr) (stack : List Frame) (feed : Feed) : Step :=
  match feed.continuation? (stackLevel stack) with
  | none => stepClose limit left feed stack
  | some (token, continuation) =>
      take feed fun _ feed => .next (continued token left stack feed continuation)

def stepField (limit : Nat) (operator : Token) (kind : Access) (base : Expr)
    (stack : List Frame) (feed : Feed) : Step :=
  match feed.lookahead with
  | none => fail (.unexpectedEnd .name) feed
  | some token =>
      match token.kind.name? with
      | none => fail (.unexpectedToken .name token) feed
      | some s =>
          take feed fun _ feed => build limit operator (.access kind base (.name s)) stack feed

def step (limit : Nat) : Config → Step
  | ⟨stack, .operand, feed⟩ => stepOperand limit stack feed
  | ⟨stack, .operator left, feed⟩ => stepOperator limit left stack feed
  | ⟨stack, .field operator kind base, feed⟩ => stepField limit operator kind base stack feed

abbrev Reaches (limit : Nat) : Config → Config → Prop :=
  Relation.ReflTransGen fun c d => step limit c = .next d

def Halts (limit : Nat) (c : Config) (result : Except ReadError Expr) (feed : Feed) : Prop :=
  ∃ d : Config, Reaches limit c d ∧ step limit d = .halt result feed

def start (feed : Feed) : Config :=
  ⟨[], .operand, feed⟩

section

variable {limit : Nat} {c d d' : Config} {result result' : Except ReadError Expr}
  {feed feed' : Feed}

theorem Halts.of_step (h : step limit c = .halt result feed) : Halts limit c result feed :=
  ⟨c, .refl, h⟩

theorem Halts.of_reaches (steps : Reaches limit c d) (h : Halts limit d result feed) :
    Halts limit c result feed := by
  obtain ⟨last, more, stop⟩ := h
  exact ⟨last, steps.trans more, stop⟩

/-- Whatever is reached on the way to a halting state goes on to that state. -/
theorem Reaches.of_halt (steps : Reaches limit c d) (steps' : Reaches limit c d')
    (stop : step limit d = .halt result feed) : Reaches limit d' d := by
  induction steps' with
  | refl => exact steps
  | tail _ one ih =>
      rcases Relation.ReflTransGen.cases_head ih with same | ⟨other, one', rest⟩
      · subst same
        rw [one] at stop
        contradiction
      · rw [one] at one'
        cases one'
        exact rest

theorem Reaches.eq_of_halt (steps : Reaches limit c d) (steps' : Reaches limit c d')
    (stop : step limit d = .halt result feed) (stop' : step limit d' = .halt result' feed') :
    d = d' := by
  have onward := steps.of_halt steps' stop
  rcases Relation.ReflTransGen.cases_head onward with same | ⟨other, one, _⟩
  · exact same.symm
  · rw [stop'] at one
    contradiction

theorem Halts.unique (h : Halts limit c result feed) (h' : Halts limit c result' feed') :
    result = result' ∧ feed = feed' := by
  obtain ⟨d, steps, stop⟩ := h
  obtain ⟨d', steps', stop'⟩ := h'
  obtain rfl := steps.eq_of_halt steps' stop stop'
  rw [stop] at stop'
  cases stop'
  exact ⟨rfl, rfl⟩

end

end Machine

end PredicateLang
