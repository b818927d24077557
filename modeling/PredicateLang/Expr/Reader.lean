import PredicateLang.Expr.Level
import PredicateLang.Expr.ReadError

/-!
# Reading expressions

A `Reader` holds a stream of tokens, one of which it has taken in advance. `Reader.expression`
reads one expression off the stream, and `Reader.complete` one that the stream ends with. Both
leave a reader behind, also when they fail, so that reading can go on.

`atLevel room min` reads an expression whose operators bind at least as tightly as `min`: a
token that starts one, and then everything to its right that continues it. An operand to the
right of an operator is read one level tighter, so chains grow to the left.

A tree may be `maxHeight` high. The reader counts the calls of `atLevel` that are under way and
the height of what it builds, and gives up as soon as either is too large. So neither the
recursion nor a chain can be longer, which is what bounds both.
-/

namespace PredicateLang

def maxHeight : Nat := 256

structure Reader where
  /-- The token taken in advance, if there is one. -/
  lookahead : Option Token
  /-- What follows it. -/
  items : List ScanItem
  /-- How many calls of `atLevel` are under way. -/
  depth : Nat
  /-- The height of the tree that the latest call of `atLevel` has built. -/
  height : Nat

/-- A step of reading. It changes the reader whether it fails or not. -/
abbrev Read : Type → Type :=
  EStateM ReadError Reader

namespace Reader

def ofItems : List ScanItem → Except ReadError Reader
  | [] => .ok ⟨none, [], 0, 0⟩
  | .ok token :: items => .ok ⟨some token, items, 0, 0⟩
  | .error e :: _ => .error (.scan e)

def fail {α : Type} (e : ParseError) : Read α :=
  throw (.parse e)

/-- Takes the token in advance and lets the next one of the stream take its place. A fault in
the stream is passed, and leaves the token where it is. -/
def shift : Read (Option Token) := fun r =>
  match r.items with
  | [] => .ok r.lookahead { r with lookahead := none }
  | .ok token :: items => .ok r.lookahead { r with lookahead := some token, items := items }
  | .error e :: items => .error (.scan e) { r with items := items }

def expect {α : Type} (expected : Expected) (accept : Token.Kind → Option α) : Read α := do
  match (← get).lookahead with
  | none => fail (.unexpectedEnd expected)
  | some token =>
      match accept token.kind with
      | none => fail (.unexpectedToken expected token)
      | some a => do
          let _ ← shift
          pure a

def expectClose : Read Unit :=
  expect .closeParen fun kind => if kind = .symbol .closeParen then some () else none

def expectName : Read String :=
  expect .name Token.Kind.name?

/-- Counts a step as a call under way while it runs. -/
def nested {α : Type} (step : Read α) : Read α := fun r =>
  match step { r with depth := r.depth + 1 } with
  | .ok a r => .ok a { r with depth := r.depth - 1 }
  | .error e r => .error e { r with depth := r.depth - 1 }

def setHeight (height : Nat) : Read Unit :=
  modify fun r => { r with height := height }

def checkHeight (token : Token) (height : Nat) : Read Nat :=
  if maxHeight < height then fail (.tooDeep token) else pure height

def continuation? (min : Level) (r : Reader) : Option (Token × Continuation) := do
  let token ← r.lookahead
  let continuation ← token.kind.continuation?
  guard (min.rank ≤ continuation.level.rank)
  pure (token, continuation)

def operand (sub : Level → Read Expr) : Opening → Read Expr
  | .leaf e => pure e
  | .group => do
      let inner ← sub .or
      expectClose
      pure (.group inner)
  | .not => do
      let operand ← sub .not
      pure (.not operand)

def extend (sub : Level → Read Expr) (left : Expr) : Continuation → Read Expr
  | .binary op => do
      let right ← sub op.level.next
      pure (.binary op left right)
  | .access kind => do
      let field ← expectName
      pure (.access kind left (.name field))

/-- Reads everything that continues an expression of a given height at a level. Every link
makes the tree higher, so there is room for `maxHeight` of them and no more. -/
def chain (sub : Level → Read Expr) (min : Level) :
    (links : Nat) → (left : Expr) → (height : Nat) → Read Expr
  | 0, left, height => do
      setHeight height
      pure left
  | links + 1, left, height => do
      match (← get).continuation? min with
      | none => do
          setHeight height
          pure left
      | some (token, continuation) => do
          let _ ← shift
          setHeight 0
          let left ← extend sub left continuation
          let height ← checkHeight token (max height (← get).height + 1)
          chain sub min links left height

def body (sub : Level → Read Expr) (min : Level) : Read Expr := do
  match ← shift with
  | none => fail (.unexpectedEnd .expression)
  | some token =>
      if maxHeight < (← get).depth then fail (.tooDeep token)
      else
        match token.kind.opening? with
        | none => fail (.expectedExpression token)
        | some opening => do
            setHeight 0
            let first ← operand sub opening
            let height ← checkHeight token ((← get).height + 1)
            chain sub min maxHeight first height

/-- Reads an expression whose operators bind at least as tightly as `min`. The check on the
depth comes before `room` is used up, so the first case is not reached. -/
def atLevel : (room : Nat) → (min : Level) → Read Expr
  | 0, _ => fail (.unexpectedEnd .expression)
  | room + 1, min => nested (body (atLevel room) min)

def expression : Read Expr := do
  atLevel (maxHeight + 1 - (← get).depth) .or

/-- Reads one expression, which the stream has to end with. A token that follows is taken
away. -/
def complete : Read Expr := do
  let e ← expression
  match (← get).lookahead with
  | none => pure e
  | some token => do
      modify fun r => { r with lookahead := none }
      fail (.trailingInput token)

end Reader

def Read.run {α : Type} (step : Read α) (r : Reader) : Except ReadError α :=
  match EStateM.run step r with
  | .ok a _ => .ok a
  | .error e _ => .error e

def Expr.ofItems (items : List ScanItem) : Except ReadError Expr :=
  Reader.ofItems items >>= Reader.complete.run

def Expr.ofText (source : String) : Except ReadError Expr :=
  Expr.ofItems (scan source)

end PredicateLang
