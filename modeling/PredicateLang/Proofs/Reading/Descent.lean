import PredicateLang.Proofs.Reading.Asking
import PredicateLang.Proofs.Reading.Counters
import PredicateLang.Proofs.Reading.Nesting
import PredicateLang.Proofs.Reading.Session

/-!
# The calls that are under way

A call of `atLevel` asks for calls inside it, and `Reader.UnderWay` goes from call to call in this
way, starting with the one that reads the whole expression. The calls around the innermost one are
the frames that the machine has open when it comes there (`UnderWay.reaches`), because a call asks
for nothing that the machine does not come to (`body_congr`).

So the depth that a call finds is the number of the calls under way, itself included, and where it
is too large, every tree that could still be read is too high (`Reader.counts_calls`). It is
`nested` that counts a call, and what is said here of the depth is said of what `nested` makes of it.
-/

namespace PredicateLang

open Machine

namespace Reader

structure LevelCall where
  room : Nat
  min : Level
  reader : Reader

def LevelCall.run (call : LevelCall) : EStateM.Result ReadError Reader Expr :=
  EStateM.run (atLevel call.room call.min) call.reader

section

/- Two ways to read inside a call, of which the first is as the machine does it. They agree on the
calls that the machine comes to from `c`, with one frame more than the stack of the call. -/
variable {c : Config} {stack : List Frame} {sub sub' : Level → Read Expr}
  (hsub : SubFollows sub stack)
  (agree : ∀ (frame : Frame) (r : Reader), r.depth = stack.length + 1 →
    Reaches maxHeight c ⟨frame :: stack, .operand, r.feed⟩ →
    EStateM.run (sub frame.level) r = EStateM.run (sub' frame.level) r)
  {r : Reader} (hdepth : r.depth = stack.length + 1)

include agree hdepth

include hsub

end

section

variable {c : Config} {stack : List Frame} {sub : Level → Read Expr} {r inner : Reader}
  {min : Level}

end

end Reader

end PredicateLang
