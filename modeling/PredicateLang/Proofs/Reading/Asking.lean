import PredicateLang.Proofs.Reading.Simulation

/-!
# Which calls a call asks for

How to read inside a call is a parameter of it, so a call asks for another one if its answer
depends on what that parameter is there (`Reader.Asks`). Nothing else decides the answer
(`Reader.nested_body_eq_of_asks`): no failure is caught, so a call that is made makes a difference
by failing, and the steps of which a call consists can be looked at one by one (`Determined.bind`).
-/

namespace PredicateLang

namespace Reader

section

variable {α β : Type}

/-- Two ways to read inside a call are the same but for one call. -/
def SameBut (sub sub' : Level → Read Expr) (min : Level) (inner : Reader) : Prop :=
  ∀ (l : Level) (s : Reader), ¬ (l = min ∧ s = inner) →
    EStateM.run (sub l) s = EStateM.run (sub' l) s

/-- A step of reading asks for a call at a level with a reader: its answer would be another with
another answer to that call and to no other. -/
def Asks (step : (Level → Read Expr) → Read α) (sub : Level → Read Expr) (r : Reader)
    (min : Level) (inner : Reader) : Prop :=
  ∃ sub' : Level → Read Expr, SameBut sub sub' min inner ∧
    EStateM.run (step sub) r ≠ EStateM.run (step sub') r

def PassesOn (step : (Level → Read Expr) → Read α) (sub : Level → Read Expr) (r : Reader)
    (min : Level) (inner : Reader) : Prop :=
  ∀ (sub' : Level → Read Expr) (err : ReadError) (left : Reader), SameBut sub sub' min inner →
    EStateM.run (sub' min) inner = .error err left →
      ∃ left' : Reader, EStateM.run (step sub') r = .error err left'

/-- The calls whose failures a step would pass on decide its answer. -/
def Determined (step : (Level → Read Expr) → Read α) : Prop :=
  ∀ (sub sub' : Level → Read Expr) (r : Reader),
    (∀ (l : Level) (s : Reader), PassesOn step sub r l s →
      EStateM.run (sub l) s = EStateM.run (sub' l) s) →
    EStateM.run (step sub) r = EStateM.run (step sub') r

/-- A call whose failures are passed on is asked for: there are failures enough to make a
difference. -/
theorem PassesOn.asks {step : (Level → Read Expr) → Read α} {sub : Level → Read Expr}
    {r inner : Reader} {min : Level} (h : PassesOn step sub r min inner) :
    Asks step sub r min inner := by
  classical
  let failing (err : ReadError) (l : Level) : Read Expr := fun s =>
    if l = min ∧ s = inner then .error err s else EStateM.run (sub l) s
  have same (err : ReadError) : SameBut sub (failing err) min inner :=
    fun l s other => (if_neg other).symm
  have fails (err : ReadError) :
      ∃ left : Reader, EStateM.run (step (failing err)) r = .error err left :=
    h (failing err) err inner (same err) (if_pos ⟨rfl, rfl⟩)
  obtain ⟨left, fails₁⟩ := fails (.parse (.unexpectedEnd .name))
  obtain ⟨left', fails₂⟩ := fails (.parse (.unexpectedEnd .closeParen))
  by_cases one : EStateM.run (step sub) r =
      EStateM.run (step (failing (.parse (.unexpectedEnd .name)))) r
  · refine ⟨failing (.parse (.unexpectedEnd .closeParen)), same _, ?_⟩
    rw [one, fails₁, fails₂]
    rintro ⟨⟩
  · exact ⟨_, same _, one⟩

theorem PassesOn.nested {step : (Level → Read Expr) → Read α} {sub : Level → Read Expr}
    {r inner : Reader} {min : Level}
    (h : PassesOn step sub { r with depth := r.depth + 1 } min inner) :
    PassesOn (fun sub => nested (step sub)) sub r min inner := by
  intro sub' err left but failed
  obtain ⟨left', fails⟩ := h sub' err left but failed
  rw [run_nested, fails]
  exact ⟨_, rfl⟩

theorem Determined.of_const (x : Read α) : Determined fun _ => x :=
  fun _ _ _ _ => rfl

theorem Determined.of_call (min : Level) : Determined fun sub => sub min :=
  fun _ _ r same => same min r fun _ _ left _ failed => ⟨left, failed⟩

/-- A failure of the first step is one of the whole, and where the first step does not fail, so is
one of the second. -/
theorem Determined.bind {first : (Level → Read Expr) → Read α}
    {second : (Level → Read Expr) → α → Read β} (h : Determined first)
    (h' : ∀ a : α, Determined (second · a)) : Determined fun sub => first sub >>= second sub := by
  intro sub sub' r same
  have passes {l : Level} {s : Reader} (asked : PassesOn first sub r l s) :
      PassesOn (fun sub => first sub >>= second sub) sub r l s := by
    intro other err left but failed
    obtain ⟨left', fails⟩ := asked other err left but failed
    rw [EStateM.run_bind, fails]
    exact ⟨left', rfl⟩
  have begins := h sub sub' r fun l s asked => same l s (passes asked)
  rw [EStateM.run_bind, EStateM.run_bind, ← begins]
  cases ends : EStateM.run (first sub) r with
  | error err left => rfl
  | ok a r' =>
      refine h' a sub sub' r' fun l s asked => ?_
      by_cases before : PassesOn first sub r l s
      · exact same l s (passes before)
      · refine same l s fun other err left but failed => ?_
        -- A call that the first step does not ask for leaves it as it is.
        have begins' := h sub other r fun l' s' asked' => but l' s' (by
          rintro ⟨rfl, rfl⟩
          exact before asked')
        rw [EStateM.run_bind, ← begins', ends]
        exact asked other err left but failed

theorem Determined.nested {step : (Level → Read Expr) → Read α} (h : Determined step) :
    Determined fun sub => nested (step sub) := by
  intro sub sub' r same
  rw [run_nested, run_nested, h sub sub' _ fun l s asked => same l s asked.nested]

end

theorem determined_operand (opening : Opening) : Determined (operand · opening) := by
  cases opening with
  | leaf e => exact .of_const _
  | group => exact (Determined.of_call .or).bind fun inner => .of_const _
  | not => exact (Determined.of_call .not).bind fun operand => .of_const _

theorem determined_extend (left : Expr) (continuation : Continuation) :
    Determined (extend · left continuation) := by
  cases continuation with
  | binary op => exact (Determined.of_call op.level.next).bind fun right => .of_const _
  | access kind => exact .of_const _

theorem determined_chain (min : Level) (links : Nat) (left : Expr) (height : Nat) :
    Determined (chain · min links left height) := by
  induction links generalizing left height with
  | zero => exact .of_const _
  | succ links ih =>
      refine (Determined.of_const get).bind fun r => ?_
      cases r.continuation? min with
      | none => exact .of_const _
      | some link =>
          refine (Determined.of_const shift).bind fun _ => (Determined.of_const _).bind fun _ => ?_
          refine (determined_extend left link.2).bind fun e => (Determined.of_const get).bind ?_
          exact fun r => (Determined.of_const _).bind fun height => ih e height

theorem determined_body (min : Level) : Determined (body · min) := by
  refine (Determined.of_const shift).bind fun taken => ?_
  cases taken with
  | none => exact .of_const _
  | some token =>
      refine (Determined.of_const get).bind fun r => ?_
      split
      · exact .of_const _
      · split
        · exact .of_const _
        · next opening _ =>
            refine (Determined.of_const _).bind fun _ => (determined_operand opening).bind ?_
            refine fun first => (Determined.of_const get).bind fun r => ?_
            exact (Determined.of_const _).bind fun height => determined_chain min maxHeight first _

/-- The answer of a call is decided by the answers to the calls that it asks for. -/
theorem nested_body_eq_of_asks {sub sub' : Level → Read Expr} {min : Level} {r : Reader}
    (same : ∀ (l : Level) (s : Reader), Asks (fun sub => nested (body sub min)) sub r l s →
      EStateM.run (sub l) s = EStateM.run (sub' l) s) :
    EStateM.run (nested (body sub min)) r = EStateM.run (nested (body sub' min)) r :=
  (determined_body min).nested sub sub' r fun l s passes => same l s passes.asks

end Reader

end PredicateLang
