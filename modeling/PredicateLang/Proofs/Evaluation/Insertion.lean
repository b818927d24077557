import PredicateLang.Expr.Meaning
import PredicateLang.Proofs.Value.Arrangement

/-!
# Scopes that are written in a different order

Variables are inserted one after the other, with values whose objects have been written member by
member. Only the last write of each name counts, among the variables as in the objects: with the
same last writes the scopes are the same (`Scope.insertAll_eq`).

The scope orders its names, but nothing hangs on that. `Expr.evaluateArranged` evaluates with values
that list their members in any order, as a hash table would. Its outcome arranges the value that
`Expr.evaluate` has (`Expr.arranges_evaluateArranged`), and arrangements of one value cannot be told
apart (`Arrangement.Arranges.looksLike`).
-/

namespace PredicateLang

inductive SameOutcome {ε α β : Type} (S : α → β → Prop) : Except ε α → Except ε β → Prop
  | ok {a : α} {b : β} : S a b → SameOutcome S (.ok a) (.ok b)
  | error (e : ε) : SameOutcome S (.error e) (.error e)

namespace SameOutcome

variable {ε δ α β γ α' β' : Type} {S : α → β → Prop} {T : α' → β' → Prop} {r : Except ε α}
  {r' : Except ε β}

theorem bind {next : α → Except ε α'} {next' : β → Except ε β'} (h : SameOutcome S r r')
    (onward : ∀ a b, S a b → SameOutcome T (next a) (next' b)) :
    SameOutcome T (r >>= next) (r' >>= next') := by
  cases h with
  | ok related => exact onward _ _ related
  | error e => exact .error e

theorem mapError (f : ε → δ) (h : SameOutcome S r r') :
    SameOutcome S (r.mapError f) (r'.mapError f) := by
  cases h with
  | ok related => exact .ok related
  | error e => exact .error (f e)

theorem join {R : α → γ → Prop} {S : β → γ → Prop} {T : α → β → Prop} {c : Except ε γ}
    (h : SameOutcome R r c) (h' : SameOutcome S r' c) (joined : ∀ a b c, R a c → S b c → T a b) :
    SameOutcome T r r' := by
  cases h with
  | ok related =>
      cases h' with
      | ok related' => exact .ok (joined _ _ _ related related')
  | error e =>
      cases h' with
      | error => exact .error e

end SameOutcome

/-! ### Evaluation with arranged values -/

/-- What a walk of the variables and literals finds: the members of each object in some order. -/
structure Scope.Walk (scope : Scope) where
  binding : String → Arrangement
  literal : Value → Arrangement
  arranges_binding : ∀ name : String, (binding name).Arranges (scope.get name)
  arranges_literal : ∀ v : Value, (literal v).Arranges v

instance (scope : Scope) : Inhabited scope.Walk where
  default :=
    { binding := fun name => .ofValue (scope.get name)
      literal := .ofValue
      arranges_binding := fun name => Arrangement.arranges_ofValue (scope.get name)
      arranges_literal := Arrangement.arranges_ofValue }

def Connective.applyArranged (op : Connective) (left right : Arrangement) : Arrangement :=
  match op with
  | .equals => .boolean (left.equals right)
  | .and => if left.value.isTruthy then right else left
  | .or => if left.value.isTruthy then left else right
  | .coalesce => if left.value.isNullish then right else left

def Access.applyArranged (kind : Access) (base : Arrangement) (field : String) :
    Except EvalError Arrangement :=
  if base.value.isNullish then
    match kind with
    | .strict => .error (.nullFieldAccess field base.value.kind)
    | .lenient => .ok .null
  else .ok (base.field field)

section

variable {scope : Scope}

def Expr.evaluateArranged (walk : scope.Walk) : Expr → Except EvalError Arrangement
  | name s => .ok (walk.binding s)
  | literal v => .ok (walk.literal v)
  | not operand => do
      let a ← operand.evaluateArranged walk
      pure (.boolean (!a.value.isTruthy))
  | binary op left right => do
      let l ← left.evaluateArranged walk
      let r ← right.evaluateArranged walk
      pure (op.applyArranged l r)
  | access kind base field => do
      let a ← base.evaluateArranged walk
      match field with
      | name s => kind.applyArranged a s
      | _ => pure .undefined
  | group inner => inner.evaluateArranged walk

def evaluateTextArranged (source : String) (walk : scope.Walk) : Except Error Arrangement := do
  let e ← (Expr.ofText source).mapError .read
  (e.evaluateArranged walk).mapError .eval

variable {a b : Arrangement} {v w : Value}

theorem Connective.arranges_applyArranged (op : Connective) (h : a.Arranges v)
    (h' : b.Arranges w) : (op.applyArranged a b).Arranges (op.apply v w) := by
  obtain ⟨distinct, rfl⟩ := h
  obtain ⟨distinct', rfl⟩ := h'
  cases op with
  | equals =>
      refine ⟨.boolean _, ?_⟩
      rw [applyArranged, apply, Arrangement.equals_eq distinct distinct']
      rfl
  | and | or | coalesce =>
      rw [applyArranged, apply]
      split <;> constructor <;> trivial

theorem Access.arranges_applyArranged (kind : Access) (h : a.Arranges v) (name : String) :
    SameOutcome Arrangement.Arranges (kind.applyArranged a name) (kind.apply v name) := by
  obtain ⟨distinct, rfl⟩ := h
  unfold applyArranged apply
  split
  · cases kind with
    | strict => exact .error _
    | lenient => exact .ok ⟨.null, rfl⟩
  · exact .ok ⟨distinct.field name, Arrangement.value_field distinct name⟩

/-- The outcome of an evaluation does not depend on the order in which members are walked. -/
theorem Expr.arranges_evaluateArranged (walk : scope.Walk) (e : Expr) :
    SameOutcome Arrangement.Arranges (e.evaluateArranged walk) (e.evaluate scope) := by
  induction e with
  | name s => exact .ok (walk.arranges_binding s)
  | literal v => exact .ok (walk.arranges_literal v)
  | not e ih =>
      refine ih.bind fun a v arranges => ?_
      rw [arranges.value_eq]
      exact .ok ⟨.boolean _, rfl⟩
  | binary op left right ihLeft ihRight =>
      refine ihLeft.bind fun a v arranges => ihRight.bind fun b w arranges' => ?_
      exact .ok (op.arranges_applyArranged arranges arranges')
  | access kind base field ih _ =>
      refine ih.bind fun a v arranges => ?_
      cases field with
      | name s => exact kind.arranges_applyArranged arranges s
      | _ => exact .ok ⟨.undefined, rfl⟩
  | group e ih => exact ih

theorem arranges_evaluateTextArranged (source : String) (walk : scope.Walk) :
    SameOutcome Arrangement.Arranges (evaluateTextArranged source walk)
      (evaluateText source scope) := by
  have read : SameOutcome Eq ((Expr.ofText source).mapError Error.read)
      ((Expr.ofText source).mapError .read) := by
    cases (Expr.ofText source).mapError Error.read with
    | ok e => exact .ok rfl
    | error e => exact .error e
  refine read.bind fun e e' same => ?_
  subst same
  exact (e.arranges_evaluateArranged walk).mapError Error.eval

/-- The arrangements cannot be told apart: as conditions, in comparisons with any other value, as
text and as JSON. -/
structure Arrangement.LooksLike (a b : Arrangement) : Prop where
  isTruthy_eq : a.value.isTruthy = b.value.isTruthy
  equals_left : ∀ c : Arrangement, c.Distinct → a.equals c = b.equals c
  equals_right : ∀ c : Arrangement, c.Distinct → c.equals a = c.equals b
  text_eq : a.text = b.text
  compact_eq : a.toDocument.compact = b.toDocument.compact

theorem Arrangement.Arranges.looksLike (h : a.Arranges v) (h' : b.Arranges v) : a.LooksLike b := by
  obtain ⟨distinct, rfl⟩ := h
  obtain ⟨distinct', same⟩ := h'
  constructor
  · rw [same]
  · intro c other
    rw [equals_eq distinct other, equals_eq distinct' other, same]
  · intro c other
    rw [equals_eq other distinct, equals_eq other distinct', same]
  · rw [text_eq, text_eq, same]
  · rw [toDocument_eq, toDocument_eq, same]

end

/-! ### Insertions -/

namespace Scope

def insertAll (writes : List (String × Arrangement)) : Scope :=
  writes.foldl (fun scope write => scope.insert write.1 write.2.value) empty

theorem insertAll_eq_ofList (writes : List (String × Arrangement)) :
    insertAll writes = ofList (Arrangement.bindings writes) := by
  have step : ∀ (writes : List (String × Arrangement)) (scope : Scope),
      writes.foldl (fun scope write => scope.insert write.1 write.2.value) scope =
        ⟨(Arrangement.bindings writes).foldl (fun m binding => m.insert binding.1 binding.2)
          scope.bindings⟩ := by
    intro writes
    induction writes with
    | nil => intro scope; rfl
    | cons write writes ih => intro scope; exact ih _
  exact step writes empty

theorem insertAll_eq {writes writes' : List (String × Arrangement)}
    (same : (Arrangement.object writes).Same (.object writes')) :
    insertAll writes = insertAll writes' := by
  rw [insertAll_eq_ofList, insertAll_eq_ofList]
  exact congrArg Scope.mk (Value.object.inj same.value_eq)

/-- Only the last write of each name counts, among variables as among the members of their values,
and the order of the writes does not. Let two lists of insertions have the same last writes. They
make scopes, as the lists taken as a whole do, in which the same variables are found. The number of
variables is the number of names that were ever inserted.

A source text has the same outcome in both scopes. Moreover the members of objects may be walked in
any order, in each scope another one: a walk comes to the outcome that the text has, and two walks
to the same error, or to results that cannot be told apart. -/
theorem insertAll_lastWrites {writes writes' : List (String × Arrangement)}
    (same : (Arrangement.object writes).Same (.object writes')) :
    (ofList (Arrangement.bindings writes) = insertAll writes ∧
      ofList (Arrangement.bindings writes') = insertAll writes') ∧
    (∀ name : String, (insertAll writes).find? name = (insertAll writes').find? name ∧
      (insertAll writes).contains name = (insertAll writes').contains name) ∧
    (insertAll writes).size = (insertAll writes').size ∧
    (insertAll writes).isEmpty = (insertAll writes').isEmpty ∧
    (insertAll writes).size = (writes.map Prod.fst).toFinset.card ∧
    ∀ source : String,
      evaluateText source (insertAll writes) = evaluateText source (insertAll writes') ∧
      ∀ (walk : (insertAll writes).Walk) (walk' : (insertAll writes').Walk),
        SameOutcome Arrangement.Arranges (evaluateTextArranged source walk)
          (evaluateText source (insertAll writes)) ∧
        SameOutcome Arrangement.LooksLike (evaluateTextArranged source walk)
          (evaluateTextArranged source walk') := by
  have scopes := insertAll_eq same
  refine ⟨⟨(insertAll_eq_ofList writes).symm, (insertAll_eq_ofList writes').symm⟩,
    fun name => ⟨by rw [scopes], by rw [scopes]⟩, by rw [scopes], by rw [scopes], ?_,
    fun source => ⟨by rw [scopes], fun walk walk' => ?_⟩⟩
  · rw [insertAll_eq_ofList]
    change (KeyMap.ofList (Arrangement.bindings writes)).size = _
    rw [KeyMap.size_ofList, Arrangement.keys_bindings]
  · have outcome := arranges_evaluateTextArranged source walk
    have outcome' := arranges_evaluateTextArranged source walk'
    rw [← congrArg (evaluateText source) scopes] at outcome'
    exact ⟨outcome, outcome.join outcome' fun _ _ _ h h' => h.looksLike h'⟩

/-- A variable is written twice, and the members of its value in another order. -/
theorem insertAll_lastWrites_members :
    (Arrangement.object [("a", .null), ("b", .object [("x", .null), ("y", .boolean true)]),
      ("a", .boolean true)]).Same
        (.object [("b", .object [("y", .boolean true), ("x", .null)]), ("a", .boolean true)]) ∧
    (insertAll [("a", .null), ("b", .object [("x", .null), ("y", .boolean true)]),
      ("a", .boolean true)]).size = 2 ∧
    evaluateText "b = b && b.y = a" (insertAll [("a", .null),
      ("b", .object [("x", .null), ("y", .boolean true)]), ("a", .boolean true)]) =
    evaluateText "b = b && b.y = a" (insertAll [
      ("b", .object [("y", .boolean true), ("x", .null)]), ("a", .boolean true)]) := by
  have members : (Arrangement.object [("x", .null), ("y", .boolean true)]).Same
      (.object [("y", .boolean true), ("x", .null)]) := .of_perm (.swap ..) (by decide)
  generalize writes : [("a", Arrangement.null),
    ("b", .object [("x", .null), ("y", .boolean true)]), ("a", .boolean true)] = ws
  generalize writes' : [("b", Arrangement.object [("y", .boolean true), ("x", .null)]),
    ("a", .boolean true)] = ws'
  have lookups (name : String) :
      (ws.reverse.lookup name = some (.boolean true) ∧
        ws'.reverse.lookup name = some (.boolean true)) ∨
      (ws.reverse.lookup name = some (.object [("x", .null), ("y", .boolean true)]) ∧
        ws'.reverse.lookup name = some (.object [("y", .boolean true), ("x", .null)])) ∨
      (ws.reverse.lookup name = none ∧ ws'.reverse.lookup name = none) := by
    subst writes writes'
    by_cases first : name = "a"
    · subst first
      exact .inl ⟨rfl, rfl⟩
    · by_cases second : name = "b"
      · subst second
        exact .inr (.inl ⟨rfl, rfl⟩)
      · refine .inr (.inr ?_)
        simp [List.lookup_cons, beq_false_of_ne first, beq_false_of_ne second]
  have same : (Arrangement.object ws).Same (.object ws') := by
    refine .object (fun name => ?_) fun name a b found found' => ?_
    · rcases lookups name with ⟨h, h'⟩ | ⟨h, h'⟩ | ⟨h, h'⟩
      · rw [h, h']
      · exact (congrArg Option.isSome h).trans (congrArg Option.isSome h').symm
      · rw [h, h']
    · rcases lookups name with ⟨h, h'⟩ | ⟨h, h'⟩ | ⟨h, -⟩
      · rw [Option.some.inj (found.symm.trans h), Option.some.inj (found'.symm.trans h')]
        exact .boolean true
      · rw [Option.some.inj (found.symm.trans h), Option.some.inj (found'.symm.trans h')]
        exact members
      · cases found.symm.trans h
  obtain ⟨-, -, -, -, size, outcome⟩ := insertAll_lastWrites same
  refine ⟨same, size.trans ?_, (outcome _).1⟩
  subst writes
  decide

end Scope

end PredicateLang
