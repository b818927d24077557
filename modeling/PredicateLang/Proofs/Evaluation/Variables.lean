import PredicateLang.KeyMap.Lemmas
import PredicateLang.Proofs.Evaluation.Failure

/-!
# What an expression sees of its scope

An expression has the same outcome in all scopes that give the same values to its variables
(`Expr.evaluate_agree`). The name of a field stands in the tree as a variable does, but is none, and
a variable of that name is not seen. Nor can it be seen whether a variable is bound: one that is not
has the same value as one that is bound to `undefined`.
-/

namespace PredicateLang

namespace Scope

def Agree (a b : Scope) (names : List String) : Prop :=
  ∀ s ∈ names, a.get s = b.get s

theorem get_insert (scope : Scope) (s other : String) (v : Value) :
    (scope.insert s v).get other = if other = s then v else scope.get other := by
  rw [get, find?, insert, KeyMap.find?_insert]
  split <;> rfl

variable {a b : Scope} {names names' : List String}

theorem Agree.mono (fewer : names ⊆ names') (h : a.Agree b names') : a.Agree b names :=
  fun s found => h s (fewer found)

/-- A binding is not seen by those who do not name it. -/
theorem agree_insert {s : String} (v : Value) (unnamed : s ∉ names) :
    (a.insert s v).Agree a names := by
  intro other found
  rw [get_insert, if_neg (ne_of_mem_of_not_mem found unnamed)]

/-- To bind a variable to `undefined` that is not bound changes nothing. -/
theorem agree_insert_undefined {s : String} (unbound : a.find? s = none) :
    (a.insert s .undefined).Agree a names := by
  intro other _
  rw [get_insert]
  split
  · next same => rw [same, get, unbound, Option.getD_none]
  · rfl

end Scope

namespace Expr

/-- The variables that an expression names. What stands in the place of a field is not among
them. -/
def variableNames : Expr → List String
  | name s => [s]
  | literal _ => []
  | not operand => operand.variableNames
  | binary _ left right => left.variableNames ++ right.variableNames
  | access _ base _ => base.variableNames
  | group inner => inner.variableNames

variable {a b : Scope} {e : Expr} {s : String}

theorem mem_variableNames_iff : s ∈ e.variableNames ↔ e.Visits (name s) := by
  rw [← mem_visited_iff]
  induction e with
  | name t => simp [variableNames, visited]
  | literal v => simp [variableNames, visited]
  | not e ih | access _ e _ ih _ | group e ih => simp [variableNames, visited, ih]
  | binary op e e' ih ih' => simp [variableNames, visited, ih, ih']

theorem evaluate_eq_of_agree (h : a.Agree b e.variableNames) : e.evaluate a = e.evaluate b := by
  induction e with
  | name s => exact congrArg Except.ok (h s (List.mem_singleton_self s))
  | literal v => rfl
  | not e ih => rw [evaluate, evaluate, ih h]
  | binary op e e' ih ih' =>
      rw [evaluate, evaluate, ih (h.mono (List.subset_append_left ..)),
        ih' (h.mono (List.subset_append_right ..))]
  | access kind e field ih _ => rw [evaluate, evaluate, ih h]
  | group e ih => exact ih h

/-- An expression sees no more of a scope than the values of the variables that it evaluates: where
another scope gives the same values to them, the outcome is the same, be it a value or an error. So
a variable that the expression does not name can be bound to anything, also one with the name of a
field, and one that is not bound can be bound to `undefined`. -/
theorem evaluate_agree (e : Expr) (a : Scope) :
    (∀ s : String, s ∈ e.variableNames ↔ e.Visits (name s)) ∧
    (∀ b : Scope, a.Agree b e.variableNames → e.evaluate a = e.evaluate b) ∧
    (∀ (s : String) (v : Value), s ∉ e.variableNames →
      e.evaluate (a.insert s v) = e.evaluate a) ∧
    ∀ s : String, a.find? s = none → e.evaluate (a.insert s .undefined) = e.evaluate a :=
  ⟨fun _ => mem_variableNames_iff, fun _ => evaluate_eq_of_agree,
    fun _ v unnamed => evaluate_eq_of_agree (Scope.agree_insert v unnamed),
    fun _ unbound => evaluate_eq_of_agree (Scope.agree_insert_undefined unbound)⟩

/-- The outcome of `c || a.b` is that of the field, with another variable `b` or without it, and
whether `c` is bound or not. -/
theorem evaluate_agree_field :
    (binary .or (name "c") (access .strict (name "a") (name "b"))).evaluate
        (.ofList [("a", .object (KeyMap.insert .empty "b" (.string "x")))]) = .ok (.string "x") ∧
      (binary .or (name "c") (access .strict (name "a") (name "b"))).evaluate
        (.ofList [("a", .object (KeyMap.insert .empty "b" (.string "x"))), ("b", .null),
          ("c", .undefined)]) = .ok (.string "x") := by
  have value : (binary .or (name "c") (access .strict (name "a") (name "b"))).evaluate
      (.ofList [("a", .object (KeyMap.insert .empty "b" (.string "x")))]) = .ok (.string "x") := rfl
  refine ⟨value, Eq.trans (Eq.symm ?_) value⟩
  refine (evaluate_agree _ _).2.1 _ fun s found => ?_
  simp only [variableNames, List.mem_append, List.mem_singleton] at found
  rcases found with rfl | rfl
  · rfl
  · rfl

end Expr

end PredicateLang
