import PredicateLang.Value.Document
import PredicateLang.Value.Equality

/-!
# Scopes

A `Scope` binds the variables that an expression may name. A name that is not bound has the
value `undefined`. The members of a JSON object make a scope.
-/

namespace PredicateLang

structure Scope where
  bindings : KeyMap Value

namespace Scope

def empty : Scope :=
  ⟨.empty⟩

instance : Inhabited Scope := ⟨empty⟩

def insert (scope : Scope) (name : String) (value : Value) : Scope :=
  ⟨scope.bindings.insert name value⟩

/-- The scope of a list of bindings, of which the last one for a name counts. -/
def ofList (bindings : List (String × Value)) : Scope :=
  ⟨.ofList bindings⟩

def find? (scope : Scope) (name : String) : Option Value :=
  scope.bindings.find? name

/-- The value of a variable, which is `undefined` if it is not bound. -/
def get (scope : Scope) (name : String) : Value :=
  (scope.find? name).getD .undefined

def contains (scope : Scope) (name : String) : Bool :=
  scope.bindings.contains name

def size (scope : Scope) : Nat :=
  scope.bindings.size

def isEmpty (scope : Scope) : Bool :=
  scope.bindings.isEmpty

def same (a b : Scope) : Bool :=
  Value.sameMembers a.bindings b.bindings

def ofDocument (d : Json.Document) : Except Value.Kind Scope :=
  match Value.ofDocument d with
  | .object members => .ok ⟨members⟩
  | v => .error v.kind

end Scope

end PredicateLang
