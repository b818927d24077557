import PredicateLang.Command.Wording
import PredicateLang.Expr.Meaning
import PredicateLang.Json.Reader

/-!
# Checking an expression

`Verdict.ofText` reads an expression, and unless only its form matters, evaluates it with the
members of a JSON object as variables. The first thing that goes wrong is the result: the
expression is read before the context, and the context before anything is evaluated.
-/

namespace PredicateLang

inductive SupplyError
  /-- The operating system refuses, with a number and a text of its own. -/
  | system (code : Nat) (text : String)
  | notUtf8
  deriving DecidableEq, Inhabited

def SupplyError.message : SupplyError → String
  | .system code text => text ++ " (os error " ++ natText code ++ ")"
  | .notUtf8 => "stream did not contain valid UTF-8"

inductive Failure
  | expression (e : Error)
  /-- The context is no JSON, for a reason in the words of the JSON reader. -/
  | invalidJson {reason : String}
  | notAnObject (got : Value.Kind)
  | unreadable (e : SupplyError)
  deriving DecidableEq, Inhabited

def notAnObjectMessage (got : Value.Kind) : String :=
  "Context must be a JSON object, got " ++ got.name

def Failure.message : Failure → String
  | .expression e => e.message
  | @invalidJson reason => "Invalid JSON: " ++ reason
  | .notAnObject got => "Invalid context: " ++ notAnObjectMessage got
  | .unreadable e => "IO error: " ++ e.message

inductive Verdict
  /-- The expression is well formed, and nothing else was asked. -/
  | wellFormed
  | result (d : Json.Document)

def Scope.ofText [Wording] (json : String) : Except Failure Scope :=
  match Json.Document.ofText? json with
  | none => .error (@Failure.invalidJson (Wording.refusal json))
  | some d => (Scope.ofDocument d).mapError .notAnObject

def Verdict.ofText [Wording] (source : String) (context : Option String) (formOnly : Bool) :
    Except Failure Verdict := do
  let e ← (Expr.ofText source).mapError fun e => .expression (.read e)
  if formOnly then pure .wellFormed
  else do
    let scope ← match context with
      | none => pure .empty
      | some json => Scope.ofText json
    let v ← (e.evaluate scope).mapError fun e => .expression (.eval e)
    pure (.result v.toDocument)

end PredicateLang
