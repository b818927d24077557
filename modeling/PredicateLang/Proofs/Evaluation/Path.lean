import PredicateLang.Expr.Meaning
import PredicateLang.Proofs.Reading.Path
import PredicateLang.Proofs.Value.Document

/-!
# What a path comes to in a document

In the scope of a JSON object a path is a walk through that object, one step for every field
(`Path.walk`). A walk speaks of documents only: it comes to a part of the object, to the length of a
part, or to nothing. What it comes to is the value of the text of the path
(`evaluateText_path`), because every step does the same as an access to the value.
-/

namespace PredicateLang

inductive Place
  /-- Nothing is there. -/
  | missing
  /-- A part of the document. -/
  | part (d : Json.Document)
  /-- The length of a part. -/
  | length (n : Nat)

namespace Place

def value : Place → Value
  | missing => .undefined
  | part d => .ofDocument d
  | length n => .ofLength n

def member (members : Entries Json.Document none) (name : String) : Place :=
  match members.find? name with
  | some d => part d
  | none => missing

def property (n : Nat) (name : String) : Place :=
  if name = "length" then length n else missing

def leap (kind : Access) (name : String) (base : Value.Kind) : Except EvalError Place :=
  match kind with
  | .strict => .error (.nullFieldAccess name base)
  | .lenient => .ok (part .null)

def step (kind : Access) (name : String) : Place → Except EvalError Place
  | missing => leap kind name .undefined
  | part .null => leap kind name .null
  | part (.object members) => .ok (member members name)
  | part (.array items) => .ok (property items.length name)
  | part (.string s) => .ok (property s.length name)
  | part (.boolean _) | part (.number _) | length _ => .ok missing

theorem value_member (members : Entries Json.Document none) (name : String) :
    (member members name).value = ((Value.ofMembers members).find? name).getD .undefined := by
  rw [Value.find?_ofMembers, member]
  cases members.find? name <;> rfl

theorem value_property (n : Nat) (name : String) :
    (property n name).value = if name = "length" then .ofLength n else .undefined := by
  unfold property
  split <;> rfl

theorem apply_value (kind : Access) (name : String) (place : Place) :
    kind.apply place.value name = (place.step kind name).map value := by
  cases place with
  | missing => cases kind <;> rfl
  | length n => rfl
  | part d =>
      cases d with
      | null => cases kind <;> rfl
      | boolean | number => rfl
      | string s => exact congrArg Except.ok (value_property s.length name).symm
      | array items =>
          have same : (part (.array items)).value.field name =
              (property items.length name).value := by
            rw [value_property, ← List.length_map Value.ofDocument, ← Value.ofItems_eq_map]
            rfl
          exact congrArg Except.ok same
      | object members => exact congrArg Except.ok (value_member members name).symm

end Place

namespace Path

variable (p : Path) (members : Entries Json.Document none)

def walk : Except EvalError Place :=
  p.steps.foldlM (fun (place : Place) step => place.step step.1 step.2)
    (Place.member members p.root)

theorem evaluate_tree (scope : Scope) :
    p.tree.evaluate scope =
      p.steps.foldlM (fun v step => step.1.apply v step.2.val) (scope.get p.root) := by
  obtain ⟨root, steps⟩ := p
  induction steps using List.reverseRecOn with
  | nil => rfl
  | append_singleton steps step ih =>
      rw [tree_concat, Expr.evaluate, ih, List.foldlM_append]
      refine bind_congr fun v => ?_
      rw [List.foldlM_cons]
      exact (bind_pure _).symm

theorem foldlM_value (steps : List (Access × Name)) (place : Place) :
    steps.foldlM (fun v step => step.1.apply v step.2.val) place.value =
      (steps.foldlM (fun (place : Place) step => place.step step.1 step.2) place).map
        Place.value := by
  induction steps generalizing place with
  | nil => rfl
  | cons step steps ih =>
      rw [List.foldlM_cons, List.foldlM_cons, Place.apply_value]
      cases place.step step.1 step.2 with
      | error e => rfl
      | ok place => exact ih place

theorem evaluate_tree_ofMembers :
    p.tree.evaluate ⟨Value.ofMembers members⟩ = (p.walk members).map Place.value := by
  have root : Scope.get ⟨Value.ofMembers members⟩ p.root = (Place.member members p.root).value :=
    (Place.value_member members p.root).symm
  rw [evaluate_tree, root, foldlM_value, walk]

end Path

/-- The text of a path evaluates to what its walk through an object comes to. A path with more than
`maxHeight` names is refused instead, whatever is in the object: the operator in front of the first
name too many is blamed. -/
theorem evaluateText_path (p : Path) (members : Entries Json.Document none) :
    Scope.ofDocument (.object members) = .ok ⟨Value.ofMembers members⟩ ∧
    (p.size ≤ maxHeight → evaluateText p.text ⟨Value.ofMembers members⟩ =
      ((p.walk members).map Place.value).mapError .eval) ∧
    (maxHeight < p.size → ∃ (kind : Access) (s : Name),
      p.steps[maxHeight - 1]? = some (kind, s) ∧
        evaluateText p.text ⟨Value.ofMembers members⟩ = .error (.read (.parse (.tooDeep
          ⟨.symbol kind.symbol, byteLength (p.take (maxHeight - 1)).text.toList⟩)))) := by
  refine ⟨rfl, fun short => ?_, fun long => ?_⟩
  · rw [evaluateText, p.ofText_eq_tree short, ← p.evaluate_tree_ofMembers]
    rfl
  · obtain ⟨kind, s, found, refused⟩ := p.ofText_eq_tooDeep long
    refine ⟨kind, s, found, ?_⟩
    rw [evaluateText, refused]
    rfl

def Name.a : Name :=
  ⟨"a", ⟨'a', [], rfl, by decide, by rintro _ ⟨⟩⟩, by rintro ⟨⟩ <;> decide⟩

def Path.repeated (count : Nat) : Path :=
  ⟨.a, List.replicate count (.strict, .a)⟩

theorem Path.size_repeated (count : Nat) : (Path.repeated count).size = count + 1 := by
  rw [size, repeated, List.length_replicate]

theorem Path.byteLength_accessChars_replicate (count : Nat) (step : Access × Name) :
    byteLength (accessChars (List.replicate count step)) =
      count * byteLength (accessChars [step]) := by
  induction count with
  | zero => rw [Nat.zero_mul]; rfl
  | succ count ih =>
      rw [List.replicate_succ, Nat.succ_mul, ← ih, Nat.add_comm, ← byteLength_append,
        ← accessChars_append]
      rfl

theorem Path.byteLength_repeated (count : Nat) :
    byteLength (Path.repeated count).text.toList = 1 + count * 2 := by
  have root : byteLength Name.a.val.toList = 1 := by decide
  have access : byteLength (accessChars [(.strict, .a)]) = 2 := by decide
  rw [text, String.toList_ofList, byteLength_append, repeated, root,
    byteLength_accessChars_replicate, access]

/-- A path of 256 names fails in an object without members, and one of 257 names is not read. -/
theorem evaluateText_path_repeated :
    evaluateText (Path.repeated 255).text ⟨.nil⟩ =
      .error (.eval (.nullFieldAccess "a" .undefined)) ∧
    evaluateText (Path.repeated 256).text ⟨.nil⟩ =
      .error (.read (.parse (.tooDeep ⟨.symbol .dot, 511⟩))) := by
  constructor
  · exact (evaluateText_path (.repeated 255) .nil).2.1 (Nat.le_of_eq (Path.size_repeated 255))
  · have long : maxHeight < (Path.repeated 256).size := by
      rw [Path.size_repeated]
      decide
    obtain ⟨kind, s, found, refused⟩ := (evaluateText_path (.repeated 256) .nil).2.2 long
    have shorter : (Path.repeated 256).take (maxHeight - 1) = .repeated 255 := by
      rw [Path.take, Path.repeated, List.take_replicate]
      rfl
    rw [shorter, Path.byteLength_repeated] at refused
    rw [Path.repeated, List.getElem?_replicate] at found
    cases found
    exact refused

end PredicateLang
