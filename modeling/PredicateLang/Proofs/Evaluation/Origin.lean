import PredicateLang.Command.Verdict
import PredicateLang.Proofs.Evaluation.Representation
import PredicateLang.Proofs.Json.Length
import PredicateLang.Proofs.Printing.Text
import PredicateLang.Proofs.Value.Document

/-!
# Where values come from

An expression computes little that is new. Its value is one of its literals, or one that is reached
in the scope by taking members; or it is `undefined`, `null`, a boolean or the length of such a
value (`Origin`). Every operation keeps to these (`Expr.origin_evaluate`).

The scope of a JSON text and the literals of a source are known: but for `undefined` and the
infinite doubles among the literals, JSON has them. So the result of a check loses nothing else when
it is written as JSON (`Verdict.ofText_result`).
-/

namespace PredicateLang

/-- The values that are reached in a scope: variables, their members, and so on. -/
inductive Scope.Reaches (scope : Scope) : Value → Prop
  | bound {name : String} {v : Value} : scope.find? name = some v → Reaches scope v
  | member {members : KeyMap Value} {name : String} {v : Value} :
      Reaches scope (.object members) → members.find? name = some v → Reaches scope v

def Given (literals : List Value) (scope : Scope) (v : Value) : Prop :=
  v ∈ literals ∨ scope.Reaches v

inductive Value.HasLength : Value → Nat → Prop
  | array (items : List Value) : HasLength (.array items) items.length
  | string (s : String) : HasLength (.string s) s.length

/-- The values that can be made of given ones. -/
inductive Origin (literals : List Value) (scope : Scope) : Value → Prop
  | given {v : Value} : Given literals scope v → Origin literals scope v
  | undefined : Origin literals scope .undefined
  | null : Origin literals scope .null
  | boolean (b : Bool) : Origin literals scope (.boolean b)
  | length {v : Value} {n : Nat} : Given literals scope v → v.HasLength n →
      Origin literals scope (.ofLength n)

section

variable {literals literals' : List Value} {scope : Scope} {v w : Value}

theorem Given.mono (more : literals ⊆ literals') (h : Given literals scope v) :
    Given literals' scope v :=
  h.imp_left (more ·)

theorem Origin.mono (more : literals ⊆ literals') (h : Origin literals scope v) :
    Origin literals' scope v := by
  cases h with
  | given h => exact .given (h.mono more)
  | undefined => exact .undefined
  | null => exact .null
  | boolean b => exact .boolean b
  | length h length => exact .length (h.mono more) length

/-- An array, a string or an object is not computed. -/
theorem Origin.given_of_kind (h : Origin literals scope v)
    (kind : v.kind = .array ∨ v.kind = .string ∨ v.kind = .object) : Given literals scope v := by
  cases h with
  | given h => exact h
  | _ => simp [Value.kind, Value.ofLength] at kind

theorem Scope.origin_get (scope : Scope) (name : String) :
    Origin literals scope (scope.get name) := by
  rw [Scope.get]
  cases found : scope.find? name with
  | none => exact .undefined
  | some v => exact .given (.inr (.bound found))

/-- Unless there are objects among the literals, a field comes from where its base does. -/
theorem Origin.field (plain : ∀ members, .object members ∉ literals)
    (h : Origin literals scope v) (name : String) : Origin literals scope (v.field name) := by
  cases v with
  | object members =>
      have reached : scope.Reaches (.object members) :=
        (h.given_of_kind (.inr (.inr rfl))).resolve_left (plain members)
      rw [Value.field]
      cases found : members.find? name with
      | none => exact .undefined
      | some w => exact .given (.inr (.member reached found))
  | array items =>
      rw [Value.field]
      split
      · exact .length (h.given_of_kind (.inl rfl)) (.array items)
      · exact .undefined
  | string s =>
      rw [Value.field]
      split
      · exact .length (h.given_of_kind (.inr (.inl rfl))) (.string s)
      · exact .undefined
  | undefined | null | boolean | number => exact .undefined

theorem Access.origin_apply (plain : ∀ members, .object members ∉ literals)
    (h : Origin literals scope v) {kind : Access} {name : String}
    (applied : kind.apply v name = .ok w) : Origin literals scope w := by
  unfold apply at applied
  split at applied
  · cases kind with
    | strict => contradiction
    | lenient =>
        cases applied
        exact .null
  · cases applied
    exact h.field plain name

theorem Connective.origin_apply (op : Connective) (h : Origin literals scope v)
    (h' : Origin literals scope w) : Origin literals scope (op.apply v w) := by
  cases op with
  | equals => exact .boolean _
  | and | or | coalesce =>
      rw [apply]
      split <;> assumption

theorem EvalError.exists_of_bind {result : Except EvalError Value}
    {next : Value → Except EvalError Value} (h : result >>= next = .ok w) :
    ∃ v : Value, result = .ok v ∧ next v = .ok w := by
  cases result with
  | error e => contradiction
  | ok v => exact ⟨v, rfl, h⟩

/-- The value of an expression is made of its literals and of what is reached in the scope. -/
theorem Expr.origin_evaluate {e : Expr} (plain : ∀ members, .object members ∉ e.literals)
    (evaluated : e.evaluate scope = .ok v) : Origin e.literals scope v := by
  induction e generalizing v with
  | name s =>
      cases evaluated
      exact scope.origin_get s
  | literal u =>
      cases evaluated
      exact .given (.inl (List.mem_singleton_self _))
  | not e ih =>
      obtain ⟨u, -, same⟩ := EvalError.exists_of_bind evaluated
      cases same
      exact .boolean _
  | binary op left right ihLeft ihRight =>
      obtain ⟨u, evaluatedLeft, next⟩ := EvalError.exists_of_bind evaluated
      obtain ⟨w, evaluatedRight, same⟩ := EvalError.exists_of_bind next
      cases same
      have originLeft := ihLeft (fun ms found => plain ms (List.mem_append_left _ found))
        evaluatedLeft
      have originRight := ihRight (fun ms found => plain ms (List.mem_append_right _ found))
        evaluatedRight
      exact op.origin_apply (originLeft.mono (List.subset_append_left ..))
        (originRight.mono (List.subset_append_right ..))
  | access kind base field ih _ =>
      obtain ⟨u, evaluatedBase, applied⟩ := EvalError.exists_of_bind evaluated
      have originBase := ih (fun ms found => plain ms (List.mem_append_left _ found))
        evaluatedBase
      cases field with
      | name s =>
          exact Access.origin_apply plain (originBase.mono (List.subset_append_left ..)) applied
      | _ =>
          cases applied
          exact .undefined
  | group e ih => exact ih plain evaluated

end

theorem Phrase.Derives.exists_of_mem_literals {p : Phrase} {ks : List Token.Kind} {e : Expr}
    {v : Value} (h : p.Derives ks e) (found : v ∈ e.literals) :
    ∃ k ∈ ks, k.opening? = some (.leaf (.literal v)) := by
  induction h with
  | expr _ ih | first _ _ ih | plain _ ih | base _ ih => exact ih found
  | link op _ _ ihLeft ihRight =>
      rcases List.mem_append.1 found with found | found
      · obtain ⟨k, member, opening⟩ := ihLeft found
        exact ⟨k, by simp [member], opening⟩
      · obtain ⟨k, member, opening⟩ := ihRight found
        exact ⟨k, by simp [member], opening⟩
  | not _ ih | group _ ih =>
      obtain ⟨k, member, opening⟩ := ih found
      exact ⟨k, by simp [member], opening⟩
  | field kind s _ ih =>
      rw [Expr.literals, Expr.literals, List.append_nil] at found
      obtain ⟨k, member, opening⟩ := ih found
      exact ⟨k, by simp [member], opening⟩
  | name s => contradiction
  | number | string | null | undefined | true | false =>
      obtain rfl := List.mem_singleton.1 found
      exact ⟨_, List.mem_singleton_self _, rfl⟩

/-- The literals of a source: constants, numbers, and strings that are no longer than it. -/
theorem Expr.cases_literal_of_ofText {source : String} {e : Expr} {v : Value}
    (read : ofText source = .ok e) (found : v ∈ e.literals) :
    (∃ k : Keyword, v = k.value) ∨ (∃ n : Number, v = .number n ∧ (Token.Kind.number n).Legible) ∨
      ∃ s : String, v = .string s ∧ s.length ≤ source.length := by
  obtain ⟨tokens, scanned, derives⟩ := exists_tokens_of_ofText read
  obtain ⟨k, isToken, opening⟩ := derives.exists_of_mem_literals found
  obtain ⟨token, inside, rfl⟩ := List.mem_map.1 isToken
  have delivered : .ok token ∈ scan source := by
    rw [scanned]
    exact List.mem_map_of_mem inside
  have legible := Cursor.legible_of_mem_items (.ofText source) delivered
  have short : ∀ s : String, token.kind = .string s → s.length ≤ source.length :=
    Cursor.kind_of_mem_items (P := fun k => ∀ s, k = .string s → s.length ≤ source.length)
      (fun _ _ _ _ room split s isString =>
        Nat.le_trans (Lexeme.length_le_of_kind_string split isString) room)
      (.ofText source) (Nat.le_of_eq String.length_toList) delivered
  generalize token.kind = k at opening legible short
  unfold Token.Kind.opening? at opening
  split at opening <;> cases opening
  · exact .inl ⟨_, rfl⟩
  · exact .inr (.inl ⟨_, rfl, legible⟩)
  · exact .inr (.inr ⟨_, rfl, short _ rfl⟩)

theorem Scope.exists_of_ofText [Wording] {json : String} {scope : Scope}
    (loaded : ofText json = .ok scope) :
    ∃ members : KeyMap Json.Document, scope = ⟨Value.ofMembers members⟩ ∧
      (Json.Document.object members).Within json.length := by
  unfold ofText at loaded
  split at loaded
  · contradiction
  · next d read =>
      cases d with
      | object members =>
          cases loaded
          exact ⟨members, rfl, Json.Document.within_of_ofText? read⟩
      | null | boolean | number | string | array => cases loaded

theorem Scope.Reaches.exists_document {members : KeyMap Json.Document} {n : Nat} {v : Value}
    (within : (Json.Document.object members).Within n)
    (h : Scope.Reaches ⟨Value.ofMembers members⟩ v) :
    ∃ d : Json.Document, v = .ofDocument d ∧ d.Within n := by
  induction h with
  | @bound name v found =>
      have found : (Value.ofMembers members).find? name = some v := found
      rw [Value.find?_ofMembers] at found
      obtain ⟨d, isMember, rfl⟩ := Option.map_eq_some_iff.1 found
      cases within with
      | object parts => exact ⟨d, rfl, parts name d isMember⟩
  | @member inner name v _ found ih =>
      obtain ⟨d, same, small⟩ := ih
      cases d with
      | object inner =>
          cases same
          rw [Value.find?_ofMembers] at found
          obtain ⟨d, isMember, rfl⟩ := Option.map_eq_some_iff.1 found
          cases small with
          | object parts => exact ⟨d, rfl, parts name d isMember⟩
      | null | boolean | number | string | array => cases same

namespace Value

theorem inJson_number {n : Number} (finite : ∀ x : Double, n = .real x → x.isFinite = true) :
    (number n).InJson := by
  constructor
  · rintro ⟨⟩
  · rintro x ⟨⟩
    exact finite x rfl

theorem ofLength_eq {n : Nat} (small : n < 2 ^ 63) :
    ∃ i : Int64, ofLength n = .number (.integer i) ∧ i.toInt = n :=
  ⟨.ofNat n, rfl, Int64.toInt_ofNat_of_lt small⟩

end Value

section

variable [Wording] {source json : String} {e : Expr} {scope : Scope} {v : Value}

/-- No array or string that an expression works with is longer than both texts. -/
theorem Given.length_le {n : Nat} (read : Expr.ofText source = .ok e)
    (loaded : Scope.ofText json = .ok scope) (h : Given e.literals scope v)
    (length : v.HasLength n) : n ≤ max source.length json.length := by
  rcases h with literal | reached
  · refine Nat.le_trans ?_ (Nat.le_max_left ..)
    rcases Expr.cases_literal_of_ofText read literal with ⟨k, rfl⟩ | ⟨_, rfl, -⟩ | ⟨s, rfl, short⟩
    · cases k <;> cases length
    · cases length
    · cases length
      exact short
  · refine Nat.le_trans ?_ (Nat.le_max_right ..)
    obtain ⟨members, rfl, within⟩ := Scope.exists_of_ofText loaded
    obtain ⟨d, rfl, small⟩ := reached.exists_document within
    cases small with
    | string short =>
        cases length
        exact short
    | array short _ =>
        cases length
        rw [Value.ofItems_eq_map, List.length_map]
        exact short
    | null | boolean | number | object => cases length

theorem Given.cases_inJson (read : Expr.ofText source = .ok e)
    (loaded : Scope.ofText json = .ok scope) (h : Given e.literals scope v) :
    v = .undefined ∨
      (v ∈ e.literals ∧ ∃ negative : Bool, v = .number (.real (.infinite negative))) ∨
      v.InJson := by
  rcases h with literal | reached
  · rcases Expr.cases_literal_of_ofText read literal with
      ⟨k, rfl⟩ | ⟨n, rfl, legible⟩ | ⟨s, rfl, -⟩
    · cases k with
      | undefined => exact .inl rfl
      | null => exact .inr (.inr (Value.inJson_ofDocument .null))
      | true | false => exact .inr (.inr (Value.inJson_ofDocument (.boolean _)))
    · rcases legible.cases_number with ⟨i, -, rfl⟩ | ⟨x, rfl⟩ | rfl
      · exact .inr (.inr (Value.inJson_number (by rintro _ ⟨⟩)))
      · exact .inr (.inr (Value.inJson_number (by rintro _ ⟨⟩; rfl)))
      · exact .inr (.inl ⟨literal, false, rfl⟩)
    · exact .inr (.inr (Value.inJson_ofDocument (.string s)))
  · obtain ⟨members, rfl, within⟩ := Scope.exists_of_ofText loaded
    obtain ⟨d, rfl, -⟩ := reached.exists_document within
    exact .inr (.inr (Value.inJson_ofDocument d))

theorem Origin.cases_inJson (read : Expr.ofText source = .ok e)
    (loaded : Scope.ofText json = .ok scope) (h : Origin e.literals scope v) :
    v = .undefined ∨
      (v ∈ e.literals ∧ ∃ negative : Bool, v = .number (.real (.infinite negative))) ∨
      v.InJson := by
  cases h with
  | given h => exact h.cases_inJson read loaded
  | undefined => exact .inl rfl
  | null => exact .inr (.inr (Value.inJson_ofDocument .null))
  | boolean b => exact .inr (.inr (Value.inJson_ofDocument (.boolean b)))
  | length => exact .inr (.inr (Value.inJson_number (by rintro _ ⟨⟩)))

theorem Verdict.ofText_of_evaluate (read : Expr.ofText source = .ok e)
    (loaded : Scope.ofText json = .ok scope) (evaluated : e.evaluate scope = .ok v) :
    Verdict.ofText source (some json) false = .ok (.result v.toDocument) := by
  rw [Verdict.ofText, read]
  change (Scope.ofText json >>= fun scope =>
    (e.evaluate scope).mapError (fun err => Failure.expression (.eval err)) >>= fun v =>
      pure (Verdict.result v.toDocument)) = _
  rw [loaded]
  change ((e.evaluate scope).mapError (fun err => Failure.expression (.eval err)) >>= fun v =>
    pure (Verdict.result v.toDocument)) = _
  rw [evaluated]
  rfl

/-- A check evaluates an expression in the scope of a JSON object and writes its value as JSON.
Nothing is lost but `undefined` and infinite literals: any other value has only parts that JSON has,
and is the value of the document that is written.

The value is a literal, or reached in the scope, or one of the few values that are computed. A
length is that of a literal or of a value that is reached, and fits 64 bits as long as the lengths
of the texts do. -/
theorem Verdict.ofText_result (read : Expr.ofText source = .ok e)
    (loaded : Scope.ofText json = .ok scope) (evaluated : e.evaluate scope = .ok v) :
    Verdict.ofText source (some json) false = .ok (.result v.toDocument) ∧
    (v = .undefined ∨
      (v ∈ e.literals ∧ ∃ negative : Bool, v = .number (.real (.infinite negative))) ∨
      (v.InJson ∧ .ofDocument v.toDocument = v)) ∧
    (v ∈ e.literals ∨ scope.Reaches v ∨ v = .undefined ∨ v = .null ∨
      (∃ b : Bool, v = .boolean b) ∨
      ∃ (u : Value) (n : Nat), (u ∈ e.literals ∨ scope.Reaches u) ∧ u.HasLength n ∧
        v = .ofLength n ∧ (max source.length json.length < 2 ^ 63 →
          ∃ i : Int64, v = .number (.integer i) ∧ i.toInt = n)) := by
  have plain : ∀ members : KeyMap Value, .object members ∉ e.literals := by
    intro members found
    rcases Expr.cases_literal_of_ofText read found with ⟨k, same⟩ | ⟨_, ⟨⟩, -⟩ | ⟨_, ⟨⟩, -⟩
    cases k <;> cases same
  have origin := Expr.origin_evaluate plain evaluated
  refine ⟨Verdict.ofText_of_evaluate read loaded evaluated, ?_, ?_⟩
  · exact (origin.cases_inJson read loaded).imp_right fun other =>
      other.imp_right fun inJson => ⟨inJson, Value.ofDocument_toDocument inJson⟩
  · cases origin with
    | given h => exact h.imp_right .inl
    | undefined => exact .inr (.inr (.inl rfl))
    | null => exact .inr (.inr (.inr (.inl rfl)))
    | boolean b => exact .inr (.inr (.inr (.inr (.inl ⟨b, rfl⟩))))
    | length h length =>
        refine .inr (.inr (.inr (.inr (.inr ⟨_, _, h, length, rfl, fun small => ?_⟩))))
        exact Value.ofLength_eq (Nat.lt_of_le_of_lt (h.length_le read loaded length) small)

end

/-- The sign of a zero in an array of the context is in the result of a check. -/
theorem Verdict.ofText_result_zero :
    ∃ v : Value, v = .array [.number (.real (.finite true .zero))] ∧
      Verdict.ofText "a" (some "\x7b\"a\": [-0]\x7d") false = .ok (.result v.toDocument) ∧
      v.InJson ∧ .ofDocument v.toDocument = v := by
  have read : Expr.ofText "a" = .ok (.name "a") := rfl
  have document : Json.Document.ofText? "\x7b\"a\": [-0]\x7d" =
      some (.object (KeyMap.insert .empty "a" (.array [.number (.real true .zero)]))) := rfl
  have loaded : Scope.ofText "\x7b\"a\": [-0]\x7d" = .ok
      ⟨Value.ofMembers (KeyMap.insert .empty "a" (.array [.number (.real true .zero)]))⟩ := by
    rw [Scope.ofText, document]
    rfl
  have evaluated : (Expr.name "a").evaluate
      ⟨Value.ofMembers (KeyMap.insert .empty "a" (.array [.number (.real true .zero)]))⟩ =
        .ok (.array [.number (.real (.finite true .zero))]) := rfl
  obtain ⟨written, kept, -⟩ := Verdict.ofText_result read loaded evaluated
  have known := kept.resolve_left (by rintro ⟨⟩)
  exact ⟨_, rfl, written, known.resolve_left (by rintro ⟨-, _, ⟨⟩⟩)⟩

end PredicateLang
