import PredicateLang.Command.Outcome
import PredicateLang.Proofs.Command.Arguments

/-!
# Where the context of a check comes from

The context of a check is given by an option, in a file, or on the standard input. The channels are
read at different times and not always, but what a check leaves behind depends on the text alone
(`respond_check`). `CheckReport` says what that is. The words of the JSON reader for a text that it
refuses are a parameter, so a channel may not change the text by as much as a blank.
-/

namespace PredicateLang

theorem textOfBytes_toUTF8 (text : String) : textOfBytes text.toUTF8 = .ok text := by
  have valid : String.fromUTF8? text.toUTF8 = some text := dif_pos text.isValidUTF8
  rw [textOfBytes, valid]

theorem Channel.context_file (path json : String) :
    (Channel.file path).context json.toUTF8 = .ok (some json) := by
  rw [context, textOfBytes_toUTF8]
  rfl

/-- A standard input that can be seen is a context. -/
theorem Channel.context_standardInput {json : String} {c : Char} (present : c ∈ json.toList)
    (visible : isWhiteSpace c = false) :
    Channel.standardInput.context json.toUTF8 = .ok (some json) := by
  have notBlank : isAllWhiteSpace json = false :=
    List.all_eq_false.2 ⟨c, present, by rw [visible]; exact Bool.false_ne_true⟩
  rw [context, textOfBytes_toUTF8]
  change Except.ok (if isAllWhiteSpace json then none else some json) = _
  rw [notBlank]
  rfl

section

variable [Wording] {source json path : String} {pretty formOnly : Bool}

theorem Verdict.ofText_formOnly (source : String) (context context' : Option String) :
    Verdict.ofText source context true = Verdict.ofText source context' true := by
  unfold ofText
  cases Expr.ofText source <;> rfl

/-- What a check with a context is to leave behind. The expression is read first, then the context,
and then the expression is evaluated; the first failure is reported. -/
inductive CheckReport [Wording] (source json : String) (pretty formOnly : Bool) : Outcome → Prop
  /-- The expression is faulty, whatever the context is. -/
  | faulty {e : ReadError} : Expr.ofText source = .error e →
      CheckReport source json pretty formOnly ⟨1, "", e.message ++ "\n"⟩
  /-- Only the form was asked for, whatever the context is. -/
  | wellFormed {e : Expr} : Expr.ofText source = .ok e → formOnly = true →
      CheckReport source json pretty formOnly ⟨0, "Syntax is valid\n", ""⟩
  | invalidJson {e : Expr} : Expr.ofText source = .ok e → formOnly = false →
      Json.Document.ofText? json = none →
      CheckReport source json pretty formOnly
        ⟨1, "", "Invalid JSON: " ++ Wording.refusal json ++ "\n"⟩
  | notAnObject {e : Expr} {d : Json.Document} : Expr.ofText source = .ok e → formOnly = false →
      Json.Document.ofText? json = some d → (∀ members, d ≠ .object members) →
      CheckReport source json pretty formOnly
        ⟨1, "", "Invalid context: Context must be a JSON object, got " ++
          (Value.ofDocument d).kind.name ++ "\n"⟩
  | failed {e : Expr} {members : KeyMap Json.Document} {failure : EvalError} :
      Expr.ofText source = .ok e → formOnly = false →
      Json.Document.ofText? json = some (.object members) →
      e.evaluate ⟨Value.ofMembers members⟩ = .error failure →
      CheckReport source json pretty formOnly ⟨1, "", "Runtime error: " ++ failure.message ++ "\n"⟩
  | printed {e : Expr} {members : KeyMap Json.Document} {v : Value} :
      Expr.ofText source = .ok e → formOnly = false →
      Json.Document.ofText? json = some (.object members) →
      e.evaluate ⟨Value.ofMembers members⟩ = .ok v →
      CheckReport source json pretty formOnly
        ⟨0, (if pretty then v.toDocument.pretty else v.toDocument.compact) ++ "\n", ""⟩

theorem Verdict.ofText_eq {e : Expr} (read : Expr.ofText source = .ok e) :
    Verdict.ofText source (some json) false =
      Scope.ofText json >>= fun scope =>
        (e.evaluate scope).mapError (fun failure => .expression (.eval failure)) >>= fun v =>
          pure (.result v.toDocument) := by
  rw [Verdict.ofText, read]
  rfl

def checkOutcome (source json : String) (pretty formOnly : Bool) : Outcome :=
  .ofExcept ((Verdict.ofText source (some json) formOnly).map (Verdict.text pretty))

theorem checkReport_checkOutcome (source json : String) (pretty formOnly : Bool) :
    CheckReport source json pretty formOnly (checkOutcome source json pretty formOnly) := by
  rw [checkOutcome]
  cases read : Expr.ofText source with
  | error e =>
      rw [Verdict.ofText, read]
      exact .faulty read
  | ok e =>
      cases formOnly with
      | true =>
          rw [Verdict.ofText, read]
          exact .wellFormed read rfl
      | false =>
          rw [Verdict.ofText_eq read, Scope.ofText]
          cases document : Json.Document.ofText? json with
          | none => exact .invalidJson read rfl document
          | some d =>
              cases d with
              | object members =>
                  change CheckReport _ _ _ _ (.ofExcept (Except.map _
                    ((e.evaluate ⟨Value.ofMembers members⟩).mapError _ >>= _)))
                  cases evaluated : e.evaluate ⟨Value.ofMembers members⟩ with
                  | error failure => exact .failed read rfl document evaluated
                  | ok v => exact .printed read rfl document evaluated
              | null | boolean | number | string | array =>
                  exact .notAnObject read rfl document nofun

theorem Request.outcome_check {channel : Channel} {bytes : ByteArray} {context : Option String}
    (given : channel.context bytes = .ok context) (source : String) (pretty formOnly : Bool) :
    (check source channel pretty formOnly).outcome (.ok bytes) =
      .ofExcept ((Verdict.ofText source context formOnly).map (Verdict.text pretty)) := by
  have outcome : (check source channel pretty formOnly).outcome (.ok bytes) =
      .ofExcept ((channel.context bytes).mapError Failure.unreadable >>= fun context =>
        Verdict.ofText source context formOnly >>= fun verdict => pure (verdict.text pretty)) := rfl
  rw [outcome, given]
  change Outcome.ofExcept (Verdict.ofText source context formOnly >>= _) = _
  cases Verdict.ofText source context formOnly <;> rfl

/-- The channels of a context are alike. A text that is not blank may be given by an option, in a
file or on the standard input, with the options of the check in any order: what is left behind is
the same, and `CheckReport` says what it is. In particular a check either fails with the code 1 and
prints nothing, or succeeds with the code 0 and reports nothing. -/
theorem respond_check {m : Type → Type} [Monad m] [LawfulMonad m]
    {read : Supply → m (Except SupplyError ByteArray)} {c : Char} (present : c ∈ json.toList)
    (visible : isWhiteSpace c = false) (named : path ≠ "")
    (file : read (.file path) = pure (.ok json.toUTF8))
    (input : read .standardInput = pure (.ok json.toUTF8)) :
    ∃ outcome : Outcome, CheckReport source json pretty formOnly outcome ∧
      ∀ channel ∈ [Channel.text json, .file path, .standardInput], ∀ arguments : List String,
        AsksCheck source channel pretty formOnly arguments →
          respond arguments read = pure outcome := by
  refine ⟨_, checkReport_checkOutcome source json pretty formOnly, ?_⟩
  intro channel given arguments asks
  have request := asks.ofArguments_eq (by rintro rfl; simp [named.symm] at given)
  rw [respond, request]
  simp only [List.mem_cons, List.not_mem_nil, or_false] at given
  rcases given with rfl | rfl | rfl
  · exact congrArg pure (Request.outcome_check rfl source pretty formOnly)
  · have outcome := Request.outcome_check (Channel.context_file path json) source pretty formOnly
    change (read (.file path) >>= fun bytes => pure (Request.outcome _ bytes)) = _
    rw [file, pure_bind]
    exact congrArg pure outcome
  · cases formOnly with
    | true =>
        -- Nothing is read, and nothing would be made of it.
        have unread : Channel.absent.context .empty = .ok none := rfl
        have outcome := Request.outcome_check unread source pretty true
        rw [Verdict.ofText_formOnly source none (some json)] at outcome
        exact congrArg pure outcome
    | false =>
        have outcome := Request.outcome_check (Channel.context_standardInput present visible)
          source pretty false
        change (read .standardInput >>= fun bytes => pure (Request.outcome _ bytes)) = _
        rw [input, pure_bind]
        exact congrArg pure outcome

end

/-- A null is met in the same way in an option and in a file. -/
theorem respond_check_null :
    ∃ outcome : Outcome, CheckReport "a.b" "\x7b\"a\": null\x7d" true false outcome ∧
      outcome = ⟨1, "", "Runtime error: Cannot access property 'b' of null value\n"⟩ ∧
      respond ["check", "--pretty", "--context=\x7b\"a\": null\x7d", "--", "a.b"]
        (fun _ => some (.ok "\x7b\"a\": null\x7d".toUTF8)) = some outcome ∧
      respond ["check", "--context-file", "c.json", "--pretty", "--", "a.b"]
        (fun _ => some (.ok "\x7b\"a\": null\x7d".toUTF8)) = some outcome := by
  obtain ⟨outcome, report, same⟩ := @respond_check _ "a.b" "\x7b\"a\": null\x7d" "c.json" true false
    Option _ _ (fun _ => some (.ok "\x7b\"a\": null\x7d".toUTF8)) 'a' (by decide) (by decide)
    (by decide) rfl rfl
  refine ⟨outcome, report, ?_, same _ (.head _) _ ⟨[.pretty], [], _, .refl _, .joined, rfl⟩,
    same _ (.tail _ (.head _)) _ ⟨[], [.pretty], _, .refl _, .apart (by simp), rfl⟩⟩
  have read : Expr.ofText "a.b" = .ok (.access .strict (.name "a") (.name "b")) := rfl
  have document : Json.Document.ofText? "\x7b\"a\": null\x7d" =
      some (.object (KeyMap.insert .empty "a" .null)) := rfl
  cases report with
  | faulty faulty => cases read.symm.trans faulty
  | wellFormed _ formOnly => cases formOnly
  | invalidJson _ _ none => cases document.symm.trans none
  | notAnObject _ _ found other =>
      exact absurd (Option.some.inj (document.symm.trans found)).symm (other _)
  | failed isTree _ found evaluated =>
      cases read.symm.trans isTree
      cases document.symm.trans found
      cases evaluated
      rfl
  | printed isTree _ found evaluated =>
      cases read.symm.trans isTree
      cases document.symm.trans found
      cases evaluated

end PredicateLang
