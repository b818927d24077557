import PredicateLang.Expr.Meaning
import PredicateLang.Proofs.Number.Comparison
import PredicateLang.Proofs.Printing.RoundTrip
import PredicateLang.Proofs.Printing.Stray

/-!
# What a printed tree means

The groups that printing adds mean nothing, so a text means what `Expr.reread` means: the tree
with every number literal replaced by what its text is read as. A whole double may come back as
an integer. `Value.Tracks` relates the values of both trees: they are the same, but for a whole
double that is an integer on the other side. The relation is kept by every operation
(`Expr.tracks_evaluate`), as long as no double that takes part is mistaken for one of these
integers in a comparison.
-/

namespace PredicateLang

theorem Expr.evaluate_parenthesized (scope : Scope) (e : Expr) :
    e.parenthesized.evaluate scope = e.evaluate scope := by
  induction e with
  | name | literal => rfl
  | not e ih => simp only [parenthesized, evaluate, ih]
  | binary op left right ihLeft ihRight => simp only [parenthesized, evaluate, ihLeft, ihRight]
  | access kind base field ih _ =>
      cases field <;> simp only [parenthesized, evaluate, ih]
  | group e ih => simp only [parenthesized, evaluate, ih]

/-- The double is the value, or that of one of its members, or of one of theirs. -/
inductive Value.Holds (x : Double) : Value → Prop
  | number : Holds x (.number (.real x))
  | member {members : Entries Value none} {name : String} {v : Value} :
      members.find? name = some v → Holds x v → Holds x (.object members)

def Scope.Holds (scope : Scope) (x : Double) : Prop :=
  ∃ (name : String) (v : Value), scope.find? name = some v ∧ v.Holds x

theorem Scope.holds_of_get {scope : Scope} {name : String} {x : Double}
    (h : (scope.get name).Holds x) : scope.Holds x := by
  rw [get] at h
  cases found : scope.find? name with
  | none =>
      rw [found] at h
      cases h
  | some v =>
      rw [found] at h
      exact ⟨name, v, found, h⟩

def Value.Alike : Value → Value → Prop
  | .number m, .number n => m.Alike n
  | v, w => v = w

def EvalError.Alike : Except EvalError Value → Except EvalError Value → Prop
  | .ok v, .ok w => v.Alike w
  | .error e, .error e' => e = e'
  | _, _ => False

theorem Value.Alike.refl (v : Value) : v.Alike v := by
  cases v with
  | number n => exact Number.Alike.refl n
  | _ => rfl

theorem Value.Holds.of_field {x : Double} {v : Value} {name : String}
    (h : (v.field name).Holds x) : v.Holds x := by
  cases v with
  | object members =>
      cases found : members.find? name with
      | none =>
          rw [field, found] at h
          cases h
      | some w =>
          rw [field, found] at h
          exact .member found h
  | array items =>
      rw [field] at h
      split at h <;> cases h
  | string s =>
      rw [field] at h
      split at h <;> cases h
  | undefined | null | boolean | number => cases h

section

variable {x : Magnitude} {n : Nat} {v : Value}

theorem Value.equals_of_isNat_left (h : x.IsNat n)
    (exact : ∀ z : Double, v = .number (.real z) → z.ComparesExactly n) :
    (Value.number (.integer (.ofNat n))).equals v =
      (Value.number (.real (.finite false x))).equals v := by
  cases v with
  | number m =>
      rw [equals, equals]
      refine Number.equals_of_isNat h ?_
      rintro z rfl
      exact exact z rfl
  | _ => rfl

theorem Value.equals_of_isNat_right (h : x.IsNat n)
    (exact : ∀ z : Double, v = .number (.real z) → z.ComparesExactly n) :
    v.equals (.number (.integer (.ofNat n))) = v.equals (.number (.real (.finite false x))) := by
  cases v with
  | number m =>
      rw [equals, equals, m.equals_comm, m.equals_comm]
      refine Number.equals_of_isNat h ?_
      rintro z rfl
      exact exact z rfl
  | _ => rfl

end

section

/- `P` holds of the integers that literals are read as, and `Q` of the doubles that take part. -/
variable {P : Nat → Prop} {Q : Double → Prop}

/-- The values on both sides: the same, or a whole double and the integer that it is read as. The
first one holds no doubles but those that take part. -/
def Value.Tracks (P : Nat → Prop) (Q : Double → Prop) (v v' : Value) : Prop :=
  (∀ z : Double, v.Holds z → Q z) ∧
    (v = v' ∨ ∃ (x : Magnitude) (n : Nat), P n ∧ x.IsNat n ∧
      v = .number (.real (.finite false x)) ∧ v' = .number (.integer (.ofNat n)))

def EvalError.Tracks (P : Nat → Prop) (Q : Double → Prop) :
    Except EvalError Value → Except EvalError Value → Prop
  | .ok v, .ok v' => v.Tracks P Q v'
  | .error e, .error e' => e = e'
  | _, _ => False

namespace Value

variable {v v' w w' : Value}

theorem Tracks.of_boolean (b : Bool) : (boolean b).Tracks P Q (boolean b) :=
  ⟨by rintro z ⟨⟩, .inl rfl⟩

theorem Tracks.isTruthy_eq (h : v.Tracks P Q v') : v'.isTruthy = v.isTruthy := by
  obtain ⟨-, rfl | ⟨x, n, -, isNat, rfl, rfl⟩⟩ := h
  · rfl
  · exact Number.isTruthy_of_isNat isNat

theorem Tracks.isNullish_eq (h : v.Tracks P Q v') : v'.isNullish = v.isNullish := by
  obtain ⟨-, rfl | ⟨x, n, -, -, rfl, rfl⟩⟩ := h <;> rfl

theorem Tracks.kind_eq (h : v.Tracks P Q v') : v'.kind = v.kind := by
  obtain ⟨-, rfl | ⟨x, n, -, -, rfl, rfl⟩⟩ := h <;> rfl

theorem Tracks.field (h : v.Tracks P Q v') (name : String) :
    (v.field name).Tracks P Q (v'.field name) := by
  obtain ⟨held, same⟩ := h
  refine ⟨fun z holds => held z holds.of_field, .inl ?_⟩
  obtain rfl | ⟨x, n, -, -, rfl, rfl⟩ := same <;> rfl

theorem Tracks.alike (h : v.Tracks P Q v') : v.Alike v' := by
  obtain ⟨-, rfl | ⟨x, n, -, isNat, rfl, rfl⟩⟩ := h
  · exact .refl v
  · change (Double.finite false x).IsInt (Int64.ofNat n).toInt
    rw [Int64.toInt_ofNat_of_lt isNat.1]
    exact isNat.isInt

theorem Tracks.equals_eq (exact : ∀ (z : Double) (n : Nat), Q z → P n → z.ComparesExactly n)
    (h : v.Tracks P Q v') (h' : w.Tracks P Q w') : v'.equals w' = v.equals w := by
  obtain ⟨heldLeft, sameLeft⟩ := h
  obtain ⟨heldRight, sameRight⟩ := h'
  have right : v.equals w' = v.equals w := by
    obtain rfl | ⟨y, n, used, isNat, rfl, rfl⟩ := sameRight
    · rfl
    · refine equals_of_isNat_right isNat ?_
      rintro z rfl
      exact exact z n (heldLeft z .number) used
  rw [← right]
  obtain rfl | ⟨x, m, used, isNat, rfl, rfl⟩ := sameLeft
  · rfl
  · refine equals_of_isNat_left isNat ?_
    rintro z rfl
    -- A double on the right has not been replaced either.
    obtain rfl | ⟨y, n, -, -, -, ⟨⟩⟩ := sameRight
    exact exact z m (heldRight z .number) used

end Value

theorem Connective.tracks_apply (op : Connective)
    (exact : ∀ (z : Double) (n : Nat), Q z → P n → z.ComparesExactly n) {v v' w w' : Value}
    (h : v.Tracks P Q v') (h' : w.Tracks P Q w') :
    (op.apply v w).Tracks P Q (op.apply v' w') := by
  cases op with
  | equals =>
      rw [apply, apply, h.equals_eq exact h']
      exact .of_boolean _
  | and =>
      rw [apply, apply, h.isTruthy_eq]
      split <;> assumption
  | or =>
      rw [apply, apply, h.isTruthy_eq]
      split <;> assumption
  | coalesce =>
      rw [apply, apply, h.isNullish_eq]
      split <;> assumption

theorem Access.tracks_apply (kind : Access) (name : String) {v v' : Value}
    (h : v.Tracks P Q v') : EvalError.Tracks P Q (kind.apply v name) (kind.apply v' name) := by
  unfold apply
  rw [h.isNullish_eq, h.kind_eq]
  split
  · cases kind with
    | strict => rfl
    | lenient =>
        refine ⟨?_, .inl rfl⟩
        rintro z ⟨⟩
  · exact h.field name

theorem EvalError.Tracks.bind {r r' : Except EvalError Value} (h : EvalError.Tracks P Q r r')
    {next next' : Value → Except EvalError Value}
    (step : ∀ v v' : Value, v.Tracks P Q v' → EvalError.Tracks P Q (next v) (next' v')) :
    EvalError.Tracks P Q (r >>= next) (r' >>= next') := by
  match r, r', h with
  | .ok v, .ok v', h => exact step v v' h
  | .error _, .error _, rfl => rfl

theorem EvalError.Tracks.alike {r r' : Except EvalError Value} (h : EvalError.Tracks P Q r r') :
    EvalError.Alike r r' := by
  match r, r', h with
  | .ok v, .ok v', h => exact Value.Tracks.alike h
  | .error _, .error _, rfl => rfl

/-- A legible tree and the tree that its text is read as have outcomes that track each other, if
every number literal does. -/
theorem Expr.tracks_evaluate {e : Expr} {scope : Scope} (legible : e.Legible)
    (exact : ∀ (z : Double) (n : Nat), Q z → P n → z.ComparesExactly n)
    (held : ∀ z : Double, scope.Holds z → Q z)
    (literals : ∀ n ∈ e.numbers, ∃ m : Number, n.reread = .literal (.number m) ∧
      (Value.number n).Tracks P Q (.number m)) :
    EvalError.Tracks P Q (e.evaluate scope) (e.reread.evaluate scope) := by
  induction e with
  | name s =>
      exact ⟨fun z holds => held z (Scope.holds_of_get holds), .inl rfl⟩
  | literal v =>
      rcases legible.cases_literal with ⟨k, rfl⟩ | ⟨n, rfl, -⟩ | ⟨s, rfl⟩
      · cases k <;> exact ⟨by rintro z ⟨⟩, .inl rfl⟩
      · obtain ⟨m, same, tracks⟩ := literals n (List.mem_singleton_self n)
        rw [reread, same]
        exact tracks
      · exact ⟨by rintro z ⟨⟩, .inl rfl⟩
  | not e ih =>
      refine (ih legible literals).bind fun v v' tracks => ?_
      rw [tracks.isTruthy_eq]
      exact .of_boolean _
  | binary op left right ihLeft ihRight =>
      refine (ihLeft legible.1 fun n found => literals n (List.mem_append_left _ found)).bind
        fun v v' tracks => ?_
      refine (ihRight legible.2 fun n found => literals n (List.mem_append_right _ found)).bind
        fun w w' tracks' => ?_
      exact op.tracks_apply exact tracks tracks'
  | access kind base field ih _ =>
      obtain ⟨legible, s, rfl, -⟩ := legible
      refine (ih legible fun n found => literals n (List.mem_append_left _ found)).bind
        fun v v' tracks => ?_
      exact kind.tracks_apply s tracks
  | group e ih => exact ih legible literals

end

/-- The text of the number is that of a number of the same value. -/
def Number.KeepsValue (n : Number) : Prop :=
  ∃ m : Number, n.reread = .literal (.number m) ∧ n.Alike m

/-- A finite double keeps its value if it is not whole, at most `2 ^ 53` or at least `2 ^ 63`. The
text of any other may be that of a nearby integer. -/
theorem Number.keepsValue_real {x : Magnitude} (h : ¬ oneUnits ∣ x.units ∨
    x.units ≤ 2 ^ 53 * oneUnits ∨ 2 ^ 63 * oneUnits ≤ x.units) :
    (Number.real (.finite false x)).KeepsValue := by
  have cases : Lexeme.numberValue (Double.finite false x).text.toList =
      .real (.finite false x) ∨ ∃ n < 2 ^ 63,
        Lexeme.numberValue (Double.finite false x).text.toList = .integer (.ofNat n) ∧
          x.units = n * oneUnits := by
    rcases h with broken | low | high
    · exact .inl (Double.numberValue_text (.inl broken))
    · exact Double.numberValue_text_of_le low
    · exact .inl (Double.numberValue_text (.inr high))
  refine ⟨_, rfl, ?_⟩
  rw [text]
  rcases cases with real | ⟨n, small, integer, units⟩
  · rw [real]
    exact .refl _
  · rw [integer]
    change (Double.finite false x).IsInt (Int64.ofNat n).toInt
    rw [Int64.toInt_ofNat_of_lt small]
    exact Double.isInt_positive_iff.2 units

/-- A number literal alone means what its text means, in every scope, if and only if it keeps its
value. -/
theorem Number.keepsValue_iff (n : Number) :
    n.KeepsValue ↔ ∀ scope : Scope, EvalError.Alike
      ((Expr.literal (.number n)).evaluate scope) (n.reread.evaluate scope) := by
  constructor
  · rintro ⟨m, same, alike⟩ scope
    rw [same]
    exact alike
  · intro alike
    have empty := alike .empty
    cases n with
    | integer i => exact ⟨_, rfl, empty⟩
    | real x =>
        cases x with
        | finite | nan => exact ⟨_, rfl, empty⟩
        | infinite negative => cases (show Value.number _ = Value.undefined from empty)

theorem Number.cases_of_reread {n m : Number} (h : (Token.Kind.number n).Legible)
    (same : n.reread = .literal (.number m)) (alike : n.Alike m) :
    m = n ∨ ∃ (x : Magnitude) (k : Nat), x.IsNat k ∧ n = .real (.finite false x) ∧
      m = .integer (.ofNat k) := by
  rcases h.cases_number with ⟨k, small, rfl⟩ | ⟨x, rfl⟩ | rfl
  · obtain ⟨-, value⟩ := text_spec_integer small
    rw [reread, value] at same
    · cases same
      exact .inl rfl
    · rintro _ ⟨⟩
  · obtain ⟨-, value | ⟨k, small, value, -⟩⟩ := Double.text_spec x
    · rw [reread, text, value] at same
      · cases same
        exact .inl rfl
      · rintro _ ⟨⟩
    · rw [reread, text, value] at same
      · cases same
        change (Double.finite false x).IsInt (Int64.ofNat k).toInt at alike
        rw [Int64.toInt_ofNat_of_lt small] at alike
        exact .inr ⟨x, k, ⟨small, Double.isInt_positive_iff.1 alike⟩, rfl, rfl⟩
      · rintro _ ⟨⟩
  · contradiction

namespace Expr

/-- A tree and the tree that its text is read as mean the same, if all number literals keep their
value and no double that takes part is mistaken for an integer that a literal is reread as. -/
theorem alike_evaluate_reread {e : Expr} {scope : Scope} (legible : e.Legible)
    (keeps : ∀ n ∈ e.numbers, n.KeepsValue)
    (exact : ∀ z : Double, scope.Holds z ∨ .real z ∈ e.numbers →
      ∀ (x : Double) (i : Int64), .real x ∈ e.numbers →
        (Number.real x).reread = .literal (.number (.integer i)) → z.ComparesExactly i.toInt) :
    EvalError.Alike (e.evaluate scope) (e.reread.evaluate scope) := by
  let used (k : Nat) : Prop := k < 2 ^ 63 ∧ ∃ x : Double, .real x ∈ e.numbers ∧
    (Number.real x).reread = .literal (.number (.integer (.ofNat k)))
  let held (z : Double) : Prop := scope.Holds z ∨ .real z ∈ e.numbers
  have exact' : ∀ (z : Double) (k : Nat), held z → used k → z.ComparesExactly k := by
    rintro z k part ⟨small, x, found, same⟩
    rw [← Int64.toInt_ofNat_of_lt small]
    exact exact z part x _ found same
  have literals : ∀ n ∈ e.numbers, ∃ m : Number, n.reread = .literal (.number m) ∧
      (Value.number n).Tracks used held (.number m) := by
    intro n found
    obtain ⟨m, same, alike⟩ := keeps n found
    refine ⟨m, same, ?_, ?_⟩
    · rintro z ⟨⟩
      exact .inr found
    · rcases Number.cases_of_reread (legible.of_mem_numbers found) same alike with
        rfl | ⟨x, k, isNat, rfl, rfl⟩
      · exact .inl rfl
      · exact .inr ⟨x, k, ⟨isNat.1, _, found, same⟩, isNat, rfl, rfl⟩
  exact (tracks_evaluate legible exact' (fun z holds => .inl holds) literals).alike

/-- What the text of a tree means, and when that is what the tree means.

A source that was read as a tree prints to a text that is read again if and only if no plain dot
follows a finite number in the tree and the groups do not make it too high. If no plain dot does,
there is no other error than that about the height. If one does and the height is right, the error
is another: the number is malformed, or the name behind it stands where its group has to be closed.
What is read has the meaning of the tree with its number literals reread. This is the meaning of the
tree, up to the way in which numbers are held, if all number literals keep their value and no double
of the scope or of the tree is mistaken for an integer that a literal is reread as. -/
theorem evaluate_text {source : String} {e : Expr} (h : ofText source = .ok e) :
    (∀ tree : Expr, ofText e.text = .ok tree ↔
      e.DotsClear ∧ tree = e.reread.parenthesized ∧ tree.height ≤ maxHeight) ∧
    (e.DotsClear → ∀ err : ReadError, ofText e.text = .error err →
      ∃ token : Token, err = .parse (.tooDeep token)) ∧
    (¬ e.DotsClear → e.reread.parenthesized.height ≤ maxHeight →
      (∃ position : Nat, ofText e.text = .error (.scan (.malformedNumber position))) ∨
        ∃ (s : String) (position : Nat), ofText e.text =
          .error (.parse (.unexpectedToken .closeParen ⟨.name s, position⟩))) ∧
    (∀ (tree : Expr) (scope : Scope), ofText e.text = .ok tree →
      tree.evaluate scope = e.reread.evaluate scope ∧
      ((∀ n ∈ e.numbers, n.KeepsValue) →
        (∀ z : Double, scope.Holds z ∨ .real z ∈ e.numbers →
          ∀ (x : Double) (i : Int64), .real x ∈ e.numbers →
            (Number.real x).reread = .literal (.number (.integer i)) →
              z.ComparesExactly i.toInt) →
        EvalError.Alike (e.evaluate scope) (tree.evaluate scope))) := by
  have legible := legible_of_ofText h
  refine ⟨legible.ofText_text_eq_ok_iff, ?_, fun unclear low => ?_, ?_⟩
  · intro clear err failed
    obtain ⟨low, high⟩ := (legible.readsAs clear).ofText
    by_cases le : e.reread.parenthesized.height ≤ maxHeight
    · rw [low le] at failed
      contradiction
    · obtain ⟨token, deep⟩ := high (Nat.lt_of_not_le le)
      rw [deep] at failed
      cases failed
      exact ⟨token, rfl⟩
  · have takes := legible.takesDot unclear []
    rw [List.append_nil] at takes
    exact takes.ofText low
  · intro tree scope read
    obtain ⟨-, rfl, -⟩ := (legible.ofText_text_eq_ok_iff tree).1 read
    rw [evaluate_parenthesized]
    exact ⟨rfl, alike_evaluate_reread legible⟩

/-- The text of `1 .a` is not read, and not because of its height. That of `1.0` is read as an
integer of the same value. -/
theorem evaluate_text_one :
    (∃ e : Expr, ofText "1 .a" = .ok e ∧ (∀ tree : Expr, ofText e.text ≠ .ok tree) ∧
      ∀ token : Token, ofText e.text ≠ .error (.parse (.tooDeep token))) ∧
    (∃ e tree : Expr, ofText "1.0" = .ok e ∧ ofText e.text = .ok tree ∧
      EvalError.Alike (e.evaluate .empty) (tree.evaluate .empty)) := by
  constructor
  · have read : ofText "1 .a" =
        .ok (access .strict (literal (.number (.integer 1))) (name "a")) := rfl
    have unclear : ¬ (access .strict (literal (.number (.integer 1))) (name "a")).DotsClear :=
      fun clear => absurd (clear (.integer 1) (List.mem_singleton_self _)) (by decide)
    obtain ⟨readable, -, stray, -⟩ := evaluate_text read
    refine ⟨_, read, fun tree printed => unclear ((readable tree).1 printed).1, ?_⟩
    intro token deep
    rcases stray unclear (by decide) with ⟨position, failed⟩ | ⟨s, position, failed⟩
    all_goals
      rw [deep] at failed
      cases failed
  · have value : Lexeme.numberValue ['1', '.', '0'] =
        .real (.finite false ⟨1023 * 2 ^ 52, by decide⟩) := by decide +kernel
    have digits : Lexeme.numberValue (Double.finite false ⟨1023 * 2 ^ 52, by decide⟩).text.toList =
        .integer (.ofNat 1) := by
      rw [Double.toList_text]
      decide +kernel
    have isNat : Magnitude.IsNat ⟨1023 * 2 ^ 52, by decide⟩ 1 := ⟨by decide, by decide +kernel⟩
    generalize (⟨1023 * 2 ^ 52, by decide⟩ : Magnitude) = x at value digits isNat
    have same : (Number.real (.finite false x)).reread =
        .literal (.number (.integer (.ofNat 1))) :=
      congrArg (fun n => literal (.number n)) digits
    have lexes : Lexes "1.0".toList [.number (.real (.finite false x))] [] := by
      rw [← value]
      exact .number_alone
        ⟨'1', ['.', '0'], rfl, by decide, List.all_eq_true.1 (by decide), by decide⟩
    have read := (ofText_of_lexes lexes (Phrase.Derives.lift (.number _) (by decide))).1
      (show 1 ≤ 256 by decide)
    have meaning := evaluate_text read
    have printed := (meaning.1 (literal (.number (.integer (.ofNat 1))))).2
      ⟨by rintro n ⟨⟩, by rw [reread, same]; rfl, show 1 ≤ 256 by decide⟩
    refine ⟨_, _, read, printed, (meaning.2.2.2 _ .empty printed).2 ?_ ?_⟩
    · intro n found
      obtain rfl := List.mem_singleton.1 found
      exact ⟨_, same, isNat.isInt⟩
    · rintro z (⟨name, v, ⟨⟩, -⟩ | held) y i found same'
      obtain rfl := Number.real.inj (List.mem_singleton.1 held)
      obtain rfl := Number.real.inj (List.mem_singleton.1 found)
      rw [same] at same'
      cases same'
      exact isNat.comparesExactly 1

end Expr

/-- A double that a variable holds tells a whole literal from the integer that it is reread as if
and only if it is mistaken for that integer. -/
theorem Double.comparesExactly_iff {x : Magnitude} {n : Nat} (h : x.IsNat n)
    (same : (Number.real (.finite false x)).reread =
      .literal (.number (.integer (.ofNat n)))) {scope : Scope} {name : String} {z : Double}
    (found : scope.find? name = some (.number (.real z))) {e : Expr}
    (compares : e = .binary .equals (.literal (.number (.real (.finite false x)))) (.name name)) :
    z.ComparesExactly n ↔ EvalError.Alike (e.evaluate scope) (e.reread.evaluate scope) := by
  have value : scope.get name = .number (.real z) := by rw [Scope.get, found, Option.getD_some]
  have before : e.evaluate scope = .ok (.boolean ((finite false x).same z)) := by
    rw [compares]
    change Except.ok (Connective.apply .equals _ (scope.get name)) = _
    rw [value]
    rfl
  have after : e.reread.evaluate scope = .ok (.boolean (z.equalsInt n)) := by
    rw [compares, Expr.reread, Expr.reread, Expr.reread, same]
    change Except.ok (Connective.apply .equals _ (scope.get name)) = _
    rw [value, ← Int64.toInt_ofNat_of_lt h.1]
    rfl
  rw [before, after]
  change _ ↔ Value.boolean _ = .boolean _
  rw [Value.boolean.injEq, Bool.eq_iff_iff, same_iff_isInt h.isInt]
  exact ⟨fun exact => ⟨fun value => value.equalsInt h.1, exact⟩, Iff.mpr⟩

end PredicateLang
