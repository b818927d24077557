import PredicateLang.Proofs.Reading.Completeness
import PredicateLang.Proofs.Reading.Simulation
import PredicateLang.Proofs.Reading.Spelling

/-!
# What is accepted

A list of tokens is read as a tree exactly if the grammar derives that tree and the tree is not
higher than `maxHeight`. A tree that is too high is refused for its height and for nothing else.

One direction is the invariant `Spelled`, the other the run of `Phrase.Derives.arrives`. How the
machine stops decides how reading ends, since it stops in one way only.
-/

namespace PredicateLang

theorem exists_tokens_of_sound {items : List ScanItem}
    (sound : ∀ e : ScanError, .error e ∉ items) :
    ∃ tokens : List Token, items = tokens.map .ok := by
  induction items with
  | nil => exact ⟨[], rfl⟩
  | cons item items ih =>
      cases item with
      | error e => exact absurd (List.mem_cons_self ..) (sound e)
      | ok token =>
          obtain ⟨tokens, rfl⟩ := ih fun e found => sound e (List.mem_cons_of_mem _ found)
          exact ⟨token :: tokens, rfl⟩

def Feed.Faulty (feed : Feed) : Prop :=
  feed.lookahead.isSome ∧ ∃ e : ScanError, .error e ∈ feed.items

theorem Feed.Faulty.of_shift {feed feed' : Feed} {taken : Option Token} (h : feed.Faulty)
    (shifted : feed.shift = (.ok taken, feed')) : feed'.Faulty := by
  obtain ⟨ahead, items⟩ := feed
  obtain ⟨-, e, found⟩ := h
  match items with
  | [] => contradiction
  | .error _ :: _ => cases shifted
  | .ok token :: items =>
      cases shifted
      refine ⟨rfl, e, ?_⟩
      simpa using found

namespace Machine

variable {limit : Nat} {stack stack' : List Frame} {phase phase' : Phase} {taken : Bool}
  {ahead : Option Token} {tokens : List Token} {feed : Feed} {e : Expr}

theorem Move.height_le (move : Move limit stack phase ahead taken stack' (.operator e)) :
    e.height ≤ limit := by
  cases move with
  | leaf shallow found =>
      rw [Token.Kind.height_of_leaf found]
      exact Nat.le_trans (Nat.le_add_left 1 _) shallow
  | closeNot _ low | closeBinary _ low | closeGroup _ low | field _ low => exact low

theorem Reaches.height_le
    (steps : Reaches limit (start (.ofTokens tokens)) ⟨stack, .operator e, feed⟩) :
    e.height ≤ limit := by
  obtain ⟨read, rest, -, -, low⟩ := steps.induct
    (motive := fun _ phase _ _ => ∀ e : Expr, phase = .operator e → e.height ≤ limit)
    (by rintro e ⟨⟩)
    (by
      rintro stack₁ stack₂ phase₁ phase₂ token read ahead move _ e rfl
      exact move.height_le)
    (by
      rintro stack₁ stack₂ phase₁ phase₂ ahead read move _ e rfl
      exact move.height_le)
  exact low e rfl

theorem faulty_of_step {c d : Config} (h : step limit c = .next d) (faulty : c.feed.Faulty) :
    d.feed.Faulty := by
  obtain ⟨taken, -, leaves⟩ := move_of_step h
  cases taken with
  | true => exact faulty.of_shift leaves
  | false =>
      have same : d.feed = c.feed := leaves
      rwa [same]

theorem Reaches.faulty {c d : Config} (steps : Reaches limit c d) (faulty : c.feed.Faulty) :
    d.feed.Faulty := by
  induction steps with
  | refl => exact faulty
  | tail _ one ih => exact faulty_of_step one ih

end Machine

open Machine

section

variable {feed rest : Feed} {result : Except ReadError Expr} {e : Expr} {err : ReadError}

theorem Reaches.halts_of_none {rest : Feed}
    (steps : Reaches maxHeight (start feed) ⟨[], .operator e, rest⟩)
    (none : rest.lookahead = none) : Halts maxHeight (start feed) (.ok e) rest :=
  .of_reaches steps (.of_step (step_of_finished (by rw [none]; rintro _ ⟨⟩)))

theorem Reaches.halts_of_trailing {rest : Feed}
    (steps : Reaches maxHeight (start feed) ⟨[], .operator e, rest⟩)
    (stops : rest.continuation? .or = none) : Halts maxHeight (start feed) (.ok e) rest :=
  .of_reaches steps (.of_step (step_of_finished (Feed.continuation?_eq_none_iff.1 stops)))

theorem Concludes.eq_of_halts_error (h : Concludes feed result)
    (halts : Halts maxHeight (start feed) (.error err) rest) : result = .error err := by
  cases h with
  | complete steps none =>
      obtain ⟨same, -⟩ := halts.unique (Reaches.halts_of_none steps none)
      contradiction
  | trailing steps _ stops =>
      obtain ⟨same, -⟩ := halts.unique (Reaches.halts_of_trailing steps stops)
      contradiction
  | failed halts' => exact (halts'.unique halts).1

theorem Concludes.eq_of_halts_ok (h : Concludes feed result)
    (halts : Halts maxHeight (start feed) (.ok e) rest) (none : rest.lookahead = none) :
    result = .ok e := by
  cases h with
  | complete steps none => exact ((Reaches.halts_of_none steps none).unique halts).1
  | trailing steps found stops =>
      obtain ⟨-, rfl⟩ := (Reaches.halts_of_trailing steps stops).unique halts
      rw [found] at none
      contradiction
  | failed halts' =>
      obtain ⟨same, -⟩ := halts'.unique halts
      contradiction

theorem Concludes.eq_of_halts_trailing {token : Token} (h : Concludes feed result)
    (halts : Halts maxHeight (start feed) (.ok e) rest) (found : rest.lookahead = some token) :
    result = .error (.parse (.trailingInput token)) := by
  cases h with
  | complete steps none =>
      obtain ⟨-, rfl⟩ := (Reaches.halts_of_none steps none).unique halts
      rw [found] at none
      contradiction
  | trailing steps found' stops =>
      obtain ⟨-, rfl⟩ := (Reaches.halts_of_trailing steps stops).unique halts
      rw [found] at found'
      cases found'
      rfl
  | failed halts' =>
      obtain ⟨same, -⟩ := halts'.unique halts
      contradiction

end

namespace Expr

variable {tokens : List Token} {e : Expr}

theorem derives_of_ofItems (h : ofItems (tokens.map .ok) = .ok e) :
    Phrase.expr.Derives (tokens.map Token.kind) e ∧ e.height ≤ maxHeight := by
  have concludes := concludes_ofItems tokens
  rw [h] at concludes
  cases concludes with
  | complete steps found =>
      obtain ⟨read, rest, rfl, rfl, spelled⟩ := steps.spelled
      obtain rfl : rest = [] := List.head?_eq_none_iff.1 found
      rw [List.append_nil]
      exact ⟨spelled.derives, steps.height_le⟩

theorem ofItems_of_derives (h : Phrase.expr.Derives (tokens.map Token.kind) e)
    (low : e.height ≤ maxHeight) : ofItems (tokens.map .ok) = .ok e := by
  rcases h.arrives_start maxHeight with steps | ⟨high, _⟩
  · exact (concludes_ofItems tokens).eq_of_halts_ok
      (.of_reaches steps (.of_step (step_end maxHeight e))) rfl
  · omega

theorem ofItems_of_derives_high (h : Phrase.expr.Derives (tokens.map Token.kind) e)
    (high : maxHeight < e.height) :
    ∃ token : Token, ofItems (tokens.map .ok) = .error (.parse (.tooDeep token)) := by
  rcases h.arrives_start maxHeight with steps | ⟨_, token, rest, halts⟩
  · exact absurd steps.height_le (Nat.not_le.2 high)
  · exact ⟨token, (concludes_ofItems tokens).eq_of_halts_error halts⟩

theorem exists_tokens_of_ofItems {items : List ScanItem} (h : ofItems items = .ok e) :
    ∃ tokens : List Token, items = tokens.map .ok := by
  match items with
  | [] => exact ⟨[], rfl⟩
  | .error _ :: _ => contradiction
  | .ok token :: items =>
      have concludes := concludes_ofItems_cons token items
      rw [h] at concludes
      cases concludes with
      | complete steps none =>
          have sound : ∀ err : ScanError, .error err ∉ items := by
            intro err found
            have faulty := steps.faulty ⟨rfl, err, found⟩
            rw [Feed.Faulty, none] at faulty
            exact absurd faulty.1 (by simp)
          obtain ⟨tokens, rfl⟩ := exists_tokens_of_sound sound
          exact ⟨token :: tokens, rfl⟩

/-- Reading accepts what the grammar derives, up to the limit on the height of a tree, and gives
the tree that it derives. There is only one. -/
theorem ofItems_accepts (tokens : List Token) :
    (∀ e : Expr, ofItems (tokens.map .ok) = .ok e ↔
      Phrase.expr.Derives (tokens.map Token.kind) e ∧ e.height ≤ maxHeight) ∧
    (∀ e : Expr, Phrase.expr.Derives (tokens.map Token.kind) e → maxHeight < e.height →
      ∃ token : Token, ofItems (tokens.map .ok) = .error (.parse (.tooDeep token))) ∧
    (∀ e e' : Expr, Phrase.expr.Derives (tokens.map Token.kind) e →
      Phrase.expr.Derives (tokens.map Token.kind) e' → e = e') := by
  refine ⟨fun e => ⟨derives_of_ofItems, ?_⟩, fun e => ofItems_of_derives_high, ?_⟩
  · rintro ⟨h, low⟩
    exact ofItems_of_derives h low
  · intro e e' h h'
    exact h.unique h'

def negations (n : Nat) (s : String) : List Token :=
  List.replicate n ⟨.symbol .exclamation, 0⟩ ++ [⟨.name s, 0⟩]

theorem derives_negations (n : Nat) (s : String) :
    Phrase.unary.Derives ((negations n s).map Token.kind) (not^[n] (name s)) := by
  induction n with
  | zero => exact .plain (.base (.name s))
  | succ n ih =>
      rw [Function.iterate_succ_apply']
      exact .not ih

theorem height_negations (n : Nat) (s : String) : (not^[n] (name s)).height = n + 1 := by
  induction n with
  | zero => rfl
  | succ n ih => rw [Function.iterate_succ_apply', height, ih]

/-- One negation less than the limit is read, and one more is not. -/
theorem ofItems_accepts_negations :
    ofItems ((negations 255 "a").map .ok) = .ok (not^[255] (name "a")) ∧
    ∃ token : Token,
      ofItems ((negations 256 "a").map .ok) = .error (.parse (.tooDeep token)) := by
  have derives (n : Nat) :
      Phrase.expr.Derives ((negations n "a").map Token.kind) (not^[n] (name "a")) :=
    (derives_negations n "a").lift (by decide)
  constructor
  · refine ((ofItems_accepts _).1 _).2 ⟨derives 255, ?_⟩
    rw [height_negations]
    decide
  · refine (ofItems_accepts _).2.1 _ (derives 256) ?_
    rw [height_negations]
    decide

end Expr

end PredicateLang
