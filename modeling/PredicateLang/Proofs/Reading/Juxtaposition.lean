import PredicateLang.Proofs.Reading.Session

/-!
# Expressions side by side

A stream may hold several expressions, with nothing in between. One call after the other reads
them (`Reader.answers_sentences`): no call stops short of the end of an expression or takes a token
of the next. The reason is that no kind of token both starts an expression and continues one, so
the token in advance is always enough to tell.
-/

namespace PredicateLang

open Machine

theorem Token.Kind.continuation?_of_opening? {k : Token.Kind} {opening : Opening}
    (h : k.opening? = some opening) : k.continuation? = none := by
  unfold opening? at h
  split at h <;> first | rfl | contradiction

theorem Phrase.Derives.exists_opening {p : Phrase} {ks : List Token.Kind} {e : Expr}
    (h : p.Derives ks e) :
    ∃ (k : Token.Kind) (more : List Token.Kind) (opening : Opening),
      ks = k :: more ∧ k.opening? = some opening := by
  induction h with
  | expr _ ih | first _ _ ih | plain _ ih | base _ ih => exact ih
  | link _ _ _ ih | field _ _ _ ih =>
      obtain ⟨k, more, opening, rfl, found⟩ := ih
      exact ⟨k, _, opening, rfl, found⟩
  | not | number | string | name | null | undefined | true | false | group =>
      exact ⟨_, _, _, rfl, rfl⟩

structure Sentence where
  tokens : List Token
  tree : Expr
  derives : Phrase.expr.Derives (tokens.map Token.kind) tree
  low : tree.height ≤ maxHeight

namespace Sentence

theorem exists_first (s : Sentence) :
    ∃ first : Token, s.tokens.head? = some first ∧ first.kind.continuation? = none := by
  obtain ⟨k, more, opening, kinds, found⟩ := s.derives.exists_opening
  obtain ⟨first, tokens, split, rfl, -⟩ := List.map_eq_cons_iff.1 kinds
  exact ⟨first, by rw [split, List.head?_cons], Token.Kind.continuation?_of_opening? found⟩

def join (sentences : List Sentence) : List Token :=
  sentences.flatMap tokens

@[simp] theorem join_nil : join [] = [] := rfl

@[simp] theorem join_cons (s : Sentence) (sentences : List Sentence) :
    join (s :: sentences) = s.tokens ++ join sentences := rfl

theorem head?_join_cons (s : Sentence) (sentences : List Sentence) :
    (join (s :: sentences)).head? = s.tokens.head? := by
  obtain ⟨first, found, -⟩ := s.exists_first
  rw [join_cons, List.head?_append, found]
  rfl

/-- No sentence continues the one in front of it. -/
theorem ends_join (min : Level) (sentences : List Sentence) : Ends min (join sentences).head? := by
  cases sentences with
  | nil => rintro _ ⟨⟩
  | cons s sentences =>
      obtain ⟨first, found, none⟩ := s.exists_first
      rw [head?_join_cons, found]
      exact ends_of_continuation_none none

theorem halts (s : Sentence) (sentences : List Sentence) :
    Halts maxHeight (start (.ofTokens (join (s :: sentences)))) (.ok s.tree)
      (.ofTokens (join sentences)) := by
  have run : Arrives maxHeight (s.tree.height + 0)
      ⟨[], .operand, .ofTokens (s.tokens ++ join sentences)⟩
      ⟨[], .operator s.tree, .ofTokens (join sentences)⟩ :=
    s.derives.arrives rfl (Nat.le_refl _) (ends_join _ sentences)
  have steps := run.resolve_right fun high => absurd high.1 (Nat.not_lt.2 s.low)
  exact .of_reaches steps (.of_step (step_of_finished (ends_join _ sentences)))

def readings : List Sentence → List (Except ReadError Expr × Feed)
  | [] => []
  | s :: sentences => (.ok s.tree, .ofTokens (join sentences)) :: readings sentences

end Sentence

@[simp] theorem Call.conclude_error (call : Call) (err : ReadError) (feed : Feed) :
    call.conclude (.error err) feed = (.error err, feed) := by
  cases call <;> rfl

namespace Reader

theorem exists_ofItems_eq (tokens : List Token) :
    ∃ r : Reader, ofItems (tokens.map .ok) = .ok r ∧ r.feed = .ofTokens tokens := by
  cases tokens with
  | nil => exact ⟨_, rfl, rfl⟩
  | cons token tokens => exact ⟨_, rfl, rfl⟩

/-- What a reader answers to calls one after the other, and what each of them leaves to be read. -/
def answers (r : Reader) : List Call → List (Except ReadError Expr × Feed)
  | [] => []
  | call :: calls =>
      ((r.answer call).1, (r.answer call).2.feed) :: (r.answer call).2.answers calls

@[simp] theorem answers_nil (r : Reader) : r.answers [] = [] := rfl

@[simp] theorem answers_cons (r : Reader) (call : Call) (calls : List Call) :
    r.answers (call :: calls) =
      ((r.answer call).1, (r.answer call).2.feed) :: (r.answer call).2.answers calls := rfl

section

variable {r : Reader}

theorem answers_at_end (hdepth : r.depth = 0) (left : r.feed = .ofTokens []) (calls : List Call) :
    r.answers calls =
      List.replicate calls.length (.error (.parse (.unexpectedEnd .expression)), .ofTokens []) := by
  induction calls generalizing r with
  | nil => rfl
  | cons call calls ih =>
      have halts : Halts maxHeight (start r.feed) (.error (.parse (.unexpectedEnd .expression)))
          (.ofTokens []) := by
        rw [left]
        exact .of_step rfl
      have answer := answer_of_halts hdepth halts call
      rw [Call.conclude_error] at answer
      rw [answers_cons, answer, ih (depth_answer hdepth call) (Prod.mk.inj answer).2,
        List.length_cons, List.replicate_succ]

/-- Calls on sentences read one each, and then there is nothing left. -/
theorem answers_of_join {sentences : List Sentence} (hdepth : r.depth = 0)
    (left : r.feed = .ofTokens (Sentence.join sentences)) (later : List Call) :
    r.answers (List.replicate sentences.length .expression ++ later) =
      Sentence.readings sentences ++ List.replicate later.length
        (.error (.parse (.unexpectedEnd .expression)), .ofTokens []) := by
  induction sentences generalizing r with
  | nil => exact answers_at_end hdepth left later
  | cons s sentences ih =>
      have answer := answer_of_halts hdepth (left ▸ s.halts sentences) .expression
      have rest := ih (depth_answer hdepth .expression) (Prod.mk.inj answer).2
      rw [List.length_cons, List.replicate_succ, List.cons_append, answers_cons, rest, answer]
      rfl

end

/-- One call after the other reads sentences that stand side by side, and each takes just the tokens
of its sentence. Every later call finds no expression. A single call for the whole stream blames the
first token of the second sentence. -/
theorem answers_sentences (sentences : List Sentence) :
    (∃ r : Reader, ofItems ((Sentence.join sentences).map .ok) = .ok r ∧
      ∀ later : List Call,
        r.answers (List.replicate sentences.length .expression ++ later) =
          Sentence.readings sentences ++ List.replicate later.length
            (.error (.parse (.unexpectedEnd .expression)), .ofTokens [])) ∧
    ∀ (first second : Sentence) (more : List Sentence), sentences = first :: second :: more →
      ∃ token : Token, second.tokens.head? = some token ∧
        Expr.ofItems ((Sentence.join sentences).map .ok) =
          .error (.parse (.trailingInput token)) := by
  constructor
  · obtain ⟨r, opened, left⟩ := exists_ofItems_eq (Sentence.join sentences)
    exact ⟨r, opened, answers_of_join (depth_ofItems opened) left⟩
  · rintro first second more rfl
    obtain ⟨token, found, -⟩ := second.exists_first
    refine ⟨token, found, ?_⟩
    refine (Expr.concludes_ofItems _).eq_of_halts_trailing (first.halts (second :: more)) ?_
    rw [Feed.lookahead_ofTokens, Sentence.head?_join_cons, found]

def nameAndGroup : List Sentence :=
  [⟨[⟨.name "a", 0⟩], .name "a", (Phrase.Derives.name "a").lift (by decide), by decide⟩,
    ⟨[⟨.symbol .openParen, 2⟩, ⟨.name "b", 3⟩, ⟨.symbol .closeParen, 4⟩], .group (.name "b"),
      (Phrase.Derives.group ((Phrase.Derives.name "b").lift (by decide))).lift (by decide),
      by decide⟩]

/-- A name takes no arguments: `a (b)` is two expressions. -/
theorem answers_sentences_nameAndGroup :
    (∃ r : Reader, ofItems ((Sentence.join nameAndGroup).map .ok) = .ok r ∧
      r.answers [.expression, .expression, .complete] =
        [(.ok (.name "a"), .ofTokens
            [⟨.symbol .openParen, 2⟩, ⟨.name "b", 3⟩, ⟨.symbol .closeParen, 4⟩]),
          (.ok (.group (.name "b")), .ofTokens []),
          (.error (.parse (.unexpectedEnd .expression)), .ofTokens [])]) ∧
    Expr.ofItems ((Sentence.join nameAndGroup).map .ok) =
      .error (.parse (.trailingInput ⟨.symbol .openParen, 2⟩)) := by
  obtain ⟨⟨r, opened, answers⟩, blames⟩ := answers_sentences nameAndGroup
  refine ⟨⟨r, opened, answers [.complete]⟩, ?_⟩
  obtain ⟨token, found, failed⟩ := blames _ _ _ rfl
  cases found
  exact failed

end Reader

end PredicateLang
