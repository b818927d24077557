import PredicateLang.Proofs.Reading.Blame
import PredicateLang.Proofs.Reading.Parallel

/-!
# Faults in the stream

A stream that breaks off with a fault is never read as an expression. By `Expr.ofItems_fault` either
its fault is reported, or a token in front of it is blamed, and then the fault has had no part in
that. Only one token goes unexamined in front of a fault that is reported: the one taken in advance
while the fault is pulled.

Both parts compare the stream with one that has the same tokens in front and goes on in another way.
-/

namespace PredicateLang

open Machine

theorem parallel_append {R : Token → Token → Prop} {x : ScanError} {tail rest : List ScanItem}
    {tokens : List Token} (same : ∀ token ∈ tokens, R token token) :
    Parallel R (some x) tail (tokens.map .ok ++ .error x :: rest) (tokens.map .ok ++ tail) := by
  induction tokens with
  | nil => exact .fault rest rfl
  | cons token tokens ih =>
      exact .cons (same token (List.mem_cons_self ..))
        (ih fun token found => same token (List.mem_cons_of_mem _ found))

/-- When reading has come to the last of some tokens, the others begin an expression. -/
theorem ComesTo.viable {token : Token} {tokens : List Token}
    (h : ComesTo [] ⟨some token, tokens.map .ok⟩) :
    Viable ((token :: tokens).dropLast.map Token.kind) := by
  obtain ⟨d, last, steps, feed⟩ := h
  have steps : Reaches maxHeight (start (.ofTokens (token :: tokens))) d := steps
  obtain ⟨read, rest, split, feed', viable, -⟩ := steps.viable_split
  obtain rfl : [last] = rest := Feed.ofTokens_injective (feed.symm.trans feed')
  rwa [split, List.dropLast_concat]

namespace Expr

variable {x : ScanError} {rest : List ScanItem}

theorem ofItems_fault_ne_ok (tokens : List Token) (e : Expr) :
    ofItems (tokens.map .ok ++ .error x :: rest) ≠ .ok e := by
  intro read
  obtain ⟨all, sound⟩ := exists_tokens_of_ofItems read
  have found : (.error x : ScanItem) ∈ all.map .ok :=
    sound ▸ List.mem_append_right _ (List.mem_cons_self ..)
  obtain ⟨_, -, ⟨⟩⟩ := List.mem_map.1 found

/-- On a stream with a fault a token in front of the fault is blamed, and also on any stream that
goes on with `tail` instead. Otherwise the fault is reported, and reading that other stream comes to
`tail`. -/
theorem cases_of_fault (token : Token) (tokens : List Token) (tail : List ScanItem) :
    (∃ (err : ParseError) (blamed : Token), err.token? = some blamed ∧ blamed ∈ token :: tokens ∧
      ofItems (.ok token :: (tokens.map .ok ++ .error x :: rest)) = .error (.parse err) ∧
      ofItems (.ok token :: (tokens.map .ok ++ tail)) = .error (.parse err)) ∨
    ofItems (.ok token :: (tokens.map .ok ++ .error x :: rest)) = .error (.scan x) ∧
      ComesTo tail ⟨some token, tokens.map .ok ++ tail⟩ := by
  let R (t t' : Token) : Prop := t' = t ∧ t ∈ token :: tokens
  have streams : Parallel R (some x) tail (tokens.map .ok ++ .error x :: rest)
      (tokens.map .ok ++ tail) :=
    parallel_append fun t found => ⟨rfl, List.mem_cons_of_mem _ found⟩
  have ends := Concludes.parallel (fun _ _ same => congrArg Token.kind same.1)
    (concludes_ofItems_cons token _) (concludes_ofItems_cons token _)
    (.cons ⟨rfl, List.mem_cons_self ..⟩ streams)
  have unread (e : Expr) :
      ofItems (.ok token :: (tokens.map .ok ++ .error x :: rest)) ≠ .ok e :=
    ofItems_fault_ne_ok (token :: tokens) e
  rcases ends with outcome | ⟨_, ⟨⟩, failed, comes⟩
  · generalize ofItems (.ok token :: (tokens.map .ok ++ .error x :: rest)) = result
      at outcome unread ⊢
    generalize ofItems (.ok token :: (tokens.map .ok ++ tail)) = result' at outcome ⊢
    cases outcome with
    | tree e => exact absurd rfl (unread e)
    | @blamed err t t' blamed same =>
        obtain ⟨rfl, found⟩ := same
        rw [ParseError.blaming_of_token? blamed]
        exact .inl ⟨err, _, blamed, found, rfl, rfl⟩
    | ended expected none => contradiction
  · exact .inr ⟨failed, comes⟩

/-- A fault in the stream is never passed over, and hides no more than what is wrong with the token
right in front of it.

Tokens with a fault behind them are neither read as an expression nor taken to end too early. Either
the fault is reported, and all of the tokens but the last begin an expression; or one of the tokens
is blamed, just as it would be if anything else followed the tokens. -/
theorem ofItems_fault (tokens : List Token) (x : ScanError) (rest : List ScanItem) :
    (∀ e : Expr, ofItems (tokens.map .ok ++ .error x :: rest) ≠ .ok e) ∧
    (∀ expected : Expected, ofItems (tokens.map .ok ++ .error x :: rest) ≠
      .error (.parse (.unexpectedEnd expected))) ∧
    (ofItems (tokens.map .ok ++ .error x :: rest) = .error (.scan x) ∨
      ∃ (err : ParseError) (token : Token), err.token? = some token ∧ token ∈ tokens ∧
        ofItems (tokens.map .ok ++ .error x :: rest) = .error (.parse err) ∧
        ∀ other : List ScanItem, ofItems (tokens.map .ok ++ other) = .error (.parse err)) ∧
    (ofItems (tokens.map .ok ++ .error x :: rest) = .error (.scan x) → tokens ≠ [] →
      Viable (tokens.dropLast.map Token.kind)) := by
  refine ⟨ofItems_fault_ne_ok tokens, ?_⟩
  cases tokens with
  | nil => exact ⟨by rintro _ ⟨⟩, .inl rfl, fun _ none => absurd rfl none⟩
  | cons token tokens =>
      rw [List.map_cons, List.cons_append]
      rcases cases_of_fault token tokens [] with
        ⟨err, blamed, isBlamed, found, failed, -⟩ | ⟨failed, comes⟩
      · rw [failed]
        refine ⟨?_, .inr ⟨err, blamed, isBlamed, found, rfl, fun other => ?_⟩, by rintro ⟨⟩⟩
        · rintro expected ⟨⟩
          cases isBlamed
        · rcases cases_of_fault token tokens other with
            ⟨err', -, -, -, failed', same⟩ | ⟨failed', -⟩
          · rw [failed] at failed'
            cases failed'
            exact same
          · rw [failed] at failed'
            cases failed'
      · rw [failed]
        refine ⟨by rintro _ ⟨⟩, .inl rfl, fun _ _ => ComesTo.viable ?_⟩
        rwa [List.append_nil] at comes

end Expr

end PredicateLang
