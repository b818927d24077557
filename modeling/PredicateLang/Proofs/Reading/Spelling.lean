import PredicateLang.Proofs.Grammar
import PredicateLang.Proofs.Reading.Tokens

/-!
# What the machine has read

`Spells stack ks` says that the token kinds `ks` have left the frames of `stack` open, and
`Spelled` that a state of the machine is what the tokens taken so far amount to: those of the
open frames, and then a phrase that is tight enough for what may follow. Every transition keeps
this, which gives soundness (`Reaches.spelled`). Whatever is open can be closed, so the tokens
taken at any time begin an expression (`Spelled.viable`).
-/

namespace PredicateLang

theorem stackLevel_rank_le (stack : List Frame) :
    (stackLevel stack).rank ≤ Level.not.rank := by
  cases stack with
  | nil => decide
  | cons frame stack =>
      cases frame with
      | group _ | not _ => simp [Frame.level, Level.rank]
      | binary _ op _ =>
          cases op <;> simp [Frame.level, Connective.level, Level.next, Level.rank]

namespace Token.Kind

variable {k : Kind}

theorem eq_of_opening?_group (h : k.opening? = some .group) : k = .symbol .openParen := by
  unfold opening? at h
  split at h <;> cases h
  rfl

theorem eq_of_opening?_not (h : k.opening? = some .not) : k = .symbol .exclamation := by
  unfold opening? at h
  split at h <;> cases h
  rfl

theorem derives_of_opening?_leaf {e : Expr} (h : k.opening? = some (.leaf e)) :
    Phrase.primary.Derives [k] e := by
  unfold opening? at h
  split at h <;> cases h
  · exact .keyword _
  · exact .name _
  · exact .number _
  · exact .string _

theorem eq_of_continuation?_binary {op : Connective}
    (h : k.continuation? = some (.binary op)) : k = .symbol op.symbol := by
  unfold continuation? at h
  split at h <;> cases h <;> rfl

theorem eq_of_continuation?_access {kind : Access}
    (h : k.continuation? = some (.access kind)) : k = .symbol kind.symbol := by
  unfold continuation? at h
  split at h <;> cases h <;> rfl

theorem eq_of_name? {s : String} (h : k.name? = some s) : k = .name s := by
  unfold name? at h
  split at h <;> cases h
  rfl

end Token.Kind

/-- The token kinds that have left the frames of a stack open. -/
inductive Spells : List Frame → List Token.Kind → Prop
  | nil : Spells [] []
  | group {stack : List Frame} {ks : List Token.Kind} (opener : Token) :
      Spells stack ks → Spells (.group opener :: stack) (ks ++ [.symbol .openParen])
  | not {stack : List Frame} {ks : List Token.Kind} (opener : Token) :
      Spells stack ks → Spells (.not opener :: stack) (ks ++ [.symbol .exclamation])
  | binary {stack : List Frame} {ks ls : List Token.Kind} {left : Expr} (operator : Token)
      (op : Connective) : Spells stack ks → op.chain.Derives ls left →
      (stackLevel stack).rank ≤ op.level.rank →
      Spells (.binary operator op left :: stack) (ks ++ (ls ++ [.symbol op.symbol]))

/-- The token kinds that have led to a phase on top of a stack. An expression that may go on is
a phrase of some class, and what follows binds no tighter than that class. -/
def Phase.Spells (stack : List Frame) (ahead : Option Token) :
    Phase → List Token.Kind → Prop
  | operand, ks => ks = []
  | operator e, ks =>
      ∃ p : Phrase, p.Derives ks e ∧ (stackLevel stack).rank ≤ p.level.rank ∧
        Ends p.level.next ahead
  | field _ kind base, ks =>
      ∃ ls : List Token.Kind, Phrase.access.Derives ls base ∧ ks = ls ++ [.symbol kind.symbol]

def Spelled (stack : List Frame) (phase : Phase) (ahead : Option Token)
    (ks : List Token.Kind) : Prop :=
  ∃ outer inner : List Token.Kind, ks = outer ++ inner ∧ Spells stack outer ∧
    phase.Spells stack ahead inner

namespace Machine

variable {limit : Nat} {stack stack' : List Frame} {phase phase' : Phase} {token : Token}
  {ks : List Token.Kind}

theorem Move.spelled_take (move : Move limit stack phase (some token) true stack' phase')
    (h : Spelled stack phase (some token) ks) (ahead : Option Token) :
    Spelled stack' phase' ahead (ks ++ [token.kind]) := by
  obtain ⟨outer, inner, rfl, frames, top⟩ := h
  cases move with
  | leaf _ found =>
      obtain rfl : inner = [] := top
      refine ⟨outer, [token.kind], by simp, frames, .primary,
        Token.Kind.derives_of_opening?_leaf found, Level.rank_le _, ends_primary ahead⟩
  | group _ found =>
      obtain rfl : inner = [] := top
      rw [Token.Kind.eq_of_opening?_group found, List.append_nil]
      exact ⟨_, [], by simp, .group token frames, rfl⟩
  | not _ found =>
      obtain rfl : inner = [] := top
      rw [Token.Kind.eq_of_opening?_not found, List.append_nil]
      exact ⟨_, [], by simp, .not token frames, rfl⟩
  | @binary _ _ op left found loose =>
      obtain ⟨p, derives, _, ends⟩ := top
      -- The operand was complete before this token, so it is no looser than a chain of `op`.
      have tight : op.level.rank < p.level.next.rank := ends token rfl _ found
      have chain : op.chain.Derives inner left := derives.lift (by
        rw [Phrase.level_chain]
        rw [Level.rank_next] at tight
        omega)
      rw [Token.Kind.eq_of_continuation?_binary found]
      exact ⟨_, [], by simp, .binary token op frames chain loose, rfl⟩
  | @access _ _ kind base found loose =>
      obtain ⟨p, derives, _, ends⟩ := top
      have tight : Level.access.rank < p.level.next.rank := ends token rfl _ found
      have chain : Phrase.access.Derives inner base := derives.lift (by
        rw [Level.rank_next] at tight
        exact Nat.le_of_lt_succ (Nat.lt_of_lt_of_le tight (Nat.min_le_left _ _)))
      rw [Token.Kind.eq_of_continuation?_access found]
      exact ⟨outer, _, by simp, frames, inner, chain, rfl⟩
  | @closeGroup stack opener _ e isClose _ =>
      obtain ⟨p, derives, tight, _⟩ := top
      cases frames with
      | @group _ outer _ frames =>
          have whole : Phrase.expr.Derives inner e := derives.lift tight
          rw [isClose]
          exact ⟨outer, _, by simp, frames, .primary, .group whole, Level.rank_le _,
            ends_primary ahead⟩
  | @field _ operator _ kind base s found _ =>
      obtain ⟨ls, derives, rfl⟩ := top
      rw [Token.Kind.eq_of_name? found]
      refine ⟨outer, _, by simp, frames, .access, .field kind s derives, ?_, ends_primary ahead⟩
      exact Nat.le_trans (stackLevel_rank_le stack) (by decide)

/-- A transition that takes no token only closes a frame. -/
theorem Move.spelled_keep {ahead : Option Token}
    (move : Move limit stack phase ahead false stack' phase')
    (h : Spelled stack phase ahead ks) : Spelled stack' phase' ahead ks := by
  obtain ⟨outer, inner, rfl, frames, top⟩ := h
  cases move with
  | @closeNot _ _ opener e ends _ =>
      obtain ⟨p, derives, tight, _⟩ := top
      cases frames with
      | @not _ outer _ frames =>
          have operand : Phrase.unary.Derives inner e := derives.lift tight
          exact ⟨outer, _, by simp, frames, .unary, .not operand, stackLevel_rank_le _,
            ends.mono (by decide)⟩
  | @closeBinary _ _ operator op left right ends _ =>
      obtain ⟨p, derives, tight, _⟩ := top
      cases frames with
      | @binary _ outer ls _ _ _ frames chain loose =>
          have operand : op.operand.Derives inner right :=
            derives.lift (by rw [Phrase.level_operand]; exact tight)
          refine ⟨outer, _, by simp, frames, op.chain, .link op chain operand, ?_, ?_⟩
          · rw [Phrase.level_chain]
            exact loose
          · rw [Phrase.level_chain]
            exact ends

/-- The tokens that a run from the start has taken have led to the state that it ends in. -/
theorem Reaches.spelled {tokens : List Token} {d : Config}
    (steps : Reaches limit (start (.ofTokens tokens)) d) :
    ∃ read rest : List Token, tokens = read ++ rest ∧ d.feed = .ofTokens rest ∧
      Spelled d.stack d.phase rest.head? (read.map Token.kind) := by
  refine steps.induct (motive := fun stack phase ahead read =>
    Spelled stack phase ahead (read.map Token.kind)) ?_ ?_ ?_
  · exact ⟨[], [], rfl, .nil, rfl⟩
  · intro stack₁ stack₂ phase₁ phase₂ token read ahead move held
    rw [List.map_append]
    exact move.spelled_take held ahead
  · intro stack₁ stack₂ phase₁ phase₂ ahead read move held
    exact move.spelled_keep held

end Machine

/-- A phrase that is tight enough for the frames around it completes them to the start of an
expression. -/
theorem Spells.viable {stack : List Frame} {ks ls : List Token.Kind} {p : Phrase} {e : Expr}
    (h : Spells stack ks) (derives : p.Derives ls e)
    (tight : (stackLevel stack).rank ≤ p.level.rank) : Viable (ks ++ ls) := by
  induction h generalizing ls p e with
  | nil => exact ⟨[], e, by simpa using derives.lift (q := .expr) tight⟩
  | @group stack ks opener _ ih =>
      have closed := Phrase.Derives.group (derives.lift (q := .expr) tight)
      have viable := ih closed (Level.rank_le _)
      refine Viable.of_append [.symbol .closeParen] ?_
      simpa using viable
  | @not stack ks opener _ ih =>
      have negated := Phrase.Derives.not (derives.lift (q := .unary) tight)
      simpa using ih negated (stackLevel_rank_le stack)
  | @binary stack ks ls' left operator op _ chain loose ih =>
      have operand : op.operand.Derives ls e :=
        derives.lift (by rw [Phrase.level_operand]; exact tight)
      have linked := Phrase.Derives.link op chain operand
      simpa using ih linked (by rw [Phrase.level_chain]; exact loose)

theorem Spelled.viable {stack : List Frame} {phase : Phase} {ahead : Option Token}
    {ks : List Token.Kind} (h : Spelled stack phase ahead ks) : Viable ks := by
  obtain ⟨outer, inner, rfl, frames, top⟩ := h
  cases phase with
  | operand =>
      obtain rfl : inner = [] := top
      refine Viable.of_append [.keyword .null] ?_
      simpa using frames.viable (.keyword .null) (Level.rank_le _)
  | operator e =>
      obtain ⟨p, derives, tight, _⟩ := top
      exact frames.viable derives tight
  | field operator kind base =>
      obtain ⟨ls, derives, rfl⟩ := top
      refine Viable.of_append [.name ""] ?_
      have access := Phrase.Derives.field kind "" derives
      have tight := Nat.le_trans (stackLevel_rank_le stack)
        (show Level.not.rank ≤ Phrase.access.level.rank by decide)
      simpa using frames.viable access tight

theorem Spelled.derives {e : Expr} {ahead : Option Token} {ks : List Token.Kind}
    (h : Spelled [] (.operator e) ahead ks) : Phrase.expr.Derives ks e := by
  obtain ⟨outer, inner, rfl, frames, p, derives, tight, _⟩ := h
  cases frames
  exact derives.lift tight

end PredicateLang
