import Mathlib.Logic.Function.Iterate
import PredicateLang.Expr.Level

/-!
# The grammar of expressions

`Phrase.Derives p ks e` says that the token kinds `ks` form a phrase of the class `p` and that
`e` is its tree. There are eight classes, from the loosest to the tightest:

    expr     := orExpr
    orExpr   := andExpr ( '||' andExpr )*
    andExpr  := equality ( '&&' equality )*
    equality := coalesce ( '=' coalesce )*
    coalesce := unary ( '??' unary )*
    unary    := '!' unary | access
    access   := primary ( ('.' | '?.') NAME )*
    primary  := NUMBER | STRING | NAME | 'true' | 'false' | 'null' | 'undefined' | '(' expr ')'

The four chains of connectives are one rule with the connective as a parameter, and every chain
grows to the left. The relation speaks of kinds alone: it knows neither positions nor a limit on
the height of a tree.

A list is `Derivable` if it forms an expression, and `Viable` if it can be continued to one that
does.
-/

namespace PredicateLang

inductive Phrase
  | expr
  | orExpr
  | andExpr
  | equality
  | coalesce
  | unary
  | access
  | primary
  deriving DecidableEq

def Connective.chain : Connective → Phrase
  | .or => .orExpr
  | .and => .andExpr
  | .equals => .equality
  | .coalesce => .coalesce

def Connective.operand : Connective → Phrase
  | .or => .andExpr
  | .and => .equality
  | .equals => .coalesce
  | .coalesce => .unary

namespace Phrase

/-- Which token kinds form a phrase of a class, and its tree. -/
inductive Derives : Phrase → List Token.Kind → Expr → Prop
  | expr {ks : List Token.Kind} {e : Expr} :
      Derives .orExpr ks e → Derives .expr ks e
  | first (op : Connective) {ks : List Token.Kind} {e : Expr} :
      Derives op.operand ks e → Derives op.chain ks e
  | link (op : Connective) {ks ks' : List Token.Kind} {left right : Expr} :
      Derives op.chain ks left → Derives op.operand ks' right →
      Derives op.chain (ks ++ .symbol op.symbol :: ks') (.binary op left right)
  | not {ks : List Token.Kind} {e : Expr} :
      Derives .unary ks e → Derives .unary (.symbol .exclamation :: ks) (.not e)
  | plain {ks : List Token.Kind} {e : Expr} :
      Derives .access ks e → Derives .unary ks e
  | base {ks : List Token.Kind} {e : Expr} :
      Derives .primary ks e → Derives .access ks e
  | field (kind : Access) (s : String) {ks : List Token.Kind} {e : Expr} :
      Derives .access ks e →
      Derives .access (ks ++ [.symbol kind.symbol, .name s]) (.access kind e (.name s))
  | number (n : Number) : Derives .primary [.number n] (.literal (.number n))
  | string (s : String) : Derives .primary [.string s] (.literal (.string s))
  | name (s : String) : Derives .primary [.name s] (.name s)
  | null : Derives .primary [.keyword .null] (.literal .null)
  | undefined : Derives .primary [.keyword .undefined] (.literal .undefined)
  | true : Derives .primary [.keyword .true] (.literal (.boolean Bool.true))
  | false : Derives .primary [.keyword .false] (.literal (.boolean Bool.false))
  | group {ks : List Token.Kind} {e : Expr} :
      Derives .expr ks e →
      Derives .primary (.symbol .openParen :: (ks ++ [.symbol .closeParen])) (.group e)

theorem Derives.keyword (k : Keyword) : Phrase.primary.Derives [.keyword k] (.literal k.value) := by
  cases k with
  | null => exact .null
  | undefined => exact .undefined
  | true => exact .true
  | false => exact .false

/-- The level of the loosest operator in a phrase of a class. -/
def level : Phrase → Level
  | expr | orExpr => .or
  | andExpr => .and
  | equality => .equality
  | coalesce => .coalesce
  | unary => .not
  | access => .access
  | primary => .primary

@[simp] theorem level_chain (op : Connective) : op.chain.level = op.level := by
  cases op <;> rfl

@[simp] theorem level_operand (op : Connective) : op.operand.level = op.level.next := by
  cases op <;> rfl

/-- The class that has every phrase of a given class as a phrase of its own. The first two
classes have the same phrases. -/
def looser : Phrase → Phrase
  | expr => .orExpr
  | orExpr => .expr
  | andExpr => .orExpr
  | equality => .andExpr
  | coalesce => .equality
  | unary => .coalesce
  | access => .unary
  | primary => .access

/-- The only rule for an expression is that it is a chain of disjunctions. -/
theorem Derives.orExpr_of_expr {p : Phrase} {ks : List Token.Kind} {e : Expr}
    (h : p.Derives ks e) (isExpr : p = .expr) : Phrase.orExpr.Derives ks e := by
  cases h with
  | expr h => exact h
  | first op _ => cases op <;> contradiction
  | link op _ _ => cases op <;> contradiction
  | not | plain | base | field | number | string | name | group => contradiction
  | null | undefined | true | false => contradiction

theorem Derives.looser {p : Phrase} {ks : List Token.Kind} {e : Expr} (h : p.Derives ks e) :
    p.looser.Derives ks e := by
  cases p with
  | expr => exact h.orExpr_of_expr rfl
  | orExpr => exact .expr h
  | andExpr => exact .first .or h
  | equality => exact .first .and h
  | coalesce => exact .first .equals h
  | unary => exact .first .coalesce h
  | access => exact .plain h
  | primary => exact .base h

theorem exists_iterate_looser (p q : Phrase) :
    q.level.rank ≤ p.level.rank → ∃ n < 8, looser^[n] p = q := by
  cases p <;> cases q <;> decide

theorem Derives.lift {p q : Phrase} {ks : List Token.Kind} {e : Expr} (h : p.Derives ks e)
    (loose : q.level.rank ≤ p.level.rank) : q.Derives ks e := by
  obtain ⟨n, -, rfl⟩ := exists_iterate_looser p q loose
  clear loose
  induction n generalizing p with
  | zero => exact h
  | succ n ih =>
      rw [Function.iterate_succ_apply]
      exact ih h.looser

end Phrase

def Derivable (ks : List Token.Kind) : Prop :=
  ∃ e : Expr, Phrase.expr.Derives ks e

/-- The kinds with which an expression may begin. -/
def Viable (ks : List Token.Kind) : Prop :=
  ∃ more : List Token.Kind, Derivable (ks ++ more)

/-- Every expression begins with the start of one that can be read so far. -/
theorem Viable.of_append {ks : List Token.Kind} (more : List Token.Kind)
    (h : Viable (ks ++ more)) : Viable ks := by
  obtain ⟨rest, derivable⟩ := h
  exact ⟨more ++ rest, by rwa [← List.append_assoc]⟩

end PredicateLang
