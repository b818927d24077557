import PredicateLang.Proofs.Printing.Tree

/-!
# The tokens of a tree's text

The text of a legible tree is read as the tokens of `e.reread.parenthesized`, if no plain dot
follows a finite number (`Expr.Legible.readsAs`). The induction is on the tree. Every operation
stands between parentheses, so only the text of a leaf depends on what follows it (`Followed`): a
word must not go on, and a number must not take a dot.
-/

namespace PredicateLang

def Expr.Followed (e : Expr) (rest : List Char) : Prop :=
  Stops isWordChar rest ∧
    ∀ n : Number, e = .literal (.number n) → n.isFinite = true → rest.head? ≠ some '.'

theorem Expr.Followed.nil (e : Expr) : e.Followed [] :=
  ⟨.nil, by rintro n _ _ ⟨⟩⟩

theorem Expr.Followed.cons (e : Expr) {c : Char} (stops : isWordChar c = false) (other : c ≠ '.')
    (rest : List Char) : e.Followed (c :: rest) := by
  refine ⟨.cons stops rest, ?_⟩
  rintro n _ _ same
  exact other (Option.some.inj same)

theorem stops_isNumberChar {rest : List Char} (word : Stops isWordChar rest)
    (dot : rest.head? ≠ some '.') : Stops isNumberChar rest := by
  intro c found
  have digit : c.isDigit = false := by
    have none := word c found
    simp only [isWordChar, Char.isAlphanum, Bool.or_eq_false_iff] at none
    exact none.1.2
  have other : c ≠ '.' := by
    rintro rfl
    exact dot found
  simp [isNumberChar, digit, other]

theorem Keyword.isWord_text (k : Keyword) : IsWord k.text.toList := by
  cases k <;> exact ⟨_, _, rfl, by decide, List.all_eq_true.1 (by decide)⟩

theorem Keyword.wordKind_text (k : Keyword) : Lexeme.wordKind k.text = .keyword k := by
  cases k <;> rfl

theorem Keyword.literalText_value (k : Keyword) : Expr.literalText k.value = k.text := by
  cases k <;> rfl

namespace Lexes

variable {cs rest : List Char} {ks : List Token.Kind}

theorem word_of_text {s : String} (h : IsWord s.toList) (stops : Stops isWordChar rest) :
    Lexes (s.toList ++ rest) [Lexeme.wordKind s] rest := by
  simpa using Lexes.word h stops

theorem parens (h : Lexes (cs ++ ')' :: rest) ks (')' :: rest)) :
    Lexes ('(' :: (cs ++ ')' :: rest)) (.symbol .openParen :: (ks ++ [.symbol .closeParen]))
      rest :=
  (Lexes.symbol .openParen _).trans (h.trans (Lexes.symbol .closeParen rest))

end Lexes

theorem Token.Kind.Legible.cases_number {n : Number} (h : (Token.Kind.number n).Legible) :
    (∃ k < 2 ^ 63, n = .integer (.ofNat k)) ∨ (∃ x : Magnitude, n = .real (.finite false x)) ∨
      n = .real (.infinite false) := by
  obtain ⟨run, rfl⟩ := h.number
  rcases Lexeme.cases_of_numberValue run with ⟨k, small, value⟩ | ⟨rank, value⟩
  · exact .inl ⟨k, small, value⟩
  · rw [value, Double.ofRank]
    split
    · exact .inr (.inl ⟨_, rfl⟩)
    · exact .inr (.inr rfl)

namespace Phrase.Derives

variable {ks ks' : List Token.Kind} {e left right : Expr}

theorem parens (h : Phrase.primary.Derives ks e) :
    Phrase.primary.Derives (.symbol .openParen :: (ks ++ [.symbol .closeParen])) (.group e) :=
  .group (h.lift (by decide))

theorem parens_not (h : Phrase.primary.Derives ks e) :
    Phrase.primary.Derives
      (.symbol .openParen :: ((.symbol .exclamation :: ks) ++ [.symbol .closeParen]))
      (.group (.not e)) :=
  .group (lift (.not (h.lift (by decide))) (by decide))

theorem parens_binary (op : Connective) (h : Phrase.primary.Derives ks left)
    (h' : Phrase.primary.Derives ks' right) :
    Phrase.primary.Derives
      (.symbol .openParen :: ((ks ++ .symbol op.symbol :: ks') ++ [.symbol .closeParen]))
      (.group (.binary op left right)) := by
  refine .group (lift (.link op (h.lift ?_) (h'.lift ?_)) ?_)
  all_goals cases op <;> decide

theorem parens_access (kind : Access) (s : String) (h : Phrase.primary.Derives ks e) :
    Phrase.primary.Derives
      (.symbol .openParen :: ((ks ++ [.symbol kind.symbol, .name s]) ++ [.symbol .closeParen]))
      (.group (.access kind e (.name s))) :=
  .group (lift (.field kind s (h.lift (by decide))) (by decide))

end Phrase.Derives

namespace Expr

theorem toList_text_not (operand : Expr) (rest : List Char) :
    (not operand).text.toList ++ rest =
      '(' :: (('!' :: operand.text.toList) ++ ')' :: rest) := by
  simp [text, Symbol.text, Symbol.chars]

theorem toList_text_binary (op : Connective) (left right : Expr) (rest : List Char) :
    (binary op left right).text.toList ++ rest =
      '(' :: ((left.text.toList ++ ' ' :: (op.symbol.chars ++ ' ' :: right.text.toList)) ++
        ')' :: rest) := by
  simp [text, Symbol.text]

theorem toList_text_access (kind : Access) (base field : Expr) (rest : List Char) :
    (access kind base field).text.toList ++ rest =
      '(' :: ((base.text.toList ++ (kind.symbol.chars ++ field.text.toList)) ++ ')' :: rest) := by
  simp [text, Symbol.text]

theorem toList_text_group (inner : Expr) (rest : List Char) :
    (group inner).text.toList ++ rest = '(' :: (inner.text.toList ++ ')' :: rest) := by
  simp [text]

/-- The text of a tree is that of another, whatever may follow it. -/
def ReadsAs (e tree : Expr) : Prop :=
  ∃ ks : List Token.Kind, Phrase.primary.Derives ks tree ∧
    ∀ rest : List Char, e.Followed rest → Lexes (e.text.toList ++ rest) ks rest

theorem readsAs_name {s : String} (h : (Token.Kind.name s).Legible) :
    (name s).ReadsAs (name s) := by
  obtain ⟨word, kind⟩ := h.name
  refine ⟨[.name s], .name s, fun rest follows => ?_⟩
  rw [← kind]
  exact Lexes.word_of_text word follows.1

theorem readsAs_number {n : Number} (h : (Token.Kind.number n).Legible) :
    (literal (.number n)).ReadsAs n.reread := by
  have finite (isNumber : IsNumber n.text.toList) (isFinite : n.isFinite = true) :
      ∀ rest : List Char, (literal (.number n)).Followed rest →
        Lexes (n.text.toList ++ rest) [.number (Lexeme.numberValue n.text.toList)] rest :=
    fun rest follows => Lexes.number isNumber
      (stops_isNumberChar follows.1 (follows.2 n rfl isFinite))
  rcases h.cases_number with ⟨k, small, rfl⟩ | ⟨x, rfl⟩ | rfl
  · exact ⟨_, .number _, finite (Number.text_spec_integer small).1 rfl⟩
  · exact ⟨_, .number _, finite (Double.text_spec x).1 rfl⟩
  · have word : IsWord "inf".toList := ⟨_, _, rfl, by decide, List.all_eq_true.1 (by decide)⟩
    exact ⟨_, .name _, fun rest follows => Lexes.word_of_text word follows.1⟩

theorem readsAs_string (s : String) : (literal (.string s)).ReadsAs (literal (.string s)) :=
  ⟨[.string s], .string s, fun rest _ => Lexes.quoted s rest⟩

theorem readsAs_keyword (k : Keyword) : (literal k.value).ReadsAs (literal k.value) := by
  refine ⟨[.keyword k], .keyword k, fun rest follows => ?_⟩
  rw [← k.wordKind_text, text, k.literalText_value]
  exact Lexes.word_of_text k.isWord_text follows.1

variable {e tree left right treeLeft treeRight base : Expr}

theorem ReadsAs.not (h : e.ReadsAs tree) : (not e).ReadsAs (group (not tree)) := by
  obtain ⟨ks, derives, lexes⟩ := h
  refine ⟨_, derives.parens_not, fun rest _ => ?_⟩
  rw [toList_text_not]
  exact .parens ((Lexes.symbol .exclamation _).trans (lexes _ (.cons e rfl (by decide) rest)))

theorem ReadsAs.binary (op : Connective) (hLeft : left.ReadsAs treeLeft)
    (hRight : right.ReadsAs treeRight) :
    (binary op left right).ReadsAs (group (binary op treeLeft treeRight)) := by
  obtain ⟨ksLeft, derivesLeft, lexesLeft⟩ := hLeft
  obtain ⟨ksRight, derivesRight, lexesRight⟩ := hRight
  refine ⟨_, .parens_binary op derivesLeft derivesRight, fun rest _ => ?_⟩
  rw [toList_text_binary]
  refine .parens ?_
  have toRight := lexesRight (')' :: rest) (.cons right rfl (by decide) rest)
  have toOperator := (Lexes.symbol op.symbol _).trans (.blank (c := ' ') rfl toRight)
  have toLeft := lexesLeft (' ' :: (op.symbol.chars ++ ' ' :: (right.text.toList ++ ')' :: rest)))
    (.cons left rfl (by decide) _)
  simpa using toLeft.trans (.blank rfl toOperator)

theorem ReadsAs.access {s : String} (kind : Access) (h : base.ReadsAs tree)
    (legible : (Token.Kind.name s).Legible)
    (clear : ∀ rest : List Char, base.Followed (kind.symbol.chars ++ rest)) :
    (access kind base (name s)).ReadsAs (group (access kind tree (name s))) := by
  obtain ⟨ks, derives, lexes⟩ := h
  refine ⟨_, derives.parens_access kind s, fun rest _ => ?_⟩
  rw [toList_text_access]
  refine .parens ?_
  obtain ⟨word, isName⟩ := legible.name
  have toField := Lexes.word_of_text word (show Stops isWordChar (')' :: rest) from .cons rfl rest)
  rw [isName] at toField
  have toOperator := (Lexes.symbol kind.symbol _).trans toField
  have toBase := lexes _ (clear (s.toList ++ ')' :: rest))
  simpa [text] using toBase.trans toOperator

theorem ReadsAs.group (h : e.ReadsAs tree) : (group e).ReadsAs (group tree) := by
  obtain ⟨ks, derives, lexes⟩ := h
  refine ⟨_, derives.parens, fun rest _ => ?_⟩
  rw [toList_text_group]
  exact .parens (lexes _ (.cons e rfl (by decide) rest))

theorem followed_access {kind : Access}
    (h : kind = .strict → ∀ n : Number, base = literal (.number n) → n.isFinite = false)
    (rest : List Char) : base.Followed (kind.symbol.chars ++ rest) := by
  cases kind with
  | lenient => exact .cons base rfl (by decide) _
  | strict =>
      refine ⟨.cons rfl _, ?_⟩
      intro n same finite
      rw [h rfl n same] at finite
      contradiction

theorem readsAs_literal {v : Value} (h : (literal v).Legible) :
    (literal v).ReadsAs (literal v).reread.parenthesized := by
  rcases h.cases_literal with ⟨k, rfl⟩ | ⟨n, rfl, legible⟩ | ⟨s, rfl⟩
  · have same : (literal k.value).reread.parenthesized = literal k.value := by
      cases k <;> rfl
    rw [same]
    exact readsAs_keyword k
  · have same : n.reread.parenthesized = n.reread := by
      unfold Number.reread
      split <;> rfl
    rw [reread, same]
    exact readsAs_number legible
  · exact readsAs_string s

/-- The text of a legible tree is read as the tree that it says, if no plain dot follows a finite
number. -/
theorem Legible.readsAs (h : e.Legible) (clear : e.DotsClear) :
    e.ReadsAs e.reread.parenthesized := by
  induction e with
  | name s => exact readsAs_name h
  | literal v => exact readsAs_literal h
  | not e ih => exact (ih h clear).not
  | binary op left right ihLeft ihRight =>
      obtain ⟨clearLeft, clearRight⟩ := dotsClear_binary_iff.1 clear
      exact .binary op (ihLeft h.1 clearLeft) (ihRight h.2 clearRight)
  | access kind base field ih _ =>
      obtain ⟨legible, s, rfl, isName⟩ := h
      obtain ⟨clearBase, clearDot⟩ := dotsClear_access_iff.1 clear
      exact .access kind (ih legible clearBase) isName (followed_access clearDot)
  | group e ih => exact (ih h clear).group

theorem ReadsAs.ofText {e tree : Expr} (h : e.ReadsAs tree) :
    (tree.height ≤ maxHeight → Expr.ofText e.text = .ok tree) ∧
      (maxHeight < tree.height →
        ∃ token : Token, Expr.ofText e.text = .error (.parse (.tooDeep token))) := by
  obtain ⟨ks, derives, lexes⟩ := h
  have whole := lexes [] (.nil e)
  rw [List.append_nil] at whole
  exact ofText_of_lexes whole (derives.lift (by decide))

end Expr

end PredicateLang
