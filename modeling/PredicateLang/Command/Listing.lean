import PredicateLang.Expr.Reader

/-!
# Listings

Two views of an expression for its author: its tokens, one on a line, and its tree, as the
fully parenthesized text.
-/

namespace PredicateLang

def alignRight (width : Nat) (text : String) : String :=
  .ofList (List.replicate (width - text.length) ' ' ++ text.toList)

def Token.line (t : Token) : String :=
  alignRight 4 (natText t.position) ++ "  " ++ t.kind.text ++ "\n"

/-- The lines of a stream of tokens. Without all of its tokens there is no listing. -/
def linesOfItems : List ScanItem → Except ScanError String
  | [] => .ok ""
  | .ok token :: items => (linesOfItems items).map (token.line ++ ·)
  | .error e :: _ => .error e

def tokenListing (source : String) : Except ReadError String :=
  (linesOfItems (scan source)).mapError .scan

def treeListing (source : String) : Except ReadError String :=
  (Expr.ofText source).map Expr.text

end PredicateLang
