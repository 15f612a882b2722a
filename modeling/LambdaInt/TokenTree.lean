import LambdaInt.Token
import LambdaInt.SyntaxError

/-!
Token trees: the tokens of a line nested by its parentheses. Grouping is one scan from left to
right with the groups that are still open, and its error is the first thing that goes wrong.
-/

namespace LambdaInt

inductive TokenTree
  | leaf (token : Token)
  | group (trees : List TokenTree)

namespace TokenTree

/-- The text by which a message refers to the tree; a group goes by the mark that opens it. -/
def text : TokenTree → String
  | leaf token => token.text
  | group _ => "("

/-- The kind of a leaf; a group has none. -/
def kind? : TokenTree → Option TokenKind
  | leaf token => some token.kind
  | group _ => none

/-- Groups the remaining tokens. `enclosing` holds what stands before each group that is still
open, innermost first, and `current` the trees of the innermost one; both are last tree first. -/
def groupFrom (enclosing : List (List TokenTree)) (current : List TokenTree) :
    List Token → Except SyntaxError (List TokenTree)
  | [] =>
      match enclosing with
      | [] => .ok current.reverse
      | _ :: _ => .error .missingClosingParen
  | token :: tokens =>
      match token.kind with
      | .leftParen => groupFrom (current :: enclosing) [] tokens
      | .rightParen =>
          match enclosing, current with
          | [], _ => .error .unexpectedClosingParen
          | _ :: _, [] => .error .emptyGroup
          | before :: enclosing, current =>
              groupFrom enclosing (group current.reverse :: before) tokens
      | _ => groupFrom enclosing (leaf token :: current) tokens

/-- The forest of a list of tokens. -/
def ofTokens (tokens : List Token) : Except SyntaxError (List TokenTree) :=
  groupFrom [] [] tokens

mutual

/-- The tokens of a tree, with the parentheses of its groups. -/
def tokens : TokenTree → List Token
  | leaf token => [token]
  | group trees => ⟨.leftParen, "("⟩ :: tokensAll trees ++ [⟨.rightParen, ")"⟩]

def tokensAll : List TokenTree → List Token
  | [] => []
  | tree :: trees => tokens tree ++ tokensAll trees

end

theorem tokensAll_append (ts us : List TokenTree) :
    tokensAll (ts ++ us) = tokensAll ts ++ tokensAll us := by
  induction ts with
  | nil => rfl
  | cons t ts ih => simp [tokensAll, ih]

end TokenTree
end LambdaInt
