import LambdaInt.TokenTree

/-!
Grouping is the inverse of writing out. The tokens of proper trees are grouped into these trees
again, and whatever tokens are grouped into are proper trees with these tokens. Grouping does not
look at the text of a parenthesis, so tokens are compared up to that.
-/

namespace LambdaInt

/-- The token, with the usual text if it is a parenthesis. -/
def Token.canonical (token : Token) : Token :=
  match token.kind with
  | .leftParen => ⟨.leftParen, "("⟩
  | .rightParen => ⟨.rightParen, ")"⟩
  | _ => token

namespace Token

@[simp] theorem kind_canonical (token : Token) : token.canonical.kind = token.kind := by
  unfold canonical
  split <;> simp_all

theorem canonical_of_leftParen {token : Token} (h : token.kind = .leftParen) :
    token.canonical = ⟨.leftParen, "("⟩ := by
  simp only [canonical, h]

theorem canonical_of_rightParen {token : Token} (h : token.kind = .rightParen) :
    token.canonical = ⟨.rightParen, ")"⟩ := by
  simp only [canonical, h]

theorem canonical_of_ne {token : Token} (hleft : token.kind ≠ .leftParen)
    (hright : token.kind ≠ .rightParen) : token.canonical = token := by
  unfold canonical
  split
  · contradiction
  · contradiction
  · rfl

end Token

namespace TokenTree

mutual

/-- No leaf is a parenthesis and no group is empty. -/
def Proper : TokenTree → Prop
  | leaf token => token.kind ≠ .leftParen ∧ token.kind ≠ .rightParen
  | group trees => trees ≠ [] ∧ ProperAll trees

def ProperAll : List TokenTree → Prop
  | [] => True
  | tree :: trees => Proper tree ∧ ProperAll trees

end

theorem groupFrom_leaf {enclosing : List (List TokenTree)} {current : List TokenTree}
    {token : Token} (h : (leaf token).Proper) (rest : List Token) :
    groupFrom enclosing current (token :: rest) =
      groupFrom enclosing (leaf token :: current) rest := by
  obtain ⟨kind, text⟩ := token
  cases kind with
  | leftParen => exact absurd rfl h.1
  | rightParen => exact absurd rfl h.2
  | _ => rfl

mutual

/-- Grouping the tokens of a tree puts the tree behind those that are there. -/
theorem groupFrom_tokens : (tree : TokenTree) → tree.Proper →
    ∀ (enclosing : List (List TokenTree)) (current : List TokenTree) (rest : List Token),
      groupFrom enclosing current (tree.tokens ++ rest) =
        groupFrom enclosing (tree :: current) rest
  | leaf token, h, enclosing, current, rest => by
      rw [tokens, List.singleton_append, groupFrom_leaf h]
  | group trees, ⟨ne, h⟩, enclosing, current, rest => by
      rw [tokens, List.cons_append, List.cons_append, List.append_assoc]
      simp only [groupFrom]
      rw [groupFrom_tokensAll trees h, List.append_nil]
      cases hrev : trees.reverse with
      | nil => exact absurd (List.reverse_eq_nil_iff.1 hrev) ne
      | cons last others =>
          have htrees : (last :: others).reverse = trees := by rw [← hrev, List.reverse_reverse]
          simp only [List.singleton_append, groupFrom, htrees]

theorem groupFrom_tokensAll : (trees : List TokenTree) → ProperAll trees →
    ∀ (enclosing : List (List TokenTree)) (current : List TokenTree) (rest : List Token),
      groupFrom enclosing current (tokensAll trees ++ rest) =
        groupFrom enclosing (trees.reverse ++ current) rest
  | [], _, _, _, _ => rfl
  | tree :: trees, ⟨htree, htrees⟩, enclosing, current, rest => by
      rw [tokensAll, List.append_assoc, groupFrom_tokens tree htree,
        groupFrom_tokensAll trees htrees, List.reverse_cons, List.append_assoc]
      rfl

end

theorem ofTokens_tokensAll {trees : List TokenTree} (h : ProperAll trees) :
    ofTokens (tokensAll trees) = .ok trees := by
  have hgroup := groupFrom_tokensAll trees h [] [] []
  rw [List.append_nil, List.append_nil] at hgroup
  rw [ofTokens, hgroup, groupFrom, List.reverse_reverse]

section
variable {motive : List (List TokenTree) → List TokenTree → List Token → Prop}
  (leaf : ∀ {enclosing current token rest}, (leaf token).Proper →
    motive enclosing current (token :: rest) → motive enclosing (leaf token :: current) rest)
  (opens : ∀ {enclosing current token rest}, token.kind = .leftParen →
    motive enclosing current (token :: rest) → motive (current :: enclosing) [] rest)
  (closes : ∀ {before enclosing current token rest}, token.kind = .rightParen → current ≠ [] →
    motive (before :: enclosing) current (token :: rest) →
      motive enclosing (group current.reverse :: before) rest)
include leaf opens closes

/-- What every token preserves holds of the trees when all tokens are grouped. -/
theorem groupFrom_keeps {tokens : List Token} {enclosing : List (List TokenTree)}
    {current trees : List TokenTree} (h : groupFrom enclosing current tokens = .ok trees)
    (hinv : motive enclosing current tokens) : motive [] trees.reverse [] := by
  induction tokens generalizing enclosing current with
  | nil =>
      cases enclosing with
      | nil =>
          cases h
          rwa [List.reverse_reverse]
      | cons before enclosing => cases h
  | cons token tokens ih =>
      obtain ⟨kind, text⟩ := token
      cases kind with
      | leftParen => exact ih h (opens rfl hinv)
      | rightParen =>
          cases enclosing with
          | nil => cases h
          | cons before enclosing =>
              cases current with
              | nil => cases h
              | cons last others => exact ih h (closes rfl (List.cons_ne_nil _ _) hinv)
      | _ => exact ih h (leaf ⟨TokenKind.noConfusion, TokenKind.noConfusion⟩ hinv)

end

theorem properAll_iff {trees : List TokenTree} : ProperAll trees ↔ ∀ tree ∈ trees, tree.Proper := by
  induction trees with
  | nil => simp [ProperAll]
  | cons tree trees ih => simp [ProperAll, ih]

theorem properAll_reverse {trees : List TokenTree} : ProperAll trees.reverse ↔ ProperAll trees := by
  simp only [properAll_iff, List.mem_reverse]

theorem properAll_of_ofTokens {tokens : List Token} {trees : List TokenTree}
    (h : ofTokens tokens = .ok trees) : ProperAll trees := by
  have hkeeps := groupFrom_keeps
    (motive := fun enclosing current _ =>
      (∀ before ∈ enclosing, ProperAll before) ∧ ProperAll current)
    ?leaf ?opens ?closes h ?start
  case leaf =>
    rintro enclosing current token rest hproper ⟨henclosing, hcurrent⟩
    exact ⟨henclosing, hproper, hcurrent⟩
  case opens =>
    rintro enclosing current token rest _ ⟨henclosing, hcurrent⟩
    exact ⟨List.forall_mem_cons.2 ⟨hcurrent, henclosing⟩, trivial⟩
  case closes =>
    rintro before enclosing current token rest _ ne ⟨henclosing, hcurrent⟩
    obtain ⟨hbefore, henclosing⟩ := List.forall_mem_cons.1 henclosing
    exact ⟨henclosing, ⟨mt List.reverse_eq_nil_iff.1 ne, properAll_reverse.2 hcurrent⟩, hbefore⟩
  case start => exact ⟨nofun, trivial⟩
  exact properAll_reverse.1 hkeeps.2

/-- The tokens of what stands before the place that grouping has reached. -/
def opened : List (List TokenTree) → List TokenTree → List Token
  | [], current => tokensAll current.reverse
  | before :: enclosing, current =>
      opened enclosing before ++ ⟨.leftParen, "("⟩ :: tokensAll current.reverse

theorem opened_cons (enclosing : List (List TokenTree)) (tree : TokenTree)
    (current : List TokenTree) :
    opened enclosing (tree :: current) = opened enclosing current ++ tree.tokens := by
  cases enclosing <;> simp [opened, tokensAll_append, tokensAll]

theorem tokensAll_of_ofTokens {tokens : List Token} {trees : List TokenTree}
    (h : ofTokens tokens = .ok trees) : tokensAll trees = tokens.map Token.canonical := by
  have hkeeps := groupFrom_keeps
    (motive := fun enclosing current rest =>
      opened enclosing current ++ rest.map Token.canonical = tokens.map Token.canonical)
    ?leaf ?opens ?closes h ?start
  case leaf =>
    intro enclosing current token rest hproper hsame
    rw [← hsame, opened_cons, List.map_cons, Token.canonical_of_ne hproper.1 hproper.2,
      List.append_assoc, TokenTree.tokens, List.singleton_append]
  case opens =>
    intro enclosing current token rest hkind hsame
    rw [← hsame, opened, List.map_cons, Token.canonical_of_leftParen hkind, List.append_assoc]
    rfl
  case closes =>
    intro before enclosing current token rest hkind _ hsame
    rw [← hsame, opened_cons, opened, List.map_cons, Token.canonical_of_rightParen hkind,
      TokenTree.tokens]
    simp
  case start => rfl
  simpa [opened] using hkeeps

theorem groupFrom_canonical (enclosing : List (List TokenTree)) (current : List TokenTree)
    (tokens : List Token) :
    groupFrom enclosing current (tokens.map Token.canonical) =
      groupFrom enclosing current tokens := by
  induction tokens generalizing enclosing current with
  | nil => rfl
  | cons token tokens ih =>
      obtain ⟨kind, text⟩ := token
      cases kind with
      | rightParen =>
          cases enclosing with
          | nil => rfl
          | cons before enclosing =>
              cases current with
              | nil => rfl
              | cons last others => exact ih _ _
      | _ => exact ih _ _

/-- The tokens that are grouped into the trees: those of the trees, when these are proper. -/
theorem ofTokens_eq_ok_iff {tokens : List Token} {trees : List TokenTree} :
    ofTokens tokens = .ok trees ↔
      ProperAll trees ∧ tokensAll trees = tokens.map Token.canonical := by
  constructor
  · intro h
    exact ⟨properAll_of_ofTokens h, tokensAll_of_ofTokens h⟩
  · rintro ⟨hproper, htokens⟩
    rw [ofTokens, ← groupFrom_canonical, ← htokens]
    exact ofTokens_tokensAll hproper

end TokenTree
end LambdaInt
