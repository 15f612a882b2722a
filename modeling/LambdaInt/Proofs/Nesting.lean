import LambdaInt.Proofs.Grouping

/-!
Grouping by recursion. A call collects trees up to the end of the tokens, or, inside of a group, up
to the parenthesis that closes it; what a group holds is collected by a call of its own, and only
then it is found out whether that is nothing. Grouping in one scan comes to the same, the error
included: when the scan meets a closing parenthesis, it goes on as the calls that wait for it would.
-/

namespace LambdaInt.TokenTree

/-- What a call has collected, and the tokens that it has left. -/
structure Collected (tokens : List Token) where
  trees : List TokenTree
  rest : List Token
  length_le : rest.length ≤ tokens.length

/-- The same, of a call that began further to the left. -/
def Collected.widen {tokens before : List Token} (h : tokens.length ≤ before.length)
    (collected : Collected tokens) : Collected before :=
  ⟨collected.trees, collected.rest, Nat.le_trans collected.length_le h⟩

/-- Collects trees behind those that are there; `nested` says whether a group is open. -/
def collect (nested : Bool) (trees : List TokenTree) :
    (tokens : List Token) → Except SyntaxError (Collected tokens)
  | [] => if nested then .error .missingClosingParen else .ok ⟨trees, [], Nat.le_refl 0⟩
  | token :: tokens =>
      match token.kind with
      | .leftParen => do
          let inner ← collect true [] tokens
          if inner.trees.isEmpty then .error .emptyGroup
          else
            let outer ← collect nested (trees ++ [group inner.trees]) inner.rest
            return outer.widen (Nat.le_succ_of_le inner.length_le)
      | .rightParen =>
          if nested then .ok ⟨trees, tokens, Nat.le_succ _⟩ else .error .unexpectedClosingParen
      | _ => do
          let outer ← collect nested (trees ++ [leaf token]) tokens
          return outer.widen (Nat.le_succ _)
termination_by tokens => tokens.length
decreasing_by
  · exact Nat.lt_succ_self _
  · exact Nat.lt_succ_of_le inner.length_le
  · exact Nat.lt_succ_self _

/-- The forest of a list of tokens, group by group. -/
def nest (tokens : List Token) : Except SyntaxError (List TokenTree) :=
  (collect false [] tokens).map Collected.trees

/-- How grouping goes on behind a call: nothing is left to do, or a group ends here. -/
def resume : List (List TokenTree) → List TokenTree → List Token →
    Except SyntaxError (List TokenTree)
  | [], trees, _ => .ok trees
  | before :: enclosing, trees, rest =>
      if trees.isEmpty then .error .emptyGroup else groupFrom enclosing (group trees :: before) rest

theorem groupFrom_eq_collect (enclosing : List (List TokenTree)) (current : List TokenTree) :
    (tokens : List Token) →
    groupFrom enclosing current tokens = (do
      let collected ← collect (!enclosing.isEmpty) current.reverse tokens
      resume enclosing collected.trees collected.rest)
  | [] => by
      rw [collect]
      cases enclosing <;> rfl
  | token :: tokens => by
      have hopen := groupFrom_eq_collect (current :: enclosing) [] tokens
      have hleaf := groupFrom_eq_collect enclosing (leaf token :: current) tokens
      obtain ⟨kind, text⟩ := token
      rw [collect]
      cases kind with
      | leftParen =>
          refine hopen.trans ?_
          simp only [bind_assoc]
          refine bind_congr fun inner => ?_
          rw [resume]
          split
          · rfl
          · have hlength := inner.length_le
            rw [groupFrom_eq_collect enclosing (group inner.trees :: current) inner.rest,
              List.reverse_cons]
            simp only [bind_assoc, pure_bind]
            rfl
      | rightParen =>
          cases enclosing with
          | nil => rfl
          | cons before enclosing =>
              cases current with
              | nil => rfl
              | cons last others =>
                  change _ = resume (before :: enclosing) (last :: others).reverse tokens
                  rw [resume, if_neg (by simp)]
                  rfl
      | _ =>
          refine hleaf.trans ?_
          rw [List.reverse_cons]
          simp only [bind_assoc, pure_bind]
          rfl
termination_by tokens => tokens.length

/-- The forest of a list of tokens is the same, whichever way the tokens are grouped. -/
theorem ofTokens_eq_nest (tokens : List Token) : ofTokens tokens = nest tokens := by
  calc
    ofTokens tokens
      = collect false [] tokens >>= fun collected => .ok collected.trees :=
      groupFrom_eq_collect [] [] tokens
    _ = nest tokens := by
      rw [nest]
      cases collect false [] tokens <;> rfl

end LambdaInt.TokenTree
