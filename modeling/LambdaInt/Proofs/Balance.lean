import LambdaInt.Proofs.Grouping
import Mathlib

/-!
What goes wrong in grouping. A scan that only counts how many groups are open tells it as well: the
first closing parenthesis that closes no group or a group with nothing in it, or else the end of the
tokens while groups are open. The trees are not looked at; grouping keeps them, and the two go
together since as many rows of trees wait as the scan has counted, and the innermost row is empty
just behind an opening parenthesis.
-/

namespace LambdaInt

theorem Token.canonical_of_text {token : Token} (hleft : token.kind = .leftParen → token.text = "(")
    (hright : token.kind = .rightParen → token.text = ")") : token.canonical = token := by
  obtain ⟨kind, text⟩ := token
  cases kind with
  | leftParen => rw [canonical_of_leftParen rfl, ← hleft rfl]
  | rightParen => rw [canonical_of_rightParen rfl, ← hright rfl]
  | _ => rfl

namespace TokenTree

/-- How many groups the tokens open beyond those that they close. -/
def depth (tokens : List Token) : Int :=
  tokens.countP (fun token => token.kind = .leftParen) -
    tokens.countP (fun token => token.kind = .rightParen)

/-- The last of the tokens opens a group. -/
def BehindOpening (tokens : List Token) : Prop :=
  ∃ token ∈ tokens.getLast?, token.kind = .leftParen

/-- The token is an error behind the tokens `before`. -/
inductive Event (before : List Token) (token : Token) : SyntaxError → Prop
  | unexpected (closes : token.kind = .rightParen) (outside : depth before = 0) :
      Event before token .unexpectedClosingParen
  | empty (closes : token.kind = .rightParen) (opened : BehindOpening before) :
      Event before token .emptyGroup

/-- No token is an error behind those before it. -/
def Uneventful (tokens : List Token) : Prop :=
  ∀ before token after, tokens = before ++ token :: after → ∀ cause, ¬ Event before token cause

/-- The first token that is an error is one for this cause. -/
def FirstEvent (tokens : List Token) (cause : SyntaxError) : Prop :=
  ∃ before token after, tokens = before ++ token :: after ∧ Event before token cause ∧
    Uneventful before

theorem uneventful_nil : Uneventful [] :=
  fun _ _ _ h => absurd h.symm (List.append_ne_nil_of_right_ne_nil _ (List.cons_ne_nil _ _))

theorem uneventful_concat_iff {tokens : List Token} {token : Token} :
    Uneventful (tokens ++ [token]) ↔ Uneventful tokens ∧ ∀ cause, ¬ Event tokens token cause := by
  constructor
  · intro h
    refine ⟨fun before other after heq => h before other (after ++ [token]) ?_, h _ _ [] rfl⟩
    rw [heq, List.append_assoc, List.cons_append]
  · rintro ⟨htokens, htoken⟩ before other after heq
    cases after using List.reverseRecOn with
    | nil =>
        obtain ⟨rfl, hsame⟩ := List.append_inj' heq rfl
        cases hsame
        exact htoken
    | append_singleton after last =>
        rw [← List.cons_append, ← List.append_assoc] at heq
        exact htokens _ _ _ (List.append_inj' heq rfl).1

theorem FirstEvent.append {tokens : List Token} {cause : SyntaxError} (h : FirstEvent tokens cause)
    (more : List Token) : FirstEvent (tokens ++ more) cause := by
  obtain ⟨before, token, after, rfl, event, first⟩ := h
  exact ⟨before, token, after ++ more, by simp, event, first⟩

theorem FirstEvent.ne_missing {tokens : List Token} {cause : SyntaxError}
    (h : FirstEvent tokens cause) : cause ≠ .missingClosingParen := by
  obtain ⟨before, token, after, -, event, -⟩ := h
  cases event <;> exact SyntaxError.noConfusion

/-- If any token is an error, one of them is the first. -/
theorem exists_firstEvent {tokens : List Token} (h : ¬ Uneventful tokens) :
    ∃ cause, FirstEvent tokens cause := by
  induction tokens using List.reverseRecOn with
  | nil => exact absurd uneventful_nil h
  | append_singleton tokens token ih =>
      by_cases htokens : Uneventful tokens
      · rw [uneventful_concat_iff, not_and] at h
        obtain ⟨cause, hcause⟩ := not_forall.1 (h htokens)
        exact ⟨cause, tokens, token, [], rfl, not_not.1 hcause, htokens⟩
      · obtain ⟨cause, hcause⟩ := ih htokens
        exact ⟨cause, hcause.append [token]⟩

theorem depth_concat (tokens : List Token) (token : Token) :
    depth (tokens ++ [token]) = depth tokens + depth [token] := by
  simp only [depth, List.countP_append]
  omega

theorem behindOpening_concat {tokens : List Token} {token : Token} :
    BehindOpening (tokens ++ [token]) ↔ token.kind = .leftParen := by
  simp [BehindOpening]

theorem groupFrom_leftParen {token : Token} (h : token.kind = .leftParen)
    (enclosing : List (List TokenTree)) (current : List TokenTree) (rest : List Token) :
    groupFrom enclosing current (token :: rest) = groupFrom (current :: enclosing) [] rest := by
  obtain ⟨kind, text⟩ := token
  cases h
  rfl

theorem groupFrom_rightParen {token : Token} (h : token.kind = .rightParen)
    (enclosing : List (List TokenTree)) (current : List TokenTree) (rest : List Token) :
    groupFrom enclosing current (token :: rest) =
      match enclosing, current with
      | [], _ => .error .unexpectedClosingParen
      | _ :: _, [] => .error .emptyGroup
      | before :: enclosing, current =>
          groupFrom enclosing (group current.reverse :: before) rest := by
  obtain ⟨kind, text⟩ := token
  cases h
  rfl

/-- Behind the tokens, grouping is at these rows of trees. -/
structure Reached (tokens : List Token) (enclosing : List (List TokenTree))
    (current : List TokenTree) : Prop where
  groups : ∀ rest, ofTokens (tokens ++ rest) = groupFrom enclosing current rest
  depth_eq : depth tokens = enclosing.length
  behindOpening_iff : BehindOpening tokens ↔ enclosing ≠ [] ∧ current = []

namespace Reached

theorem start : Reached [] [] [] where
  groups _ := rfl
  depth_eq := rfl
  behindOpening_iff := by simp [BehindOpening]

section
variable {tokens : List Token} {token : Token} {enclosing : List (List TokenTree)}
  {current : List TokenTree} {before : List TokenTree}

theorem groups_cons (h : Reached tokens enclosing current) (rest : List Token) :
    ofTokens ((tokens ++ [token]) ++ rest) = groupFrom enclosing current (token :: rest) := by
  rw [List.append_assoc, h.groups, List.singleton_append]

theorem leaf (h : Reached tokens enclosing current) (hproper : (leaf token).Proper) :
    Reached (tokens ++ [token]) enclosing (.leaf token :: current) where
  groups rest := by rw [h.groups_cons, groupFrom_leaf hproper]
  depth_eq := by
    have hzero : depth [token] = 0 := by simp [depth, hproper.1, hproper.2]
    rw [depth_concat, hzero, h.depth_eq, Int.add_zero]
  behindOpening_iff := by simp [behindOpening_concat, hproper.1]

theorem opens (h : Reached tokens enclosing current) (hkind : token.kind = .leftParen) :
    Reached (tokens ++ [token]) (current :: enclosing) [] where
  groups rest := by rw [h.groups_cons, groupFrom_leftParen hkind]
  depth_eq := by
    have hone : depth [token] = 1 := by simp [depth, hkind]
    rw [depth_concat, hone, h.depth_eq]
    rfl
  behindOpening_iff := by simp [behindOpening_concat, hkind]

theorem closes (h : Reached tokens (before :: enclosing) current) (hne : current ≠ [])
    (hkind : token.kind = .rightParen) :
    Reached (tokens ++ [token]) enclosing (group current.reverse :: before) where
  groups rest := by
    rw [h.groups_cons, groupFrom_rightParen hkind]
    cases current with
    | nil => exact absurd rfl hne
    | cons last others => rfl
  depth_eq := by
    have hone : depth [token] = -1 := by simp [depth, hkind]
    rw [depth_concat, hone, h.depth_eq, List.length_cons]
    omega
  behindOpening_iff := by simp [behindOpening_concat, hkind]

end

/-- A token that is an error for the scan is the error of grouping. -/
theorem ofTokens_of_event {before after : List Token} {token : Token} {cause : SyntaxError}
    {enclosing : List (List TokenTree)} {current : List TokenTree}
    (h : Reached before enclosing current) (event : Event before token cause) :
    ofTokens (before ++ token :: after) = .error cause := by
  rw [h.groups]
  cases event with
  | unexpected closes outside =>
      have hnone : enclosing = [] := by
        rw [← List.length_eq_zero_iff]
        exact Int.ofNat_eq_zero.1 (h.depth_eq ▸ outside)
      rw [groupFrom_rightParen closes, hnone]
  | empty closes opened =>
      obtain ⟨hopen, rfl⟩ := h.behindOpening_iff.1 opened
      cases enclosing with
      | nil => exact absurd rfl hopen
      | cons waiting enclosing => rw [groupFrom_rightParen closes]

end Reached

/-- Without an error, grouping comes through all the tokens. -/
theorem exists_reached {tokens : List Token} (h : Uneventful tokens) :
    ∃ enclosing current, Reached tokens enclosing current := by
  induction tokens using List.reverseRecOn with
  | nil => exact ⟨[], [], .start⟩
  | append_singleton tokens token ih =>
      obtain ⟨htokens, htoken⟩ := uneventful_concat_iff.1 h
      obtain ⟨enclosing, current, reached⟩ := ih htokens
      by_cases hleft : token.kind = .leftParen
      · exact ⟨_, _, reached.opens hleft⟩
      · by_cases hright : token.kind = .rightParen
        · cases enclosing with
          | nil => exact absurd (.unexpected hright reached.depth_eq) (htoken _)
          | cons before enclosing =>
              have hne : current ≠ [] := fun hempty =>
                htoken _ (.empty hright
                  (reached.behindOpening_iff.2 ⟨List.cons_ne_nil _ _, hempty⟩))
              exact ⟨_, _, reached.closes hne hright⟩
        · exact ⟨_, _, reached.leaf ⟨hleft, hright⟩⟩

theorem ofTokens_of_firstEvent {tokens : List Token} {cause : SyntaxError}
    (h : FirstEvent tokens cause) : ofTokens tokens = .error cause := by
  obtain ⟨before, token, after, rfl, event, first⟩ := h
  obtain ⟨enclosing, current, reached⟩ := exists_reached first
  exact reached.ofTokens_of_event event

/-- Without an error before the end, there are trees unless groups are open at the end. -/
theorem ofTokens_of_uneventful {tokens : List Token} (h : Uneventful tokens) :
    (0 < depth tokens ∧ ofTokens tokens = .error .missingClosingParen) ∨
      (depth tokens = 0 ∧ ∃ trees, ofTokens tokens = .ok trees) := by
  obtain ⟨enclosing, current, reached⟩ := exists_reached h
  have hgroups := reached.groups []
  rw [List.append_nil] at hgroups
  rw [hgroups, reached.depth_eq]
  cases enclosing with
  | nil => exact .inr ⟨rfl, _, rfl⟩
  | cons before enclosing => exact .inl ⟨Int.natCast_pos.2 (Nat.succ_pos _), rfl⟩

theorem firstEvent_of_ofTokens {tokens : List Token} {cause : SyntaxError}
    (hcause : cause ≠ .missingClosingParen) (h : ofTokens tokens = .error cause) :
    FirstEvent tokens cause := by
  by_cases huneventful : Uneventful tokens
  · rcases ofTokens_of_uneventful huneventful with ⟨-, hmissing⟩ | ⟨-, trees, htrees⟩
    · cases hmissing.symm.trans h
      exact absurd rfl hcause
    · cases htrees.symm.trans h
  · obtain ⟨first, hfirst⟩ := exists_firstEvent huneventful
    cases (ofTokens_of_firstEvent hfirst).symm.trans h
    exact hfirst

theorem ofTokens_eq_missing_iff {tokens : List Token} :
    ofTokens tokens = .error .missingClosingParen ↔ Uneventful tokens ∧ 0 < depth tokens := by
  constructor
  · intro h
    by_cases huneventful : Uneventful tokens
    · rcases ofTokens_of_uneventful huneventful with ⟨hdepth, -⟩ | ⟨-, trees, htrees⟩
      · exact ⟨huneventful, hdepth⟩
      · cases htrees.symm.trans h
    · obtain ⟨cause, first⟩ := exists_firstEvent huneventful
      cases (ofTokens_of_firstEvent first).symm.trans h
      exact absurd rfl first.ne_missing
  · rintro ⟨huneventful, hdepth⟩
    rcases ofTokens_of_uneventful huneventful with ⟨-, hmissing⟩ | ⟨hzero, -⟩
    · exact hmissing
    · omega

/-- For tokens whose parentheses have their usual text: trees come out of grouping just if they are
proper and are written with these tokens, so grouping undoes the writing of proper trees; and when
grouping fails, it is at the first token that is an error for the scan and for that token's cause,
or else for a missing parenthesis, if no token is an error and groups are open at the end. -/
theorem grouping_exact {tokens : List Token}
    (hleft : ∀ token ∈ tokens, token.kind = .leftParen → token.text = "(")
    (hright : ∀ token ∈ tokens, token.kind = .rightParen → token.text = ")") :
    (∀ trees, ofTokens tokens = .ok trees ↔ ProperAll trees ∧ tokensAll trees = tokens) ∧
    (∀ trees, ProperAll trees → ofTokens (tokensAll trees) = .ok trees) ∧
    (∀ cause, cause ≠ .missingClosingParen →
      (ofTokens tokens = .error cause ↔ FirstEvent tokens cause)) ∧
    (ofTokens tokens = .error .missingClosingParen ↔ Uneventful tokens ∧ 0 < depth tokens) := by
  have hcanonical : tokens.map Token.canonical = tokens := by
    refine (List.map_congr_left fun token htoken => ?_).trans tokens.map_id
    exact Token.canonical_of_text (hleft token htoken) (hright token htoken)
  refine ⟨fun trees => ?_, fun trees => ofTokens_tokensAll, fun cause hcause => ?_,
    ofTokens_eq_missing_iff⟩
  · rw [ofTokens_eq_ok_iff, hcanonical]
  · exact ⟨firstEvent_of_ofTokens hcause, ofTokens_of_firstEvent⟩

/-- The empty group is reported, before the parenthesis that closes no group and the one that is not
closed. -/
theorem grouping_exact_empty_first :
    ofTokens (Token.scan "(a (b)) ()) (") = .error .emptyGroup ∧
    FirstEvent (Token.scan "(a (b)) ()) (") .emptyGroup ∧
    ¬ (Uneventful (Token.scan "(a (b)) ()) (") ∧ 0 < depth (Token.scan "(a (b)) ()) (")) ∧
    ofTokens (tokensAll [group [leaf ⟨.name, "a"⟩, group [leaf ⟨.name, "b"⟩]]]) =
      .ok [group [leaf ⟨.name, "a"⟩, group [leaf ⟨.name, "b"⟩]]] := by
  have hleft :
      ∀ token ∈ Token.scan "(a (b)) ()) (", token.kind = .leftParen → token.text = "(" := by
    decide +kernel
  have hright :
      ∀ token ∈ Token.scan "(a (b)) ()) (", token.kind = .rightParen → token.text = ")" := by
    decide +kernel
  obtain ⟨-, hwritten, hevent, hmissing⟩ := grouping_exact hleft hright
  have herror : ofTokens (Token.scan "(a (b)) ()) (") = .error .emptyGroup := by cbv
  refine ⟨herror, (hevent .emptyGroup SyntaxError.noConfusion).1 herror, fun h => ?_, hwritten _ ?_⟩
  · cases herror.symm.trans (hmissing.2 h)
  · simp [ProperAll, Proper]

end TokenTree
end LambdaInt
