import LambdaInt.Proofs.Parsing

/-!
Stages of reading a line. Before every token of a line one is at one of seven stages, and the stage
decides which tokens may come next. How many groups are open is not kept, so the stages say too
little to accept a line; but every line of the grammar goes through them, by induction on its
derivation. A token that is refused at the stage reached is therefore in no line that begins so.
-/

namespace LambdaInt.Grammar

/-- The tokens begin a line of the grammar. -/
def Viable (tokens : List Token) : Prop :=
  ∃ rest s, IsStatement (tokens ++ rest) s

/-- Behind an atom one is at `row`; the other stages are named for what they wait for. -/
inductive Stage
  | line
  | definedName
  | equals
  | term
  | parameter
  | dot
  | row
  deriving DecidableEq

namespace Stage

def afterAtom (token : Token) : Option Stage :=
  match token.kind with
  | .leftParen => some term
  | _ => if token.atom.isOk then some row else none

/-- The stage after one more token, if the token may come here. -/
def after (stage : Stage) (token : Token) : Option Stage :=
  match stage with
  | line =>
      if token.kind = .letKeyword then some definedName
      else if token.kind = .lambda then some parameter
      else afterAtom token
  | definedName => if (TokenTree.leaf token).binder?.isSome then some equals else none
  | equals => if token.kind = .equals then some term else none
  | term => if token.kind = .lambda then some parameter else afterAtom token
  | parameter => if (TokenTree.leaf token).binder?.isSome then some dot else none
  | dot => if token.kind = .dot then some term else none
  | row => if token.kind = .rightParen then some row else afterAtom token

/-- The stage after all the tokens. -/
def through (stage : Stage) (tokens : List Token) : Option Stage :=
  tokens.foldlM after stage

@[simp] theorem through_nil (stage : Stage) : stage.through [] = some stage :=
  rfl

@[simp] theorem through_cons (stage : Stage) (token : Token) (tokens : List Token) :
    stage.through (token :: tokens) =
      (stage.after token).bind fun reached => reached.through tokens :=
  List.foldlM_cons

@[simp] theorem through_append (stage : Stage) (tokens others : List Token) :
    stage.through (tokens ++ others) =
      (stage.through tokens).bind fun reached => reached.through others :=
  List.foldlM_append

theorem kind_of_afterAtom {token : Token} {reached : Stage} (h : afterAtom token = some reached) :
    token.kind ≠ .letKeyword ∧ token.kind ≠ .lambda ∧ token.kind ≠ .rightParen := by
  obtain ⟨kind, text⟩ := token
  cases kind with
  | letKeyword | lambda | rightParen => cases h
  | _ => exact ⟨nofun, nofun, nofun⟩

/-- An atom may come here. -/
def TakesAtoms (stage : Stage) : Prop :=
  ∀ token reached, afterAtom token = some reached → stage.after token = some reached

theorem takesAtoms_line : line.TakesAtoms := fun token reached h => by
  obtain ⟨hlet, hlambda, _⟩ := kind_of_afterAtom h
  rw [after, if_neg hlet, if_neg hlambda, h]

theorem takesAtoms_term : term.TakesAtoms := fun token reached h => by
  rw [after, if_neg (kind_of_afterAtom h).2.1, h]

theorem takesAtoms_row : row.TakesAtoms := fun token reached h => by
  rw [after, if_neg (kind_of_afterAtom h).2.2, h]

theorem afterAtom_of_leftParen {token : Token} (h : token.kind = .leftParen) :
    afterAtom token = some term := by
  rw [afterAtom, h]

theorem afterAtom_of_atom {token : Token} {t : Term} (h : token.atom = .ok t) :
    afterAtom token = some row := by
  obtain ⟨kind, text⟩ := token
  cases kind with
  | name | number => simp only [afterAtom, h, Except.isOk, Except.toBool, if_true]
  | _ => cases h

theorem row_after_rightParen {token : Token} (h : token.kind = .rightParen) :
    row.after token = some row :=
  if_pos h

/-- A closing parenthesis may only come after an atom. -/
theorem after_rightParen {stage : Stage} (hstage : stage ≠ row) {token : Token}
    (h : token.kind = .rightParen) : stage.after token = none := by
  obtain ⟨kind, text⟩ := token
  obtain rfl : kind = .rightParen := h
  cases stage with
  | row => exact absurd rfl hstage
  | _ => rfl

end Stage

theorem binder?_isSome {token : Token} {x : String} (binds : Binds token x) :
    (TokenTree.leaf token).binder?.isSome = true := by
  rw [TokenTree.binder?_eq_some_iff.2 ⟨token, rfl, binds⟩]
  rfl

mutual

/-- A term, an atom or a row of atoms ends with an atom behind one. -/
theorem IsTerm.through : ∀ {tokens t}, IsTerm tokens t →
    Stage.term.through tokens = some .row ∧ Stage.line.through tokens = some .row
  | _, _, .function mark_kind binds dot_kind isTerm => by
      simp [Stage.after, mark_kind, binder?_isSome binds, dot_kind, isTerm.through.1]
  | _, _, .row atoms =>
      ⟨atoms.through Stage.takesAtoms_term, atoms.through Stage.takesAtoms_line⟩

theorem IsAtom.through : ∀ {tokens t}, IsAtom tokens t → ∀ {stage : Stage}, stage.TakesAtoms →
    stage.through tokens = some .row
  | _, _, @IsAtom.builtin token op kind name, stage, takes => by
      have hatom : token.atom = .ok (.builtin op) := by simp only [Token.atom, kind, name]
      simp [takes _ _ (Stage.afterAtom_of_atom hatom)]
  | _, _, @IsAtom.var token kind name, stage, takes => by
      have hatom : token.atom = .ok (.var token.text) := by simp only [Token.atom, kind, name]
      simp [takes _ _ (Stage.afterAtom_of_atom hatom)]
  | _, _, @IsAtom.number token value kind numeral, stage, takes => by
      have hatom : token.atom = .ok (.lit value) := by simp only [Token.atom, kind, numeral]
      simp [takes _ _ (Stage.afterAtom_of_atom hatom)]
  | _, _, .group left_kind isTerm right_kind, stage, takes => by
      simp [takes _ _ (Stage.afterAtom_of_leftParen left_kind), isTerm.through.1,
        Stage.row_after_rightParen right_kind]

theorem AreAtoms.through : ∀ {tokens ts}, AreAtoms tokens ts → ∀ {stage : Stage},
    stage.TakesAtoms → stage.through tokens = some .row
  | _, _, .one isAtom, _, takes => isAtom.through takes
  | _, _, .more isAtom atoms, stage, takes => by
      rw [Stage.through_append, isAtom.through takes]
      exact atoms.through Stage.takesAtoms_row

end

theorem IsStatement.through {tokens : List Token} {s : Statement} (h : IsStatement tokens s) :
    Stage.line.through tokens = some .row := by
  cases h with
  | define keyword_kind binds mark_kind isTerm =>
      simp [Stage.after, keyword_kind, binder?_isSome binds, mark_kind, isTerm.through.1]
  | evaluate isTerm => exact isTerm.through.2

/-- No line begins with tokens of which one is refused. -/
theorem not_viable {before after : List Token} {token : Token} {reached : Stage}
    (hthrough : Stage.line.through before = some reached) (hrefused : reached.after token = none) :
    ¬ Viable (before ++ token :: after) := by
  rintro ⟨rest, s, isStatement⟩
  have hrow := isStatement.through
  simp [hthrough, hrefused] at hrow

end LambdaInt.Grammar
