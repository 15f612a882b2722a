import LambdaInt.Proofs.Stages
import LambdaInt.Proofs.Reading
import Mathlib.Order.Bounds.Defs

/-!
Which token a syntax error is about. The parser reads the trees from left to right, so what it has
read when it gives up begins some line, and the token at which it gives up is refused at the stage
reached. Both are shown together, by induction on the trees, of whatever part of a line a rule reads.
The tokens behind that part are kept in the statement, for a rule that runs out of trees in a group
gives up at the parenthesis that closes the group.
-/

namespace LambdaInt

/-- The text that the message of the error names, if it names any. -/
def SyntaxError.named? : SyntaxError → Option String
  | unexpectedClosingParen | missingClosingParen | emptyGroup => none
  | unexpectedToken text | invalidInteger text => some text
  | expected _ found => found

theorem Token.IsScanned.canonical {token : Token} (h : token.IsScanned) :
    token.canonical = token := by
  cases h with
  | mark h =>
      unfold mark? at h
      split at h <;> cases h <;> rfl
  | word ne h =>
      unfold ofWord
      split
      · rfl
      · split <;> rfl

namespace TokenTree

/-- The token with which the tree begins. -/
def first : TokenTree → Token
  | leaf token => token
  | group _ => ⟨.leftParen, "("⟩

theorem tokens_eq_first_cons (tree : TokenTree) : ∃ others, tree.tokens = tree.first :: others := by
  cases tree with
  | leaf token => exact ⟨[], rfl⟩
  | group trees => exact ⟨_, rfl⟩

theorem tokensAll_cons_eq (tree : TokenTree) (rest : List TokenTree) (more : List Token) :
    ∃ others, tokensAll (tree :: rest) ++ more = tree.first :: others := by
  obtain ⟨others, hothers⟩ := tokens_eq_first_cons tree
  exact ⟨others ++ tokensAll rest ++ more, by simp [tokensAll, hothers]⟩

theorem text_first (tree : TokenTree) : tree.first.text = tree.text := by
  cases tree <;> rfl

theorem binder?_first (tree : TokenTree) : (leaf tree.first).binder? = tree.binder? := by
  cases tree <;> rfl

theorem first_kind_ne {tree : TokenTree} {kind : TokenKind} (h : tree.kind? ≠ some kind)
    (hkind : kind ≠ .leftParen) : tree.first.kind ≠ kind := by
  cases tree with
  | leaf token => exact fun heq => h (congrArg some heq)
  | group trees => exact hkind.symm

theorem Proper.first_kind {tree : TokenTree} (h : tree.Proper) : tree.first.kind ≠ .rightParen := by
  cases tree with
  | leaf token => exact h.2
  | group trees => exact nofun

theorem spells_tokensAll {trees : List TokenTree} (h : ProperAll trees) :
    Spells trees (tokensAll trees) :=
  ofTokens_eq_ok_iff.1 (ofTokens_tokensAll h)

end TokenTree

namespace Grammar
open TokenTree Term

/-- At this stage an error that names `found` is about the first of the tokens, or about there being
none. -/
def Stage.Blames (reached : Stage) (found : Option String) : List Token → Prop
  | [] => reached ≠ .row ∧ found = none
  | token :: _ => reached.after token = none ∧
      (found = some token.text ∨ found = none ∧ token.kind = .rightParen)

/-- Some of the tokens begin what a rule derives, and the error is about the next one. -/
def Faulty {α : Type} (Derives : List Token → α → Prop) (stage : Stage) (tokens : List Token)
    (found : Option String) : Prop :=
  ∃ before after reached, tokens = before ++ after ∧ (∃ rest a, Derives (before ++ rest) a) ∧
    stage.through before = some reached ∧ reached.Blames found after

section
variable {α β : Type} {Derives : List Token → α → Prop} {Whole : List Token → β → Prop}
  {stage reached : Stage} {tokens : List Token} {found : Option String}

theorem faulty_here {rest : List Token} {a : α} (derived : Derives rest a)
    (h : stage.Blames found tokens) : Faulty Derives stage tokens found :=
  ⟨[], tokens, stage, rfl, ⟨rest, a, derived⟩, rfl, h⟩

/-- What is faulty behind some tokens is faulty with them. -/
theorem Faulty.behind {passed : List Token} (h : Faulty Derives reached tokens found)
    (hpassed : stage.through passed = some reached)
    (hwhole : ∀ inner a, Derives inner a → ∃ rest b, Whole (passed ++ inner ++ rest) b) :
    Faulty Whole stage (passed ++ tokens) found := by
  obtain ⟨before, after, last, rfl, ⟨rest, a, derived⟩, hbefore, hblames⟩ := h
  obtain ⟨others, b, whole⟩ := hwhole _ a derived
  refine ⟨passed ++ before, after, last, by simp, ⟨rest ++ others, b, by simpa using whole⟩, ?_,
    hblames⟩
  rw [Stage.through_append, hpassed]
  exact hbefore

theorem Faulty.imp (h : Faulty Derives stage tokens found)
    (hwhole : ∀ inner a, Derives inner a → ∃ b, Whole inner b) :
    Faulty Whole stage tokens found := by
  have hbehind : Faulty Whole stage ([] ++ tokens) found := by
    refine h.behind (Stage.through_nil stage) fun inner a derived => ⟨[], ?_⟩
    simpa using hwhole inner a derived
  exact hbehind

/-- Of the stage, only what it does with the first token counts. -/
theorem Faulty.of_after_eq {token : Token} (h : Faulty Derives reached (token :: tokens) found)
    (hafter : stage.after token = reached.after token) :
    Faulty Derives stage (token :: tokens) found := by
  obtain ⟨before, after, last, htokens, hderived, hbefore, hblames⟩ := h
  cases before with
  | nil =>
      cases htokens
      cases hbefore
      obtain ⟨hrefused, hnamed⟩ := hblames
      exact ⟨[], token :: tokens, stage, rfl, hderived, rfl, hafter.trans hrefused, hnamed⟩
  | cons other before =>
      cases htokens
      refine ⟨token :: before, after, last, rfl, hderived, ?_, hblames⟩
      rw [Stage.through_cons, hafter, ← Stage.through_cons]
      exact hbefore

end

/-- The tokens go on with a closing parenthesis, if they go on. -/
def Closes (tokens : List Token) : Prop :=
  ∀ token ∈ tokens.head?, token.kind = .rightParen

theorem Closes.blames {tokens : List Token} (h : Closes tokens) {stage : Stage}
    (hstage : stage ≠ .row) : stage.Blames none tokens := by
  cases tokens with
  | nil => exact ⟨hstage, rfl⟩
  | cons token tokens =>
      have hkind : token.kind = .rightParen := h token rfl
      exact ⟨Stage.after_rightParen hstage hkind, .inr ⟨rfl, hkind⟩⟩

theorem isTerm_of_isAtom {tokens : List Token} {t : Term} (h : IsAtom tokens t) : IsTerm tokens t :=
  .row (.one h)

theorem binds_x : Binds ⟨.name, "x"⟩ "x" :=
  ⟨rfl, rfl, by decide⟩

theorem isAtom_x : IsAtom [⟨.name, "x"⟩] (.var "x") :=
  .var rfl (by decide)

/-- What stands before the body of a function or of a definition: two stages, what they wait for, and
what the body makes of it. -/
structure Header {α : Type} (kind : TokenKind) (stage marked : Stage)
    (Derives : List Token → α → Prop) : Prop where
  kind_ne : kind ≠ .leftParen
  stage_ne : stage ≠ .row
  marked_ne : marked ≠ .row
  after_stage : ∀ token,
    stage.after token = if (TokenTree.leaf token).binder?.isSome then some marked else none
  after_marked : ∀ token, marked.after token = if token.kind = kind then some .term else none
  derives : ∀ {binder mark x body t}, Binds binder x → mark.kind = kind → IsTerm body t →
    ∃ a, Derives (binder :: mark :: body) a

theorem header_function {mark : Token} (h : mark.kind = .lambda) :
    Header .dot .parameter .dot fun tokens => IsTerm (mark :: tokens) where
  kind_ne := TokenKind.noConfusion
  stage_ne := Stage.noConfusion
  marked_ne := Stage.noConfusion
  after_stage _ := rfl
  after_marked _ := rfl
  derives binds dot_kind isTerm := ⟨_, .function h binds dot_kind isTerm⟩

theorem header_define {keyword : Token} (h : keyword.kind = .letKeyword) :
    Header .equals .definedName .equals fun tokens => IsStatement (keyword :: tokens) where
  kind_ne := TokenKind.noConfusion
  stage_ne := Stage.noConfusion
  marked_ne := Stage.noConfusion
  after_stage _ := rfl
  after_marked _ := rfl
  derives binds mark_kind isTerm := ⟨_, .define h binds mark_kind isTerm⟩

/-- What can be wrong with the trees of a header and its body, with what the error of it names. -/
inductive HeaderFault (kind : TokenKind) : List TokenTree → Option String → Prop
  | noBinder : HeaderFault kind [] none
  | binder {binder : TokenTree} {rest : List TokenTree} (h : binder.binder? = none) :
      HeaderFault kind (binder :: rest) (some binder.text)
  | noMark {binder : TokenTree} {x : String} (hbinder : binder.binder? = some x) :
      HeaderFault kind [binder] none
  | mark {binder mark : TokenTree} {x : String} {body : List TokenTree}
      (hbinder : binder.binder? = some x) (h : mark.kind? ≠ some kind) :
      HeaderFault kind (binder :: mark :: body) (some mark.text)
  | body {binder mark : TokenTree} {x : String} {body : List TokenTree} {e : SyntaxError}
      (hbinder : binder.binder? = some x) (hmark : mark.kind? = some kind)
      (h : ofTrees body = .error e) : HeaderFault kind (binder :: mark :: body) e.named?

theorem headerFault_of_ofHeader {α : Type} {binding : Expectation}
    {marking holding : String → Expectation} {kind : TokenKind} {make : String → Term → α}
    {trees : List TokenTree} {e : SyntaxError}
    (h : ofHeader binding marking holding kind make trees = .error e) :
    HeaderFault kind trees e.named? := by
  unfold ofHeader at h
  split at h
  · cases h
    exact .noBinder
  · split at h
    · rename_i hbinder
      cases h
      exact .binder hbinder
    · rename_i x hbinder
      split at h
      · cases h
        exact .noMark hbinder
      · split at h
        · rename_i hmark
          cases h
          exact .mark hbinder hmark
        · rename_i mark body hmark
          rw [not_ne_iff] at hmark
          split at h
          · rename_i hbody
            -- The error without a name is the one of no trees at all, but for what it expects.
            cases h
            change HeaderFault kind _ (SyntaxError.expecting .expression none).named?
            exact .body hbinder hmark (by rw [hbody]; rfl)
          · obtain h | ⟨b, hb, h⟩ := Except.bind_eq_error_iff.1 h
            · exact .body hbinder hmark h
            · cases h

theorem faulty_of_nil {e : SyntaxError} (h : ofTrees [] = .error e) {more : List Token}
    (closes : Closes more) : Faulty IsTerm .term (tokensAll [] ++ more) e.named? := by
  cases h
  exact faulty_here (isTerm_of_isAtom isAtom_x) (closes.blames Stage.noConfusion)

/-- The error is about the token where the header goes wrong, or it is that of the body. -/
theorem HeaderFault.faulty {α : Type} {kind : TokenKind} {stage marked : Stage}
    {Derives : List Token → α → Prop} {trees : List TokenTree} {found : Option String}
    (h : HeaderFault kind trees found) (header : Header kind stage marked Derives)
    {more : List Token} (closes : Closes more)
    (hbody : ∀ e, ofTrees (trees.drop 2) = .error e →
      Faulty IsTerm .term (tokensAll (trees.drop 2) ++ more) e.named?) :
    Faulty Derives stage (tokensAll trees ++ more) found := by
  have hafter {binder : Token} {x : String} (binds : Binds binder x) :
      stage.after binder = some marked := by
    rw [header.after_stage, if_pos (binder?_isSome binds)]
  have hderives {binder : Token} {x : String} (binds : Binds binder x) :
      ∃ a, Derives [binder, ⟨kind, "x"⟩, ⟨.name, "x"⟩] a :=
    header.derives binds rfl (isTerm_of_isAtom isAtom_x)
  obtain ⟨_, derived_x⟩ := hderives binds_x
  cases h with
  | noBinder => exact faulty_here derived_x (closes.blames header.stage_ne)
  | @binder binder rest h =>
      obtain ⟨others, hothers⟩ := tokensAll_cons_eq binder rest more
      rw [hothers]
      refine faulty_here derived_x ⟨?_, .inl (congrArg some (text_first binder).symm)⟩
      rw [header.after_stage, binder?_first, h]
      rfl
  | noMark hbinder =>
      obtain ⟨binder, rfl, binds⟩ := binder?_eq_some_iff.1 hbinder
      refine ⟨[binder], more, marked, rfl, ⟨_, hderives binds⟩, by simp [hafter binds], ?_⟩
      exact closes.blames header.marked_ne
  | @mark binder mark x body hbinder h =>
      obtain ⟨binder, rfl, binds⟩ := binder?_eq_some_iff.1 hbinder
      obtain ⟨others, hothers⟩ := tokensAll_cons_eq mark body more
      refine ⟨[binder], mark.first :: others, marked, ?_, ⟨_, hderives binds⟩,
        by simp [hafter binds], ?_, .inl (congrArg some (text_first mark).symm)⟩
      · rw [← hothers]
        rfl
      · rw [header.after_marked, if_neg (first_kind_ne h header.kind_ne)]
  | @body binder mark x body e hbinder hmark h =>
      obtain ⟨binder, rfl, binds⟩ := binder?_eq_some_iff.1 hbinder
      obtain ⟨mark, rfl, mark_kind⟩ := kind?_eq_some_iff.1 hmark
      have hthrough : stage.through [binder, mark] = some .term := by
        simp [hafter binds, header.after_marked, mark_kind]
      refine (hbody e h).behind hthrough fun inner t isTerm => ⟨[], ?_⟩
      simpa using header.derives binds mark_kind isTerm

/-- The rule of a function goes wrong where its header does. -/
theorem faulty_of_header {trees : List TokenTree} {e : SyntaxError}
    (h : functionOfTrees trees = .error e) {mark : Token} (mark_kind : mark.kind = .lambda)
    {more : List Token} (closes : Closes more)
    (hbody : ∀ e, ofTrees (trees.drop 2) = .error e →
      Faulty IsTerm .term (tokensAll (trees.drop 2) ++ more) e.named?) :
    Faulty (fun tokens => IsTerm (mark :: tokens)) .parameter (tokensAll trees ++ more)
      e.named? := by
  rw [functionOfTrees_eq_ofHeader] at h
  exact (headerFault_of_ofHeader h).faulty (header_function mark_kind) closes hbody

/-- A token that is no atom is refused behind one, unless it closes a group. -/
theorem blames_of_atom {token : Token} {e : SyntaxError} (h : token.atom = .error e)
    (proper : (leaf token).Proper) (more : List Token) :
    Stage.row.Blames e.named? (token :: more) := by
  have hrefused : Stage.row.after token = none := by
    rw [Stage.after, if_neg proper.2, Stage.afterAtom]
    split
    · exact absurd ‹_› proper.1
    · rw [h]
      rfl
  have hnamed : e.named? = some token.text := by
    unfold Token.atom at h
    split at h
    · split at h <;> cases h
    · split at h <;> cases h
      rfl
    · cases h
      rfl
  exact ⟨hrefused, .inl hnamed⟩

theorem argsOfTrees_cons_eq_error_iff {tree : TokenTree} {rest : List TokenTree} {e : SyntaxError} :
    argsOfTrees (tree :: rest) = .error e ↔
      ofTree tree = .error e ∨ ∃ t, ofTree tree = .ok t ∧ argsOfTrees rest = .error e := by
  have hbind : argsOfTrees (tree :: rest) = (ofTree tree).bind fun t =>
      (argsOfTrees rest).bind fun ts => .ok (t :: ts) := by
    rw [argsOfTrees]
    rfl
  simp [hbind, Except.bind_eq_error_iff]

/-- A term that is no function goes wrong where the row of its atoms does. -/
theorem ofTrees_cons_eq_error_iff {tree : TokenTree} (hkind : tree.kind? ≠ some .lambda)
    {rest : List TokenTree} {e : SyntaxError} :
    ofTrees (tree :: rest) = .error e ↔ argsOfTrees (tree :: rest) = .error e := by
  rw [ofTrees_cons hkind, argsOfTrees_cons_eq_error_iff]
  simp [Except.bind_eq_error_iff]

theorem AreAtoms.exists_isTerm {tokens : List Token} {ts : List Term} (h : AreAtoms tokens ts) :
    ∃ t, IsTerm tokens t := by
  cases h with
  | one isAtom => exact ⟨_, .row (.one isAtom)⟩
  | more isAtom atoms => exact ⟨_, .row (.more isAtom atoms)⟩

/-- A row of atoms is faulty where its first atom is, or else where the rest is. -/
theorem faulty_of_cons {tree : TokenTree} {rest : List TokenTree} {e : SyntaxError}
    {more : List Token} (proper : tree.Proper)
    (h : argsOfTrees (tree :: rest) = .error e)
    (htree : ofTree tree = .error e →
      Faulty IsAtom .row (tree.tokens ++ (tokensAll rest ++ more)) e.named?)
    (hrest : argsOfTrees rest = .error e → Faulty AreAtoms .row (tokensAll rest ++ more) e.named?) :
    Faulty AreAtoms .row (tokensAll (tree :: rest) ++ more) e.named? := by
  rw [tokensAll, List.append_assoc]
  obtain h | ⟨t, ht, h⟩ := argsOfTrees_cons_eq_error_iff.1 h
  · exact (htree h).imp fun inner t isAtom => ⟨[t], .one isAtom⟩
  · have hspells : Spells [tree] (tokensAll [tree]) := spells_tokensAll ⟨proper, trivial⟩
    rw [tokensAll, tokensAll, List.append_nil] at hspells
    have isAtom : IsAtom tree.tokens t := isAtom_of_ofTree tree _ t hspells ht
    refine (hrest h).behind (isAtom.through Stage.takesAtoms_row) fun inner ts atoms => ?_
    exact ⟨[], t :: ts, by simpa using AreAtoms.more isAtom atoms⟩

mutual

theorem faulty_of_ofTrees : (trees : List TokenTree) → ProperAll trees → ∀ e,
    ofTrees trees = .error e → ∀ more, Closes more →
      Faulty IsTerm .term (tokensAll trees ++ more) e.named?
  | [], _, _, h, _, closes => faulty_of_nil h closes
  | tree :: rest, ⟨htree, hrest⟩, e, h, more, closes => by
      by_cases hkind : tree.kind? = some .lambda
      · obtain ⟨mark, rfl, mark_kind⟩ := kind?_eq_some_iff.1 hkind
        rw [ofTrees, if_pos hkind] at h
        have hfaulty := faulty_of_functionOfTrees rest hrest e h mark mark_kind more closes
        have hthrough : Stage.term.through [mark] = some .parameter := by
          simp [Stage.after, mark_kind]
        exact hfaulty.behind hthrough fun inner t isTerm => ⟨[], t, by simpa using isTerm⟩
      · have hfaulty := faulty_of_cons htree ((ofTrees_cons_eq_error_iff hkind).1 h)
          (fun h => faulty_of_ofTree tree htree e h (tokensAll rest ++ more))
          (fun h => faulty_of_argsOfTrees rest hrest e h more)
        obtain ⟨others, hothers⟩ := tokensAll_cons_eq tree rest more
        rw [hothers] at hfaulty ⊢
        have hrow : Faulty IsTerm .row (tree.first :: others) e.named? :=
          hfaulty.imp fun inner ts atoms => atoms.exists_isTerm
        have hfirst : tree.first.kind ≠ .lambda := first_kind_ne hkind TokenKind.noConfusion
        refine hrow.of_after_eq ?_
        rw [Stage.after, Stage.after, if_neg hfirst, if_neg htree.first_kind]

theorem faulty_of_ofTree : (tree : TokenTree) → tree.Proper → ∀ e, ofTree tree = .error e →
    ∀ more, Faulty IsAtom .row (tree.tokens ++ more) e.named?
  | .leaf token, proper, e, h, more => by
      rw [ofTree] at h
      exact faulty_here isAtom_x (blames_of_atom h proper more)
  | .group trees, ⟨_, proper⟩, e, h, more => by
      rw [ofTree] at h
      have closes : Closes (⟨.rightParen, ")"⟩ :: more) := by
        rintro token hmem
        cases hmem
        rfl
      have hfaulty := faulty_of_ofTrees trees proper e h _ closes
      have hthrough : Stage.row.through [⟨.leftParen, "("⟩] = some .term := rfl
      have htokens : (group trees).tokens ++ more =
          [⟨.leftParen, "("⟩] ++ (tokensAll trees ++ ⟨.rightParen, ")"⟩ :: more) := by
        simp [TokenTree.tokens]
      rw [htokens]
      exact hfaulty.behind hthrough fun inner t isTerm =>
        ⟨[⟨.rightParen, ")"⟩], t, .group rfl isTerm rfl⟩

theorem faulty_of_argsOfTrees : (trees : List TokenTree) → ProperAll trees → ∀ e,
    argsOfTrees trees = .error e → ∀ more,
      Faulty AreAtoms .row (tokensAll trees ++ more) e.named?
  | [], _, _, h, _ => by
      rw [argsOfTrees] at h
      cases h
  | tree :: rest, ⟨htree, hrest⟩, e, h, more =>
      faulty_of_cons htree h (fun h => faulty_of_ofTree tree htree e h (tokensAll rest ++ more))
        (fun h => faulty_of_argsOfTrees rest hrest e h more)

theorem faulty_of_functionOfTrees : (trees : List TokenTree) → ProperAll trees → ∀ e,
    functionOfTrees trees = .error e → ∀ mark, mark.kind = .lambda → ∀ more, Closes more →
      Faulty (fun tokens => IsTerm (mark :: tokens)) .parameter (tokensAll trees ++ more) e.named?
  | [], _, _, h, _, mark_kind, _, closes =>
      faulty_of_header h mark_kind closes fun _ h => faulty_of_nil h closes
  | [_], _, _, h, _, mark_kind, _, closes =>
      faulty_of_header h mark_kind closes fun _ h => faulty_of_nil h closes
  | _ :: _ :: body, ⟨_, _, proper⟩, _, h, _, mark_kind, more, closes =>
      faulty_of_header h mark_kind closes fun e h => faulty_of_ofTrees body proper e h more closes

end

theorem faulty_of_statement {trees : List TokenTree} (proper : ProperAll trees) {e : SyntaxError}
    (h : Statement.ofTrees trees = .error e) :
    Faulty IsStatement .line (tokensAll trees) e.named? := by
  have closes : Closes [] := fun token h => absurd h (Option.not_mem_none token)
  cases trees with
  | nil =>
      cases h
      exact faulty_here (.evaluate (isTerm_of_isAtom isAtom_x)) (closes.blames Stage.noConfusion)
  | cons tree rest =>
      rw [Statement.ofTrees] at h
      split at h
      · rename_i hkind
        obtain ⟨keyword, rfl, keyword_kind⟩ := kind?_eq_some_iff.1 hkind
        rw [Statement.definitionOfTrees_eq_ofHeader] at h
        have properBody : ProperAll (rest.drop 2) :=
          properAll_iff.2 fun tree h => properAll_iff.1 proper.2 tree (List.mem_of_mem_drop h)
        have hfaulty := (headerFault_of_ofHeader h).faulty (header_define keyword_kind) closes
          fun e h => faulty_of_ofTrees _ properBody e h [] closes
        have hthrough : Stage.line.through [keyword] = some .definedName := by
          simp [Stage.after, keyword_kind]
        have hline := hfaulty.behind hthrough fun inner s h => ⟨[], s, by simpa using h⟩
        simpa [tokensAll, TokenTree.tokens] using hline
      · rename_i hkind
        obtain h | ⟨t, ht, h⟩ := Except.bind_eq_error_iff.1 h
        · have hfaulty := faulty_of_ofTrees _ proper e h [] closes
          obtain ⟨others, hothers⟩ := tokensAll_cons_eq tree rest []
          rw [hothers] at hfaulty
          rw [← List.append_nil (tokensAll _), hothers]
          have hterm : Faulty IsStatement .term (tree.first :: others) e.named? :=
            hfaulty.imp fun inner t isTerm => ⟨_, .evaluate isTerm⟩
          have hfirst : tree.first.kind ≠ .letKeyword := first_kind_ne hkind TokenKind.noConfusion
          refine hterm.of_after_eq ?_
          rw [Stage.after, Stage.after, if_neg hfirst]
        · cases h

/-- The tokens of a text are those of the trees that they are grouped into. -/
theorem tokensAll_of_scan {text : String} {trees : List TokenTree}
    (h : TokenTree.ofTokens (Token.scan text) = .ok trees) : tokensAll trees = Token.scan text := by
  have hcanonical : ∀ token ∈ Token.scan text, token.canonical = id token :=
    fun token htoken => (Token.isScanned_of_mem_scan htoken).canonical
  rw [tokensAll_of_ofTokens h, List.map_congr_left hcanonical, List.map_id]

/-- What stands before the fault is the longest part that begins a line. -/
theorem Faulty.isGreatest {tokens : List Token} {found : Option String}
    (h : Faulty IsStatement .line tokens found) :
    ∃ k, IsGreatest {n | n ≤ tokens.length ∧ Viable (tokens.take n)} k ∧
      (∀ text, found = some text → ∃ token, tokens[k]? = some token ∧ token.text = text) ∧
      (found = none → k = tokens.length ∨
        ∃ token, tokens[k]? = some token ∧ token.kind = .rightParen) := by
  obtain ⟨before, after, reached, rfl, viable, hthrough, hblames⟩ := h
  have hviable : Viable ((before ++ after).take before.length) := by
    rw [List.take_left]
    exact viable
  have hmem : before.length ∈ {n | n ≤ (before ++ after).length ∧
      Viable ((before ++ after).take n)} := ⟨by simp, hviable⟩
  cases after with
  | nil =>
      obtain ⟨_, rfl⟩ := hblames
      refine ⟨before.length, ⟨hmem, fun n hn => by simpa using hn.1⟩, nofun, fun _ => ?_⟩
      exact .inl (by simp)
  | cons token after =>
      obtain ⟨hrefused, hnamed⟩ := hblames
      have htoken : (before ++ token :: after)[before.length]? = some token := by simp
      refine ⟨before.length, ⟨hmem, ?_⟩, ?_, ?_⟩
      · rintro n ⟨_, hn⟩
        by_contra hlt
        obtain ⟨m, rfl⟩ := Nat.exists_eq_add_of_lt (Nat.lt_of_not_le hlt)
        have htake : (before ++ token :: after).take (before.length + m + 1) =
            before ++ token :: after.take m := by
          rw [Nat.add_assoc, List.take_length_add_append, List.take_succ_cons]
        rw [htake] at hn
        exact not_viable hthrough hrefused hn
      · rintro text rfl
        obtain hsame | ⟨hnone, _⟩ := hnamed
        · exact ⟨token, htoken, (Option.some.inj hsame).symm⟩
        · cases hnone
      · rintro rfl
        obtain hsome | ⟨_, hkind⟩ := hnamed
        · cases hsome
        · exact .inr ⟨token, htoken, hkind⟩

end Grammar

open Grammar

/-- A syntax error behind grouping is about the first token that cannot be: the tokens before it
begin a line of the grammar, and with it they do not. The message names this token, unless it is a
closing parenthesis or there is none, for the line ends. -/
theorem Statement.error_at_first_fault {text : String} {trees : List TokenTree} {e : SyntaxError}
    (hgroup : TokenTree.ofTokens (Token.scan text) = .ok trees)
    (herror : Statement.ofText text = .error e) :
    ∃ k, IsGreatest {n | n ≤ (Token.scan text).length ∧ Viable ((Token.scan text).take n)} k ∧
      (∀ found, e.named? = some found →
        ∃ token, (Token.scan text)[k]? = some token ∧ token.text = found) ∧
      (e.named? = none → k = (Token.scan text).length ∨
        ∃ token, (Token.scan text)[k]? = some token ∧ token.kind = .rightParen) := by
  have herror : Statement.ofTrees trees = .error e := by
    rw [ofText, ofTokens, hgroup] at herror
    exact herror
  have hfaulty := faulty_of_statement (TokenTree.properAll_of_ofTokens hgroup) herror
  rw [tokensAll_of_scan hgroup] at hfaulty
  exact hfaulty.isGreatest

/-- The first of two faults counts: the function in the group has no body, so the parenthesis that
closes the group cannot be, and the last token is not looked at. -/
theorem Statement.error_at_first_fault_nested :
    TokenTree.ofTokens (Token.scan "f (λx.) =") =
        .ok [.leaf ⟨.name, "f"⟩, .group [.leaf ⟨.lambda, "\\"⟩, .leaf ⟨.name, "x"⟩, .leaf ⟨.dot, "."⟩],
          .leaf ⟨.equals, "="⟩] ∧
      Statement.ofText "f (λx.) =" = .error (.expected (.body "x") none) ∧
      ∃ k, IsGreatest {n | n ≤ (Token.scan "f (λx.) =").length ∧
          Viable ((Token.scan "f (λx.) =").take n)} k ∧
        (k = (Token.scan "f (λx.) =").length ∨
          ∃ token, (Token.scan "f (λx.) =")[k]? = some token ∧ token.kind = .rightParen) := by
  have hscan : Token.scan "f (λx.) =" = [⟨.name, "f"⟩, ⟨.leftParen, "("⟩, ⟨.lambda, "\\"⟩,
      ⟨.name, "x"⟩, ⟨.dot, "."⟩, ⟨.rightParen, ")"⟩, ⟨.equals, "="⟩] := by decide +kernel
  have hgroup : TokenTree.ofTokens (Token.scan "f (λx.) =") =
      .ok [.leaf ⟨.name, "f"⟩, .group [.leaf ⟨.lambda, "\\"⟩, .leaf ⟨.name, "x"⟩, .leaf ⟨.dot, "."⟩],
        .leaf ⟨.equals, "="⟩] := by
    rw [hscan]
    rfl
  have herror : Statement.ofText "f (λx.) =" = .error (.expected (.body "x") none) := by
    decide +kernel
  obtain ⟨k, hgreatest, _, hnone⟩ := Statement.error_at_first_fault hgroup herror
  exact ⟨hgroup, herror, k, hgreatest, hnone rfl⟩

end LambdaInt
