import LambdaInt.Printable
import LambdaInt.Proofs.Parsing
import LambdaInt.Proofs.Scanning

/-!
Reading what was written. A printable statement is written with the token trees given here; the
scanner finds their tokens in its text, grouping finds the trees in the tokens, and the parser
finds the statement in the trees. The other way round, whatever is derived from tokens of a text is
printable, by induction on the derivation.
-/

namespace LambdaInt

namespace TokenTree

/-- The trees in a tree, when it stands where parentheses are not needed. -/
def spread : TokenTree → List TokenTree
  | leaf token => [leaf token]
  | group trees => trees

end TokenTree

theorem IsIdentifier.binder? {x : String} (h : IsIdentifier x) :
    (TokenTree.leaf ⟨.name, x⟩).binder? = some x :=
  TokenTree.binder?_eq_some_iff.2 ⟨_, rfl, rfl, rfl, h.2.2.2.2⟩

namespace Term

mutual

/-- The token tree of a term where it is a member of an application. -/
def tree : Term → TokenTree
  | var x => .leaf ⟨.name, x⟩
  | lit n => .leaf ⟨.number, Numeral.render n⟩
  | builtin op => .leaf ⟨.name, op.name⟩
  | fn p b =>
      .group (.leaf ⟨.lambda, "\\"⟩ :: .leaf ⟨.name, p⟩ :: .leaf ⟨.dot, "."⟩ :: (tree b).spread)
  | app ts => .group (treeAll ts)

def treeAll : List Term → List TokenTree
  | [] => []
  | t :: ts => tree t :: treeAll ts

end

theorem treeAll_eq_map (ts : List Term) : treeAll ts = ts.map tree := by
  induction ts with
  | nil => rfl
  | cons t ts ih => simp [treeAll, ih]

/-- A member that stands in parentheses is a group, and any other is a leaf. -/
theorem tokens_tree (t : Term) :
    t.tree.tokens =
      if t.isCompound then
        ⟨.leftParen, "("⟩ :: TokenTree.tokensAll t.tree.spread ++ [⟨.rightParen, ")"⟩]
      else TokenTree.tokensAll t.tree.spread := by
  cases t <;> rfl

theorem spread_tree_ne_nil {t : Term} (h : t.Printable) : t.tree.spread ≠ [] := by
  cases t with
  | app ts =>
      have hlen := (printable_app.1 h).1
      intro heq
      rw [tree, TokenTree.spread, treeAll_eq_map, List.map_eq_nil_iff] at heq
      rw [heq] at hlen
      exact absurd hlen (by decide)
  | _ => exact List.cons_ne_nil _ _

theorem properAll_spread {tree : TokenTree} (h : tree.Proper) :
    TokenTree.ProperAll tree.spread := by
  cases tree with
  | leaf token => exact ⟨h, trivial⟩
  | group trees => exact h.2

theorem properAll_treeAll {ts : List Term} (h : ∀ t ∈ ts, t.tree.Proper) :
    TokenTree.ProperAll (treeAll ts) := by
  induction ts with
  | nil => trivial
  | cons t ts ih =>
      obtain ⟨ht, hts⟩ := List.forall_mem_cons.1 h
      exact ⟨ht, ih hts⟩

theorem proper_tree {t : Term} (h : t.Printable) : t.tree.Proper := by
  have name (x : String) : (TokenTree.leaf ⟨.name, x⟩).Proper :=
    ⟨TokenKind.noConfusion, TokenKind.noConfusion⟩
  induction t with
  | var x => exact name x
  | lit n => exact ⟨TokenKind.noConfusion, TokenKind.noConfusion⟩
  | builtin op => exact name op.name
  | fn p b ih =>
      refine ⟨List.cons_ne_nil _ _, ?_, name p, ?_, properAll_spread (ih h.2)⟩
      · exact ⟨TokenKind.noConfusion, TokenKind.noConfusion⟩
      · exact ⟨TokenKind.noConfusion, TokenKind.noConfusion⟩
  | app ts ih =>
      refine ⟨spread_tree_ne_nil h, properAll_treeAll fun t ht => ih t ht ?_⟩
      exact (printable_app.1 h).2 t ht

/-- The tokens of a name that may be bound. -/
theorem scanFrom_identifier {x : String} (h : IsIdentifier x) :
    Token.scanFrom [] x.toList = [⟨.name, x⟩] := by
  have hne : x.toList ≠ [] := fun heq => h.1 (by simpa using heq)
  rw [Token.scanFrom_nil_word hne h.2.1, h.ofWord]

theorem isWordChar_of_isDigit {c : Char} (h : c.isDigit = true) : Token.isWordChar c = true := by
  have hrange : 0x30 ≤ c.toNat ∧ c.toNat ≤ 0x39 := by
    simpa [Char.isDigit, UInt32.le_iff_toNat_le] using h
  have hblank : Text.isBlank c = false := by
    simp only [Text.isBlank, Bool.or_eq_false_iff, Bool.and_eq_false_iff, decide_eq_false_iff_not,
      beq_eq_false_iff_ne]
    omega
  have hmark : Token.mark? c = none := by
    unfold Token.mark?
    split <;> first | rfl | exact absurd h (by decide)
  rw [Token.isWordChar, hblank, hmark]
  rfl

theorem scanFrom_numeral {n : Int64} (h : 0 ≤ n.toInt) :
    Token.scanFrom [] (Numeral.render n).toList = [⟨.number, Numeral.render n⟩] := by
  have hdigits := Numeral.all_isDigit_toDigits n.toInt.natAbs
  rw [← Numeral.toList_render h] at hdigits
  have hne : (Numeral.render n).toList ≠ [] := by
    rw [Numeral.toList_render h]
    exact Nat.toDigits_ne_nil
  rw [Token.scanFrom_nil_word hne fun c hc => isWordChar_of_isDigit (List.all_eq_true.1 hdigits c hc),
    Numeral.ofWord_render h]

theorem scanFrom_enclose {t : Term}
    (h : Token.scanFrom [] t.render.toList = TokenTree.tokensAll t.tree.spread) :
    Token.scanFrom [] (t.enclose t.render).toList = t.tree.tokens := by
  have hclose : Token.Separates ')' := by decide
  rw [enclose, tokens_tree]
  split
  · rw [String.toList_append, String.toList_append]
    change Token.scanFrom [] ('(' :: t.render.toList ++ [')']) = _
    rw [List.cons_append, Token.scanFrom_cons_of_mark? rfl rfl, Token.scanFrom_append_cons hclose, h]
    rfl
  · exact h

/-- The members of an application are scanned one by one, for spaces keep them apart. -/
theorem scanFrom_renderAll {ts : List Term} (ne : ts ≠ [])
    (h : ∀ t ∈ ts, Token.scanFrom [] (t.enclose t.render).toList = t.tree.tokens) :
    Token.scanFrom [] (" ".intercalate (renderAll ts)).toList =
      TokenTree.tokensAll (treeAll ts) := by
  have hspace : Token.Separates ' ' := by decide
  induction ts with
  | nil => exact absurd rfl ne
  | cons t ts ih =>
      obtain ⟨ht, hts⟩ := List.forall_mem_cons.1 h
      cases ts with
      | nil =>
          rw [renderAll, renderAll, String.intercalate_singleton, ht]
          exact (List.append_nil _).symm
      | cons u us =>
          have hne : u :: us ≠ [] := List.cons_ne_nil u us
          have hrest : renderAll (u :: us) ≠ [] := List.cons_ne_nil _ _
          rw [renderAll, String.intercalate_cons_of_ne_nil hrest, String.toList_append,
            String.toList_append, List.append_assoc]
          change Token.scanFrom [] ((t.enclose t.render).toList ++
            ' ' :: (" ".intercalate (renderAll (u :: us))).toList) = _
          rw [Token.scanFrom_append_cons hspace, ht, Token.scanFrom_cons_of_isBlank rfl, ih hne hts]
          rfl

theorem scanFrom_render {t : Term} (h : t.Printable) :
    Token.scanFrom [] t.render.toList = TokenTree.tokensAll t.tree.spread := by
  induction t with
  | var x => exact scanFrom_identifier h
  | lit n => exact scanFrom_numeral h
  | builtin op => cases op <;> decide
  | fn p b ih =>
      have hdot : Token.Separates '.' := by decide
      simp only [render, String.toList_append]
      change Token.scanFrom [] ('λ' :: p.toList ++ ['.'] ++ b.render.toList) = _
      rw [List.append_assoc, List.cons_append, Token.scanFrom_cons_of_mark? rfl rfl,
        List.singleton_append, Token.scanFrom_append_cons hdot, scanFrom_identifier h.1,
        Token.scanFrom_cons_of_mark? rfl rfl, ih h.2]
      rfl
  | app ts ih =>
      obtain ⟨hlen, hts⟩ := printable_app.1 h
      have hne : ts ≠ [] := List.ne_nil_of_length_pos (Nat.lt_of_lt_of_le Nat.zero_lt_two hlen)
      exact scanFrom_renderAll hne fun t ht => scanFrom_enclose (ih t ht (hts t ht))

theorem argsOfTrees_treeAll {ts : List Term} (h : ∀ t ∈ ts, ofTree t.tree = .ok t) :
    argsOfTrees (treeAll ts) = .ok ts := by
  induction ts with
  | nil => rfl
  | cons t ts ih =>
      obtain ⟨ht, hts⟩ := List.forall_mem_cons.1 h
      rw [treeAll, argsOfTrees, ht, ih hts]
      rfl

/-- A leaf is read alike as a member and by itself. -/
theorem ofTrees_leaf {token : Token} {t : Term} (h : token.atom = .ok t) :
    ofTrees [.leaf token] = .ok t ∧ ofTree (.leaf token) = .ok t := by
  have hleaf : ofTree (.leaf token) = .ok t := by rw [ofTree, h]
  refine ⟨?_, hleaf⟩
  rw [ofTrees_cons (kind?_of_ofTree hleaf).1, hleaf]
  rfl

theorem ofTrees_spread {t : Term} (h : t.Printable) :
    ofTrees t.tree.spread = .ok t ∧ ofTree t.tree = .ok t := by
  induction t with
  | var x =>
      refine ofTrees_leaf ?_
      simp only [Token.atom, h.2.2.2.2]
  | lit n =>
      refine ofTrees_leaf ?_
      simp only [Token.atom, Numeral.int64?_render h]
  | builtin op =>
      refine ofTrees_leaf ?_
      simp only [Token.atom, Builtin.ofName?_name]
  | fn p b ih =>
      have hread : ofTrees (fn p b).tree.spread = .ok (fn p b) := by
        change functionOfTrees (.leaf ⟨.name, p⟩ :: .leaf ⟨.dot, "."⟩ :: b.tree.spread) = _
        exact functionOfTrees_cons_cons_eq_ok_iff.2 ⟨p, b, h.1.binder?, rfl, (ih h.2).1, rfl⟩
      exact ⟨hread, by rw [tree, ofTree]; exact hread⟩
  | app ts ih =>
      obtain ⟨hlen, hts⟩ := printable_app.1 h
      have hmembers : argsOfTrees (treeAll ts) = .ok ts :=
        argsOfTrees_treeAll fun t ht => (ih t ht (hts t ht)).2
      have hread : ofTrees (app ts).tree.spread = .ok (app ts) := by
        match ts, hlen with
        | head :: arg :: args, _ => exact ofTrees_of_argsOfTrees hmembers
      exact ⟨hread, by rw [tree, ofTree]; exact hread⟩

end Term

namespace Statement

/-- The token trees that the statement is written with. -/
def trees : Statement → List TokenTree
  | define x t =>
      .leaf ⟨.letKeyword, "let"⟩ :: .leaf ⟨.name, x⟩ :: .leaf ⟨.equals, "="⟩ :: t.tree.spread
  | evaluate t => t.tree.spread

theorem properAll_trees {s : Statement} (h : s.Printable) : TokenTree.ProperAll s.trees := by
  cases s with
  | define x t =>
      refine ⟨?_, ?_, ?_, Term.properAll_spread (Term.proper_tree h.2)⟩
      all_goals exact ⟨TokenKind.noConfusion, TokenKind.noConfusion⟩
  | evaluate t => exact Term.properAll_spread (Term.proper_tree h)

theorem scan_render {s : Statement} (h : s.Printable) :
    Token.scan s.render = TokenTree.tokensAll s.trees := by
  have hspace : Token.Separates ' ' := by decide
  cases s with
  | define x t =>
      have hlet : Token.scanFrom [] "let".toList = [⟨.letKeyword, "let"⟩] := by decide
      have htext : (define x t).render.toList =
          "let".toList ++ ' ' :: (x.toList ++ ' ' :: '=' :: ' ' :: t.render.toList) := by
        simp only [render, String.toList_append, List.append_assoc]
        rfl
      rw [Token.scan, htext, Token.scanFrom_append_cons hspace, hlet,
        Token.scanFrom_cons_of_isBlank rfl, Token.scanFrom_append_cons hspace,
        Term.scanFrom_identifier h.1, Token.scanFrom_cons_of_isBlank rfl,
        Token.scanFrom_cons_of_mark? rfl rfl, Token.scanFrom_cons_of_isBlank rfl,
        Term.scanFrom_render h.2]
      rfl
  | evaluate t => exact Term.scanFrom_render h

theorem ofTrees_trees {s : Statement} (h : s.Printable) : ofTrees s.trees = .ok s := by
  cases s with
  | define x t =>
      change definitionOfTrees (.leaf ⟨.name, x⟩ :: .leaf ⟨.equals, "="⟩ :: t.tree.spread) = _
      exact definitionOfTrees_cons_cons_eq_ok_iff.2
        ⟨x, t, h.1.binder?, rfl, (Term.ofTrees_spread h.2).1, rfl⟩
  | evaluate t =>
      have hread := (Term.ofTrees_spread h).1
      cases hspread : t.tree.spread with
      | nil => exact absurd hspread (Term.spread_tree_ne_nil h)
      | cons tree rest =>
          rw [hspread] at hread
          rw [trees, hspread, ofTrees, if_neg (Term.kind?_of_ofTrees hread), hread]
          rfl

/-- A printable statement is read back from its text. -/
theorem ofText_eq_of_printable {s : Statement} (h : s.Printable) : ofText s.render = .ok s := by
  rw [ofText, ofTokens, scan_render h, TokenTree.ofTokens_tokensAll (properAll_trees h)]
  exact ofTrees_trees h

end Statement

/-- Identifiers, told by their characters and by the words that they are not. -/
theorem isIdentifier_iff {x : String} :
    IsIdentifier x ↔ x ≠ "" ∧
      (∀ c ∈ x.toList, Text.isBlank c = false ∧ c ∉ ['\\', '.', '(', ')', '=', 'λ']) ∧
      x ≠ "let" ∧ (∃ c ∈ x.toList, c.isDigit = false) ∧ x ≠ "+" ∧ x ≠ "1+" := by
  simp only [IsIdentifier, Token.isWordChar_iff, Builtin.ofName?_eq_none_iff, List.all_eq_false,
    Bool.not_eq_true]

theorem Term.printable_application {head : Term} {args : List Term} (hhead : head.Printable)
    (hargs : ∀ t ∈ args, t.Printable) : (head.application args).Printable := by
  cases args with
  | nil => exact hhead
  | cons arg args => exact printable_app.2 ⟨by simp, List.forall_mem_cons.2 ⟨hhead, hargs⟩⟩

namespace Grammar

/-- A token of a text that binds a name holds an identifier. -/
theorem Binds.isIdentifier {token : Token} {x : String} (binds : Binds token x)
    (h : token.IsScanned) : IsIdentifier x := by
  obtain ⟨kind, rfl, hname⟩ := binds
  obtain ⟨hne, hword, hlet, hdigits⟩ := h.name kind
  exact ⟨hne, hword, hlet, hdigits, hname⟩

mutual

/-- What is derived from tokens of a text can be written. -/
theorem IsTerm.printable : ∀ {tokens t}, IsTerm tokens t → (∀ token ∈ tokens, token.IsScanned) →
    t.Printable
  | _, _, .function _ binds _ isTerm, h => by
      obtain ⟨_, h⟩ := List.forall_mem_cons.1 h
      obtain ⟨hbinder, h⟩ := List.forall_mem_cons.1 h
      obtain ⟨_, hbody⟩ := List.forall_mem_cons.1 h
      exact ⟨binds.isIdentifier hbinder, isTerm.printable hbody⟩
  | _, _, .row atoms, h => by
      obtain ⟨hhead, hargs⟩ := List.forall_mem_cons.1 (atoms.printable h)
      exact Term.printable_application hhead hargs

theorem IsAtom.printable : ∀ {tokens t}, IsAtom tokens t → (∀ token ∈ tokens, token.IsScanned) →
    t.Printable
  | _, _, .builtin .., _ => trivial
  | _, _, @IsAtom.var token kind name, h => by
      have binds : Binds token token.text := ⟨kind, rfl, name⟩
      exact binds.isIdentifier (h token List.mem_cons_self)
  | _, _, @IsAtom.number token _ kind numeral, h => by
      obtain ⟨hne, hdigits⟩ := (h token List.mem_cons_self).number kind
      exact Numeral.nonneg_of_int64?_of_digits hne hdigits numeral
  | _, _, .group _ isTerm _, h => by
      refine isTerm.printable fun token htoken => h token ?_
      exact List.mem_append_left _ (List.mem_cons_of_mem _ htoken)

theorem AreAtoms.printable : ∀ {tokens ts}, AreAtoms tokens ts →
    (∀ token ∈ tokens, token.IsScanned) → ∀ t ∈ ts, t.Printable
  | _, _, .one isAtom, h => by
      rw [List.forall_mem_singleton]
      exact isAtom.printable h
  | _, _, .more isAtom atoms, h => by
      obtain ⟨hfirst, hrest⟩ := List.forall_mem_append.1 h
      exact List.forall_mem_cons.2 ⟨isAtom.printable hfirst, atoms.printable hrest⟩

end

theorem IsStatement.printable {tokens : List Token} {s : Statement} (h : IsStatement tokens s)
    (htokens : ∀ token ∈ tokens, token.IsScanned) : s.Printable := by
  cases h with
  | define _ binds _ isTerm =>
      obtain ⟨_, htokens⟩ := List.forall_mem_cons.1 htokens
      obtain ⟨hbinder, htokens⟩ := List.forall_mem_cons.1 htokens
      obtain ⟨_, hbody⟩ := List.forall_mem_cons.1 htokens
      exact ⟨binds.isIdentifier hbinder, isTerm.printable hbody⟩
  | evaluate isTerm => exact isTerm.printable htokens

end Grammar

namespace Statement

/-- Whatever is read from a text could have been written. -/
theorem printable_of_ofText {text : String} {s : Statement} (h : ofText text = .ok s) :
    s.Printable := by
  have isStatement := Grammar.ofTokens_eq_ok_iff_isStatement.1 h
  exact isStatement.printable fun _ => Token.isScanned_of_mem_scan

/-- What is written is read back, and what is read can be written: reading a text and writing what
was read gives a text of the same statement. -/
theorem reading_inverts_rendering :
    (∀ x, IsIdentifier x ↔ x ≠ "" ∧
      (∀ c ∈ x.toList, Text.isBlank c = false ∧ c ∉ ['\\', '.', '(', ')', '=', 'λ']) ∧
      x ≠ "let" ∧ (∃ c ∈ x.toList, c.isDigit = false) ∧ x ≠ "+" ∧ x ≠ "1+") ∧
    (∀ s : Statement, s.Printable → ofText s.render = .ok s) ∧
    (∀ s t : Statement, s.Printable → t.Printable → s.render = t.render → s = t) ∧
    ∀ text s, ofText text = .ok s → s.Printable ∧ ofText s.render = .ok s := by
  refine ⟨fun x => isIdentifier_iff, fun s hs => ofText_eq_of_printable hs, ?_, ?_⟩
  · intro s t hs ht hrender
    have hread : (.ok s : Except SyntaxError Statement) = .ok t := by
      rw [← ofText_eq_of_printable hs, hrender, ofText_eq_of_printable ht]
    exact Except.ok.inj hread
  · intro text s hread
    have hs : s.Printable := printable_of_ofText hread
    exact ⟨hs, ofText_eq_of_printable hs⟩

def regrouped : Statement :=
  define "f'" (.fn "x" (.app [.app [.fn "x" (.var "x"), .builtin .increment], .lit 7]))

/-- Parentheses around one atom and around the body of a function are gone in what is written. -/
theorem reading_inverts_rendering_regrouped :
    (regrouped.Printable ∧ ofText regrouped.render = .ok regrouped) ∧
    ofText "let f'=\\x.((λx.(x) )1+)(007)" = .ok regrouped := by
  have hread : ofText "let f'=\\x.((λx.(x) )1+)(007)" = .ok regrouped := by decide +kernel
  exact ⟨reading_inverts_rendering.2.2.2 _ _ hread, hread⟩

end Statement
end LambdaInt
