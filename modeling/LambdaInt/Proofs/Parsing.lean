import LambdaInt.Grammar
import LambdaInt.Parser
import LambdaInt.Proofs.Evaluation
import LambdaInt.Proofs.Grouping

/-!
The parser and the grammar. Tokens spell the trees that they are grouped into, and along the trees
the parser and the grammar go the same way: what the rules read has a derivation, by induction on
the trees, and what is derived is read, by induction on the derivation. So the parser accepts what
the grammar derives and nothing else, and no list of tokens has two readings.
-/

namespace LambdaInt

namespace TokenTree

/-- The tokens are grouped into the trees. -/
def Spells (trees : List TokenTree) (tokens : List Token) : Prop :=
  ProperAll trees ∧ tokensAll trees = tokens.map Token.canonical

theorem spells_nil {tokens : List Token} : Spells [] tokens ↔ tokens = [] := by
  simp [Spells, ProperAll, tokensAll, eq_comm]

theorem spells_leaf {token : Token} {kind : TokenKind} (h : token.kind = kind)
    (hleft : kind ≠ .leftParen) (hright : kind ≠ .rightParen) : Spells [leaf token] [token] := by
  subst h
  refine ⟨⟨⟨hleft, hright⟩, trivial⟩, ?_⟩
  simp [tokensAll, tokens, Token.canonical_of_ne hleft hright]

theorem spells_group {left right : Token} {trees : List TokenTree} {tokens : List Token}
    (hleft : left.kind = .leftParen) (ne : trees ≠ []) (h : Spells trees tokens)
    (hright : right.kind = .rightParen) : Spells [group trees] (left :: tokens ++ [right]) := by
  refine ⟨⟨⟨ne, h.1⟩, trivial⟩, ?_⟩
  simp [tokensAll, TokenTree.tokens, h.2, Token.canonical_of_leftParen hleft,
    Token.canonical_of_rightParen hright]

theorem Spells.append {ts us : List TokenTree} {tokens others : List Token} (h : Spells ts tokens)
    (h' : Spells us others) : Spells (ts ++ us) (tokens ++ others) := by
  refine ⟨?_, by rw [tokensAll_append, List.map_append, h.2, h'.2]⟩
  exact properAll_iff.2 (List.forall_mem_append.2 ⟨properAll_iff.1 h.1, properAll_iff.1 h'.1⟩)

theorem Spells.split {tree : TokenTree} {rest : List TokenTree} {tokens : List Token}
    (h : Spells (tree :: rest) tokens) :
    ∃ first others, tokens = first ++ others ∧ Spells [tree] first ∧ Spells rest others := by
  obtain ⟨⟨htree, hrest⟩, htokens⟩ := h
  obtain ⟨first, others, rfl, hfirst, hothers⟩ := List.map_eq_append_iff.1 htokens.symm
  exact ⟨first, others, rfl, ⟨⟨htree, trivial⟩, by simp [tokensAll, hfirst]⟩, hrest, hothers.symm⟩

theorem Spells.leaf {token : Token} {tokens : List Token} (h : Spells [leaf token] tokens) :
    tokens = [token] := by
  obtain ⟨⟨⟨hleft, hright⟩, _⟩, htokens⟩ := h
  obtain ⟨other, rfl, hother⟩ : ∃ other, tokens = [other] ∧ other.canonical = token := by
    simpa [tokensAll, TokenTree.tokens, eq_comm] using htokens
  rw [← hother, Token.kind_canonical] at hleft hright
  rw [← hother, Token.canonical_of_ne hleft hright]

theorem Spells.group {trees : List TokenTree} {tokens : List Token}
    (h : Spells [group trees] tokens) :
    ∃ left inner right, tokens = left :: inner ++ [right] ∧ left.kind = .leftParen ∧
      right.kind = .rightParen ∧ Spells trees inner := by
  obtain ⟨⟨⟨_, hproper⟩, _⟩, htokens⟩ := h
  rw [tokensAll, tokensAll, List.append_nil, TokenTree.tokens, List.cons_append] at htokens
  obtain ⟨left, others, rfl, hleft, hothers⟩ := List.map_eq_cons_iff.1 htokens.symm
  obtain ⟨inner, last, rfl, hinner, hlast⟩ := List.map_eq_append_iff.1 hothers
  obtain ⟨right, rfl, hright⟩ := List.map_eq_singleton_iff.1 hlast
  refine ⟨left, inner, right, rfl, ?_, ?_, hproper, hinner.symm⟩
  · rw [← Token.kind_canonical, hleft]
  · rw [← Token.kind_canonical, hright]

theorem kind?_eq_some_iff {tree : TokenTree} {kind : TokenKind} :
    tree.kind? = some kind ↔ ∃ token, tree = .leaf token ∧ token.kind = kind := by
  cases tree <;> simp [kind?]

/-- The trees that bind a name are the tokens that do. -/
theorem binder?_eq_some_iff {tree : TokenTree} {x : String} :
    tree.binder? = some x ↔ ∃ token, tree = .leaf token ∧ Grammar.Binds token x := by
  cases tree with
  | group trees => simp [binder?]
  | leaf token =>
      obtain ⟨kind, text⟩ := token
      cases kind <;> simp [binder?, Grammar.Binds]
      constructor
      · rintro ⟨hname, rfl⟩
        exact ⟨rfl, hname⟩
      · rintro ⟨rfl, hname⟩
        exact ⟨hname, rfl⟩

/-- Before the body of a function or a definition stand a token that binds a name and a mark. -/
theorem Spells.header {binder mark : Token} {x : String} {kind : TokenKind}
    {body : List TokenTree} {tokens : List Token} (h : Spells body tokens)
    (binds : Grammar.Binds binder x) (mark_kind : mark.kind = kind) (hleft : kind ≠ .leftParen)
    (hright : kind ≠ .rightParen) :
    Spells (.leaf binder :: .leaf mark :: body) (binder :: mark :: tokens) := by
  have hbinder : Spells [.leaf binder] [binder] := spells_leaf binds.1 nofun nofun
  have hmark : Spells [.leaf mark] [mark] := spells_leaf mark_kind hleft hright
  exact hbinder.append (hmark.append h)

theorem Spells.split_header {binder mark : TokenTree} {x : String} {kind : TokenKind}
    {body : List TokenTree} {tokens : List Token} (hbinder : binder.binder? = some x)
    (hmark : mark.kind? = some kind) (h : Spells (binder :: mark :: body) tokens) :
    ∃ binder mark others, tokens = binder :: mark :: others ∧ Grammar.Binds binder x ∧
      mark.kind = kind ∧ Spells body others := by
  obtain ⟨binder, rfl, binds⟩ := binder?_eq_some_iff.1 hbinder
  obtain ⟨mark, rfl, mark_kind⟩ := kind?_eq_some_iff.1 hmark
  obtain ⟨_, _, rfl, hfirst, h⟩ := h.split
  obtain ⟨_, others, rfl, hsecond, hbody⟩ := h.split
  obtain rfl := hfirst.leaf
  obtain rfl := hsecond.leaf
  exact ⟨binder, mark, others, rfl, binds, mark_kind, hbody⟩

end TokenTree

namespace Term

theorem ofTrees_cons {tree : TokenTree} (h : tree.kind? ≠ some .lambda) (rest : List TokenTree) :
    ofTrees (tree :: rest) = (ofTree tree).bind fun head =>
      (argsOfTrees rest).bind fun args => .ok (application head args) := by
  rw [ofTrees, if_neg h]
  rfl

/-- A tree that is read by itself begins neither a function nor a definition. -/
theorem kind?_of_ofTree {tree : TokenTree} {t : Term} (h : ofTree tree = .ok t) :
    tree.kind? ≠ some .lambda ∧ tree.kind? ≠ some .letKeyword := by
  cases tree with
  | group trees => simp [TokenTree.kind?]
  | leaf token =>
      obtain ⟨kind, text⟩ := token
      cases kind with
      | lambda | letKeyword => cases h
      | _ => simp [TokenTree.kind?]

theorem kind?_of_ofTrees {tree : TokenTree} {rest : List TokenTree} {t : Term}
    (h : ofTrees (tree :: rest) = .ok t) : tree.kind? ≠ some .letKeyword := by
  by_cases hkind : tree.kind? = some .lambda
  · simp [hkind]
  · rw [ofTrees_cons hkind, Except.bind_eq_ok_iff] at h
    obtain ⟨head, hhead, _⟩ := h
    exact (kind?_of_ofTree hhead).2

theorem argsOfTrees_cons_eq_ok_iff {tree : TokenTree} {rest : List TokenTree} {ts : List Term} :
    argsOfTrees (tree :: rest) = .ok ts ↔
      ∃ t us, ofTree tree = .ok t ∧ argsOfTrees rest = .ok us ∧ ts = t :: us := by
  rw [argsOfTrees]
  constructor
  · intro h
    obtain ⟨t, ht, h⟩ := Except.bind_eq_ok_iff.1 h
    obtain ⟨us, hus, h⟩ := Except.bind_eq_ok_iff.1 h
    exact ⟨t, us, ht, hus, (Except.ok.inj h).symm⟩
  · rintro ⟨t, us, ht, hus, rfl⟩
    rw [ht, hus]
    rfl

theorem ofTrees_of_argsOfTrees {trees : List TokenTree} {head : Term} {args : List Term}
    (h : argsOfTrees trees = .ok (head :: args)) : ofTrees trees = .ok (application head args) := by
  cases trees with
  | nil =>
      rw [argsOfTrees] at h
      cases h
  | cons tree rest =>
      obtain ⟨t, us, ht, hus, heq⟩ := argsOfTrees_cons_eq_ok_iff.1 h
      cases heq
      rw [ofTrees_cons (kind?_of_ofTree ht).1, ht, hus]
      rfl

/-- What functions and definitions have in common: a token that binds a name, a mark of some kind and
a body. -/
def ofHeader {α : Type} (binding : Expectation) (marking holding : String → Expectation)
    (kind : TokenKind) (make : String → Term → α) : List TokenTree → Except SyntaxError α
  | [] => .error (.expecting binding none)
  | binder :: rest =>
      match binder.binder? with
      | none => .error (.expecting binding binder)
      | some x =>
          match rest with
          | [] => .error (.expecting (marking x) none)
          | mark :: body =>
              if mark.kind? ≠ some kind then .error (.expecting (marking x) mark)
              else if body = [] then .error (.expecting (holding x) none)
              else do return make x (← ofTrees body)

theorem functionOfTrees_eq_ofHeader (trees : List TokenTree) :
    functionOfTrees trees = ofHeader .parameter (fun _ => .dot) .body .dot fn trees := by
  match trees with
  | [] | [_] | _ :: _ :: _ => rfl

theorem ofHeader_cons_cons_eq_ok_iff {α : Type} {binding : Expectation}
    {marking holding : String → Expectation} {kind : TokenKind} {make : String → Term → α}
    {binder mark : TokenTree} {body : List TokenTree} {a : α} :
    ofHeader binding marking holding kind make (binder :: mark :: body) = .ok a ↔
      ∃ x b, binder.binder? = some x ∧ mark.kind? = some kind ∧ ofTrees body = .ok b ∧
        a = make x b := by
  simp only [ofHeader]
  constructor
  · intro h
    split at h
    · cases h
    · rename_i x hx
      split at h
      · cases h
      · rename_i hmark
        split at h
        · cases h
        · obtain ⟨b, hb, h⟩ := Except.bind_eq_ok_iff.1 h
          exact ⟨x, b, hx, not_ne_iff.1 hmark, hb, (Except.ok.inj h).symm⟩
  · rintro ⟨x, b, hx, hmark, hb, rfl⟩
    have ne : body ≠ [] := by
      rintro rfl
      cases hb
    simp only [hx, hmark, ne, hb, ne_eq, not_true_eq_false, if_false]
    rfl

theorem functionOfTrees_cons_cons_eq_ok_iff {binder mark : TokenTree} {body : List TokenTree}
    {t : Term} :
    functionOfTrees (binder :: mark :: body) = .ok t ↔
      ∃ x b, binder.binder? = some x ∧ mark.kind? = some .dot ∧ ofTrees body = .ok b ∧
        t = fn x b := by
  rw [functionOfTrees_eq_ofHeader, ofHeader_cons_cons_eq_ok_iff]

end Term

theorem Statement.definitionOfTrees_eq_ofHeader (trees : List TokenTree) :
    definitionOfTrees trees =
      Term.ofHeader .definedName .equals .definition .equals define trees := by
  match trees with
  | [] | [_] | _ :: _ :: _ => rfl

theorem Statement.definitionOfTrees_cons_cons_eq_ok_iff {binder mark : TokenTree}
    {body : List TokenTree} {s : Statement} :
    definitionOfTrees (binder :: mark :: body) = .ok s ↔
      ∃ x t, binder.binder? = some x ∧ mark.kind? = some .equals ∧ Term.ofTrees body = .ok t ∧
        s = define x t := by
  rw [definitionOfTrees_eq_ofHeader, Term.ofHeader_cons_cons_eq_ok_iff]

namespace Grammar
open TokenTree Term

theorem isAtom_of_atom {token : Token} {t : Term} (h : token.atom = .ok t) : IsAtom [token] t := by
  unfold Token.atom at h
  split at h
  · rename_i kind
    split at h
    · rename_i name
      cases h
      exact .builtin kind name
    · rename_i name
      cases h
      exact .var kind name
  · rename_i kind
    split at h
    · rename_i numeral
      cases h
      exact .number kind numeral
    · cases h
  · cases h

mutual

theorem isTerm_of_ofTrees : (trees : List TokenTree) → ∀ tokens t, Spells trees tokens →
    ofTrees trees = .ok t → IsTerm tokens t
  | [], _, _, _, h => by cases h
  | tree :: rest, _, t, hspells, h => by
      obtain ⟨first, others, rfl, hfirst, hothers⟩ := hspells.split
      by_cases hkind : tree.kind? = some .lambda
      · obtain ⟨mark, rfl, mark_kind⟩ := kind?_eq_some_iff.1 hkind
        obtain rfl := hfirst.leaf
        rw [ofTrees, if_pos hkind] at h
        exact isTerm_of_functionOfTrees rest mark mark_kind others t hothers h
      · rw [ofTrees_cons hkind, Except.bind_eq_ok_iff] at h
        obtain ⟨head, hhead, h⟩ := h
        obtain ⟨args, hargs, h⟩ := Except.bind_eq_ok_iff.1 h
        cases h
        have isAtom : IsAtom first head := isAtom_of_ofTree tree first head hfirst hhead
        exact .row (areAtoms_of_argsOfTrees rest first head isAtom others args hothers hargs)

theorem isAtom_of_ofTree : (tree : TokenTree) → ∀ tokens t, Spells [tree] tokens →
    ofTree tree = .ok t → IsAtom tokens t
  | .leaf token, _, t, hspells, h => by
      obtain rfl := hspells.leaf
      rw [ofTree] at h
      exact isAtom_of_atom h
  | .group trees, _, t, hspells, h => by
      obtain ⟨left, inner, right, rfl, left_kind, right_kind, hinner⟩ := hspells.group
      rw [ofTree] at h
      exact .group left_kind (isTerm_of_ofTrees trees inner t hinner h) right_kind

theorem areAtoms_of_argsOfTrees : (trees : List TokenTree) → ∀ first t, IsAtom first t →
    ∀ tokens ts, Spells trees tokens → argsOfTrees trees = .ok ts →
      AreAtoms (first ++ tokens) (t :: ts)
  | [], first, t, isAtom, tokens, ts, hspells, h => by
      obtain rfl := spells_nil.1 hspells
      rw [argsOfTrees] at h
      cases h
      rw [List.append_nil]
      exact .one isAtom
  | tree :: rest, first, t, isAtom, _, ts, hspells, h => by
      obtain ⟨next, others, rfl, hnext, hothers⟩ := hspells.split
      obtain ⟨u, us, hu, hus, rfl⟩ := argsOfTrees_cons_eq_ok_iff.1 h
      have next_isAtom : IsAtom next u := isAtom_of_ofTree tree next u hnext hu
      exact .more isAtom (areAtoms_of_argsOfTrees rest next u next_isAtom others us hothers hus)

theorem isTerm_of_functionOfTrees : (trees : List TokenTree) → ∀ mark, mark.kind = .lambda →
    ∀ tokens t, Spells trees tokens → functionOfTrees trees = .ok t → IsTerm (mark :: tokens) t
  | [], _, _, _, _, _, h => by cases h
  | [binder], _, _, _, _, _, h => by
      simp only [functionOfTrees] at h
      split at h <;> cases h
  | binder :: dot :: body, mark, mark_kind, _, t, hspells, h => by
      obtain ⟨x, b, hx, hdot, hb, rfl⟩ := functionOfTrees_cons_cons_eq_ok_iff.1 h
      obtain ⟨_, _, tokens, rfl, binds, dot_kind, hbody⟩ := hspells.split_header hx hdot
      exact .function mark_kind binds dot_kind (isTerm_of_ofTrees body tokens b hbody hb)

end

mutual

theorem exists_ofTrees : ∀ {tokens t}, IsTerm tokens t →
    ∃ trees, Spells trees tokens ∧ ofTrees trees = .ok t
  | _, _, @IsTerm.function mark binder dot x _ b mark_kind binds dot_kind isTerm => by
      obtain ⟨body, hbody, hread⟩ := exists_ofTrees isTerm
      refine ⟨.leaf mark :: .leaf binder :: .leaf dot :: body,
        (spells_leaf mark_kind nofun nofun).append (hbody.header binds dot_kind nofun nofun), ?_⟩
      rw [ofTrees, if_pos (kind?_eq_some_iff.2 ⟨mark, rfl, mark_kind⟩),
        functionOfTrees_cons_cons_eq_ok_iff]
      exact ⟨x, b, binder?_eq_some_iff.2 ⟨binder, rfl, binds⟩,
        kind?_eq_some_iff.2 ⟨dot, rfl, dot_kind⟩, hread, rfl⟩
  | _, _, .row atoms => by
      obtain ⟨trees, htrees, hread⟩ := exists_argsOfTrees atoms
      exact ⟨trees, htrees, ofTrees_of_argsOfTrees hread⟩

theorem exists_ofTree : ∀ {tokens t}, IsAtom tokens t →
    ∃ tree, Spells [tree] tokens ∧ ofTree tree = .ok t
  | _, _, @IsAtom.builtin token op kind name =>
      ⟨.leaf token, spells_leaf kind nofun nofun, by simp only [ofTree, Token.atom, kind, name]⟩
  | _, _, @IsAtom.var token kind name =>
      ⟨.leaf token, spells_leaf kind nofun nofun, by simp only [ofTree, Token.atom, kind, name]⟩
  | _, _, @IsAtom.number token n kind numeral =>
      ⟨.leaf token, spells_leaf kind nofun nofun, by simp only [ofTree, Token.atom, kind, numeral]⟩
  | _, _, .group left_kind isTerm right_kind => by
      obtain ⟨trees, htrees, hread⟩ := exists_ofTrees isTerm
      refine ⟨.group trees, spells_group left_kind ?_ htrees right_kind, by rw [ofTree, hread]⟩
      rintro rfl
      cases hread

theorem exists_argsOfTrees : ∀ {tokens ts}, AreAtoms tokens ts →
    ∃ trees, Spells trees tokens ∧ argsOfTrees trees = .ok ts
  | _, _, .one isAtom => by
      obtain ⟨tree, htree, hread⟩ := exists_ofTree isAtom
      exact ⟨[tree], htree, argsOfTrees_cons_eq_ok_iff.2 ⟨_, [], hread, by rw [argsOfTrees], rfl⟩⟩
  | _, _, .more isAtom atoms => by
      obtain ⟨tree, htree, hread⟩ := exists_ofTree isAtom
      obtain ⟨trees, htrees, hreads⟩ := exists_argsOfTrees atoms
      exact ⟨tree :: trees, htree.append htrees,
        argsOfTrees_cons_eq_ok_iff.2 ⟨_, _, hread, hreads, rfl⟩⟩

end

theorem isStatement_of_ofTrees {trees : List TokenTree} {tokens : List Token}
    (hspells : Spells trees tokens) {s : Statement} (h : Statement.ofTrees trees = .ok s) :
    IsStatement tokens s := by
  cases trees with
  | nil => cases h
  | cons tree rest =>
      rw [Statement.ofTrees] at h
      split at h
      · rename_i hkind
        obtain ⟨keyword, rfl, keyword_kind⟩ := kind?_eq_some_iff.1 hkind
        obtain ⟨first, others, rfl, hfirst, hothers⟩ := hspells.split
        obtain rfl := hfirst.leaf
        rcases rest with _ | ⟨binder, _ | ⟨mark, body⟩⟩
        · cases h
        · simp only [Statement.definitionOfTrees] at h
          split at h <;> cases h
        · obtain ⟨x, t, hx, hmark, ht, rfl⟩ :=
            Statement.definitionOfTrees_cons_cons_eq_ok_iff.1 h
          obtain ⟨_, _, tokens, rfl, binds, mark_kind, hbody⟩ := hothers.split_header hx hmark
          exact .define keyword_kind binds mark_kind (isTerm_of_ofTrees body tokens t hbody ht)
      · obtain ⟨t, ht, h⟩ := Except.bind_eq_ok_iff.1 h
        cases h
        exact .evaluate (isTerm_of_ofTrees _ tokens t hspells ht)

theorem exists_statement_ofTrees {tokens : List Token} {s : Statement} (h : IsStatement tokens s) :
    ∃ trees, Spells trees tokens ∧ Statement.ofTrees trees = .ok s := by
  cases h with
  | @define keyword binder mark x _ t keyword_kind binds mark_kind isTerm =>
      obtain ⟨body, hbody, hread⟩ := exists_ofTrees isTerm
      refine ⟨.leaf keyword :: .leaf binder :: .leaf mark :: body,
        (spells_leaf keyword_kind nofun nofun).append (hbody.header binds mark_kind nofun nofun),
        ?_⟩
      rw [Statement.ofTrees, if_pos (kind?_eq_some_iff.2 ⟨keyword, rfl, keyword_kind⟩),
        Statement.definitionOfTrees_cons_cons_eq_ok_iff]
      exact ⟨x, t, binder?_eq_some_iff.2 ⟨binder, rfl, binds⟩,
        kind?_eq_some_iff.2 ⟨mark, rfl, mark_kind⟩, hread, rfl⟩
  | @evaluate _ t isTerm =>
      obtain ⟨trees, htrees, hread⟩ := exists_ofTrees isTerm
      refine ⟨trees, htrees, ?_⟩
      cases trees with
      | nil => cases hread
      | cons tree rest =>
          rw [Statement.ofTrees, if_neg (kind?_of_ofTrees hread), hread]
          rfl

theorem ofTokens_eq_ok_iff_isStatement {tokens : List Token} {s : Statement} :
    Statement.ofTokens tokens = .ok s ↔ IsStatement tokens s := by
  constructor
  · intro h
    obtain ⟨trees, htrees, h⟩ := Except.bind_eq_ok_iff.1 h
    exact isStatement_of_ofTrees (ofTokens_eq_ok_iff.1 htrees) h
  · intro h
    obtain ⟨trees, hspells, h⟩ := exists_statement_ofTrees h
    exact Except.bind_eq_ok_iff.2 ⟨trees, ofTokens_eq_ok_iff.2 hspells, h⟩

/-- The parser accepts exactly what the grammar derives, as the statement that it derives. Every
other list of tokens is a syntax error, and no list has two readings. -/
theorem parser_matches_grammar (tokens : List Token) :
    (∀ s, Statement.ofTokens tokens = .ok s ↔ IsStatement tokens s) ∧
    ((∃ e, Statement.ofTokens tokens = .error e) ↔ ¬ ∃ s, IsStatement tokens s) ∧
    ∀ s s', IsStatement tokens s → IsStatement tokens s' → s = s' := by
  refine ⟨fun s => ofTokens_eq_ok_iff_isStatement, ?_, ?_⟩
  · simp only [← ofTokens_eq_ok_iff_isStatement]
    cases Statement.ofTokens tokens <;> simp
  · intro s s' hs hs'
    have heq := (ofTokens_eq_ok_iff_isStatement.2 hs).symm.trans
      (ofTokens_eq_ok_iff_isStatement.2 hs')
    exact Except.ok.inj heq

def bracketedTokens : List Token :=
  [⟨.lambda, "\\"⟩, ⟨.name, "x"⟩, ⟨.dot, "."⟩, ⟨.leftParen, "["⟩, ⟨.name, "1+"⟩, ⟨.rightParen, "]"⟩,
    ⟨.number, "-1"⟩]

def bracketedStatement : Statement :=
  .evaluate (.fn "x" (.app [.builtin .increment, .lit (-1)]))

/-- The marks around a group count by their kinds, whatever their texts are; and a function is no
atom. -/
theorem parser_matches_grammar_bracketed :
    (IsStatement bracketedTokens bracketedStatement ∧
      ∀ s, IsStatement bracketedTokens s → s = bracketedStatement) ∧
    ¬ ∃ s, IsStatement [⟨.name, "f"⟩, ⟨.lambda, "\\"⟩, ⟨.name, "x"⟩, ⟨.dot, "."⟩, ⟨.name, "x"⟩]
      s := by
  have hread : Statement.ofTokens bracketedTokens = .ok bracketedStatement := rfl
  have hfail : Statement.ofTokens [⟨.name, "f"⟩, ⟨.lambda, "\\"⟩, ⟨.name, "x"⟩, ⟨.dot, "."⟩,
      ⟨.name, "x"⟩] = .error (.unexpectedToken "\\") := rfl
  obtain ⟨hiff, _, hunique⟩ := parser_matches_grammar bracketedTokens
  have hderived := (hiff _).1 hread
  refine ⟨⟨hderived, fun s hs => hunique s _ hs hderived⟩, ?_⟩
  exact (parser_matches_grammar _).2.1.1 ⟨_, hfail⟩

end Grammar
end LambdaInt
