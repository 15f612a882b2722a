import LambdaInt.Proofs.Agreement
import LambdaInt.Proofs.Sessions

/-!
The names of parameters do not matter to evaluation. Terms that differ in them at most have values
that do so, or fail alike, at every depth, as long as the names in scope have such values as well;
and sessions in which the lines differ so give answers that do.
-/

namespace LambdaInt

theorem rel_imp {α β : Type} {R S : α → β → Prop} {x : Option α} {y : Option β}
    (h : Option.Rel R x y) (hRS : ∀ a b, R a b → S a b) : Option.Rel S x y := by
  cases h with
  | none => exact .none
  | some values => exact .some (hRS _ _ values)

namespace Term

theorem alphaEquivalent_iff_resolve {t u : Term} :
    t.alphaEquivalent u = true ↔ t.resolve Nameless.free = u.resolve Nameless.free := by
  rw [alphaEquivalent_iff, nameless_eq_resolve, nameless_eq_resolve, named_nil]

theorem mem_freeVars_of_alphaEquivalent {t u : Term} (h : t.alphaEquivalent u = true) {x : String}
    (hx : x ∈ u.freeVars) : x ∈ t.freeVars := by
  have hsame := (alphaEquivalent_iff_resolve.1 h).symm
  obtain ⟨y, hy, heq⟩ := exists_freeVar_of_resolve_eq isVariable_free isVariable_free hsame hx
  cases heq
  exact hy

end Term

open Term

/-- Both scopes bind the same names, to values that differ at most in the names of parameters and
mention no names but those given. -/
def Scope.Alike (used : List String) (scope scope' : Scope) : Prop :=
  ∀ x, Option.Rel (fun v w => v.alphaEquivalent w = true ∧ ∀ y ∈ v.freeVars, y ∈ used)
    (scope.find? x) (scope'.find? x)

namespace Term

/-- The place outside of all functions. -/
def Place.outside (used : List String) (scope : Scope) : Place :=
  ⟨used, scope, Nameless.free, isVariable_free⟩

section
variable {used : List String} {scope scope' : Scope} (hscope : Scope.Alike used scope scope')
include hscope

theorem matches_outside : (Place.outside used scope).Matches (.outside used scope') where
  used hxy := by
    cases hxy
    exact Iff.rfl
  found {x y} hxy _ := by
    cases hxy
    have hvalues := hscope x
    generalize hleft : scope.find? x = left at hvalues
    generalize hright : scope'.find? x = right at hvalues
    cases hvalues with
    | none => exact .unbound hleft hright rfl
    | some values =>
        obtain ⟨hsame, hused⟩ := values
        refine .value hleft hright ⟨alphaEquivalent_iff_resolve.1 hsame, hused, ?_⟩
        exact fun y hy => hused y (mem_freeVars_of_alphaEquivalent hsame hy)

theorem reduce_agrees (depth : Nat) {t u : Term} (ht : t.alphaEquivalent u = true) :
    AgreeBy (fun v w => v.alphaEquivalent w = true) (t.reduce depth used scope)
      (u.reduce depth used scope') := by
  have hagree := agreesAt depth (matches_outside hscope) (alphaEquivalent_iff_resolve.1 ht)
  exact hagree.imp fun _ _ same => alphaEquivalent_iff_resolve.2 same.meaning

end
end Term

/-- The statements differ at most in the names of parameters. -/
inductive Statement.AlphaEquivalent : Statement → Statement → Prop
  | define (name : String) {t u : Term} (terms : t.alphaEquivalent u = true) :
      AlphaEquivalent (.define name t) (.define name u)
  | evaluate {t u : Term} (terms : t.alphaEquivalent u = true) :
      AlphaEquivalent (.evaluate t) (.evaluate u)

theorem Statement.AlphaEquivalent.term {s s' : Statement} (h : s.AlphaEquivalent s') :
    s.term.alphaEquivalent s'.term = true := by
  cases h with
  | define _ terms | evaluate terms => exact terms

namespace Session

/-- The sessions allow the same depth and have alike definitions. -/
structure Alike (session session' : Session) : Prop where
  maxDepth : session.maxDepth = session'.maxDepth
  bindings : Scope.Alike [] (.root session.bindings) (.root session'.bindings)

theorem alike_start (depth : Nat) : (start depth).Alike (start depth) :=
  ⟨rfl, fun _ => .none⟩

theorem Closed.alike {session : Session} (h : session.Closed) : session.Alike session := by
  refine ⟨rfl, fun x => ?_⟩
  rw [Scope.find?_root]
  cases hfind : session.bindings.find? x with
  | none => exact .none
  | some v =>
      refine .some ⟨alphaEquivalent_iff_resolve.2 rfl, fun y hy => ?_⟩
      rw [h x v hfind] at hy
      exact hy

section
variable {session session' : Session} (h : session.Alike session')
include h

theorem Alike.record {s s' : Statement} (hs : s.AlphaEquivalent s') {v w : Term}
    (hvw : v.alphaEquivalent w = true) (hv : ∀ x ∈ v.freeVars, x ∈ []) :
    (session.record s v).Alike (session'.record s' w) := by
  cases hs with
  | evaluate _ => exact h
  | define y _ =>
      refine ⟨h.maxDepth, fun x => ?_⟩
      have hbindings := h.bindings x
      rw [Scope.find?_root, Scope.find?_root] at hbindings ⊢
      change Option.Rel _ ((session.bindings.set y v).find? x) ((session'.bindings.set y w).find? x)
      rw [Frame.find?_set, Frame.find?_set]
      split
      · exact .some ⟨hvw, hv⟩
      · exact hbindings

theorem Alike.evaluate {s s' : Statement} (hs : s.AlphaEquivalent s') :
    AgreeBy (fun v w => v.alphaEquivalent w = true) (session.evaluate s).1
        (session'.evaluate s').1 ∧
      (session.evaluate s).2.Alike (session'.evaluate s').2 := by
  have hagree := reduce_agrees h.bindings session.maxDepth hs.term
  generalize hleft : s.term.reduce session.maxDepth [] (.root session.bindings) = left at hagree
  rw [h.maxDepth] at hagree
  generalize hright : s'.term.reduce session'.maxDepth [] (.root session'.bindings) = right
    at hagree
  cases hagree with
  | error e =>
      rw [evaluate_of_error hleft, evaluate_of_error hright]
      exact ⟨.error e, h⟩
  | ok values =>
      rw [evaluate_of_ok hleft, evaluate_of_ok hright]
      exact ⟨.ok values, h.record hs values (tidy_of_reduce hleft).inScope⟩

theorem Alike.runLine {line line' : String}
    (hread : AgreeBy Statement.AlphaEquivalent (Statement.ofText line) (Statement.ofText line')) :
    AgreeBy (fun v w => v.alphaEquivalent w = true) (session.runLine line).1
        (session'.runLine line').1 ∧
      (session.runLine line).2.Alike (session'.runLine line').2 := by
  unfold Session.runLine
  generalize Statement.ofText line = left at hread
  generalize Statement.ofText line' = right at hread
  cases hread with
  | error e => exact ⟨.error _, h⟩
  | ok hs =>
      obtain ⟨hagree, hnext⟩ := h.evaluate hs
      exact ⟨hagree.mapError _, hnext⟩

theorem Alike.runLines {lines lines' : List String}
    (hread : List.Forall₂
      (fun l l' => AgreeBy Statement.AlphaEquivalent (Statement.ofText l) (Statement.ofText l'))
      lines lines') :
    List.Forall₂ (AgreeBy fun v w => v.alphaEquivalent w = true) (session.runLines lines).1
        (session'.runLines lines').1 ∧
      (session.runLines lines).2.Alike (session'.runLines lines').2 := by
  induction hread generalizing session session' with
  | nil => exact ⟨.nil, h⟩
  | cons hline _ ih =>
      obtain ⟨hagree, hnext⟩ := h.runLine hline
      obtain ⟨hanswers, hlast⟩ := ih hnext
      exact ⟨.cons hagree hanswers, hlast⟩

end
end Session

/-- Evaluation respects the renaming of parameters. At every depth, terms that differ at most in the
names of parameters, in scopes that are alike, have values that differ so, or the same error. Lines
that are read as such terms, or not read for the same cause, get such answers in a session, and its
definitions differ at most in the names of parameters after them. -/
theorem alpha_invariance :
    (∀ (depth : Nat) (used : List String) (scope scope' : Scope) (t u : Term),
      t.alphaEquivalent u = true → Scope.Alike used scope scope' →
        AgreeBy (fun v w => v.alphaEquivalent w = true) (t.reduce depth used scope)
          (u.reduce depth used scope')) ∧
    ∀ (depth : Nat) (lines lines' : List String),
      List.Forall₂
        (fun l l' => AgreeBy Statement.AlphaEquivalent (Statement.ofText l) (Statement.ofText l'))
        lines lines' →
      List.Forall₂ (AgreeBy fun v w => v.alphaEquivalent w = true)
        ((Session.start depth).runLines lines).1 ((Session.start depth).runLines lines').1 ∧
      ∀ x, Option.Rel (fun v w => v.alphaEquivalent w = true)
        (((Session.start depth).runLines lines).2.bindings.find? x)
        (((Session.start depth).runLines lines').2.bindings.find? x) := by
  constructor
  · intro depth used scope scope' t u ht hscope
    exact reduce_agrees hscope depth ht
  · intro depth lines lines' hread
    obtain ⟨hanswers, hlast⟩ := (Session.alike_start depth).runLines hread
    refine ⟨hanswers, fun x => ?_⟩
    have hbindings := hlast.bindings x
    rw [Scope.find?_root, Scope.find?_root] at hbindings
    exact rel_imp hbindings fun _ _ => And.left

def pairingScope : Scope :=
  .root (Frame.empty.set "f" (fn "y" (fn "z" (app [var "y", var "x", var "z"]))))

def pairingScope' : Scope :=
  .root (Frame.empty.set "f" (fn "x'" (fn "a" (app [var "x'", var "x", var "a"]))))

def pairingTerm : Term :=
  fn "x" (fn "x'" (app [var "f", var "x", var "x'"]))

def pairingTerm' : Term :=
  fn "a" (fn "x" (app [var "f", var "a", var "x"]))

def comparedLines : List String :=
  ["let k = λx.λy.x", "λy.k y", "k z", "k)"]

def comparedLines' : List String :=
  ["let k = λk.λx.k", "λx.k x", "k z", "k)"]

/-- The outer parameter of the first term is renamed, as `x` is used, and that past `x'`, which is a
parameter as well; in the second it is the inner one, and the value has a parameter of that name.
A parameter of the second session is named as a definition is. -/
theorem alpha_invariance_renamed :
    (pairingTerm.alphaEquivalent pairingTerm' = true ∧
      Scope.Alike ["x"] pairingScope pairingScope' ∧
      pairingTerm.reduce 9 ["x"] pairingScope =
        .ok (fn "x''" (fn "x'" (app [var "x''", var "x", var "x'"]))) ∧
      AgreeBy (fun v w => v.alphaEquivalent w = true)
        (.ok (fn "x''" (fn "x'" (app [var "x''", var "x", var "x'"]))))
        (pairingTerm'.reduce 9 ["x"] pairingScope')) ∧
    List.Forall₂
        (fun l l' => AgreeBy Statement.AlphaEquivalent (Statement.ofText l) (Statement.ofText l'))
        comparedLines comparedLines' ∧
      List.Forall₂ (AgreeBy fun v w => v.alphaEquivalent w = true)
        ((Session.start 9).runLines comparedLines).1
        ((Session.start 9).runLines comparedLines').1 := by
  have ht : pairingTerm.alphaEquivalent pairingTerm' = true := by cbv
  have hscope : Scope.Alike ["x"] pairingScope pairingScope' := by
    intro x
    rw [pairingScope, pairingScope', Scope.find?_root, Scope.find?_root, Frame.find?_set,
      Frame.find?_set]
    split
    · exact .some ⟨by cbv, by decide⟩
    · exact .none
  have hreduce : pairingTerm.reduce 9 ["x"] pairingScope =
      .ok (fn "x''" (fn "x'" (app [var "x''", var "x", var "x'"]))) := by cbv
  have hagree := alpha_invariance.1 9 ["x"] _ _ _ _ ht hscope
  rw [hreduce] at hagree
  have hdefine : AgreeBy Statement.AlphaEquivalent (Statement.ofText "let k = λx.λy.x")
      (Statement.ofText "let k = λk.λx.k") := by
    have h : Statement.ofText "let k = λx.λy.x" =
        .ok (.define "k" (fn "x" (fn "y" (var "x")))) := by cbv
    have h' : Statement.ofText "let k = λk.λx.k" =
        .ok (.define "k" (fn "k" (fn "x" (var "k")))) := by cbv
    rw [h, h']
    exact .ok (.define "k" (by cbv))
  have heta : AgreeBy Statement.AlphaEquivalent (Statement.ofText "λy.k y")
      (Statement.ofText "λx.k x") := by
    have h : Statement.ofText "λy.k y" = .ok (.evaluate (fn "y" (app [var "k", var "y"]))) := by cbv
    have h' : Statement.ofText "λx.k x" = .ok (.evaluate (fn "x" (app [var "k", var "x"]))) := by
      cbv
    rw [h, h']
    exact .ok (.evaluate (by cbv))
  have happlied : AgreeBy Statement.AlphaEquivalent (Statement.ofText "k z")
      (Statement.ofText "k z") := by
    have h : Statement.ofText "k z" = .ok (.evaluate (app [var "k", var "z"])) := by cbv
    rw [h]
    exact .ok (.evaluate (by cbv))
  have hmalformed : AgreeBy Statement.AlphaEquivalent (Statement.ofText "k)")
      (Statement.ofText "k)") := by
    have h : Statement.ofText "k)" = .error .unexpectedClosingParen := by cbv
    rw [h]
    exact .error _
  have hread : List.Forall₂
      (fun l l' => AgreeBy Statement.AlphaEquivalent (Statement.ofText l) (Statement.ofText l'))
      comparedLines comparedLines' :=
    .cons hdefine (.cons heta (.cons happlied (.cons hmalformed .nil)))
  exact ⟨⟨ht, hscope, hreduce, hagree⟩, hread, (alpha_invariance.2 9 _ _ hread).1⟩

end LambdaInt
