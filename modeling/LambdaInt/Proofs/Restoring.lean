import LambdaInt.Proofs.NormalForm
import LambdaInt.Proofs.Reading
import Mathlib

/-!
Values as text. A value of a session is a normal form that can be written and needs no more depth
than the session has, so its text, run as a line, gives the value again, in every session that
allows that depth. The definitions of a session, written line by line, therefore restore it.
-/

namespace LambdaInt

/-- A prime makes another identifier of an identifier. -/
theorem IsIdentifier.prime {x : String} (h : IsIdentifier x) : IsIdentifier (x ++ "'") := by
  obtain ⟨_, hword, _, _, _⟩ := h
  have hlist : (x ++ "'").toList = x.toList ++ ['\''] := String.toList_append
  have hlast : (x ++ "'").toList.getLast? = some '\'' := by rw [hlist, List.getLast?_concat]
  have hne (y : String) (hy : y.toList.getLast? ≠ some '\'') : x ++ "'" ≠ y := by
    intro heq
    rw [heq] at hlast
    exact hy hlast
  refine ⟨hne "" (by decide), ?_, hne "let" (by decide), ?_, ?_⟩
  · intro c hc
    rw [hlist, List.mem_append] at hc
    obtain hc | hc := hc
    · exact hword c hc
    · obtain rfl := List.mem_singleton.1 hc
      decide
  · rw [hlist, List.all_append]
    exact Bool.and_false _
  · cases hname : Builtin.ofName? (x ++ "'") with
    | none => rfl
    | some op =>
        refine absurd (Builtin.ofName?_eq_some_iff.1 hname) (hne op.name ?_)
        cases op <;> decide

theorem IsIdentifier.freshen {x : String} (h : IsIdentifier x) (avoid : List String) :
    IsIdentifier (freshen avoid x) := by
  fun_induction LambdaInt.freshen avoid x with
  | case1 avoid x _ ih => exact ih h.prime
  | case2 => exact h

namespace Term

theorem Printable.wellFormed {t : Term} (h : t.Printable) : t.WellFormed := by
  induction t with
  | var _ | lit _ | builtin _ => trivial
  | fn p b ih => exact ih h.2
  | app ts ih =>
      obtain ⟨hlen, hts⟩ := printable_app.1 h
      exact wellFormed_app.2 ⟨hlen, fun t ht => ih t ht (hts t ht)⟩

theorem printable_rename {old new : String} (hnew : IsIdentifier new) {t : Term}
    (h : t.Printable) : (t.rename old new).Printable := by
  induction t with
  | var x =>
      rw [rename]
      split
      · exact hnew
      · exact h
  | lit _ | builtin _ => exact h
  | fn p b ih =>
      rw [rename]
      split
      · exact h
      · exact ⟨h.1, ih h.2⟩
  | app ts ih =>
      obtain ⟨hlen, hts⟩ := printable_app.1 h
      rw [rename, renameAll_eq_map]
      refine printable_app.2 ⟨by simpa using hlen, ?_⟩
      intro u hu
      obtain ⟨t, ht, rfl⟩ := List.mem_map.1 hu
      exact ih t ht (hts t ht)

theorem printable_renameApart {used : List String} {p q : String} {b c : Term}
    (h : renameApart used p b = (q, c)) (hfn : (fn p b).Printable) : (fn q c).Printable := by
  unfold renameApart at h
  split at h
  · cases h
    have hfresh : IsIdentifier (freshen (used ++ b.allVars) p) := hfn.1.freshen _
    exact ⟨hfresh, printable_rename hfresh hfn.2⟩
  · cases h
    exact hfn

/-- Reduction makes no negative integer and no name that could not be read. -/
theorem keeps_printable :
    Keeps (fun _ scope t => t.Printable ∧ scope.All Printable) fun _ => Printable where
  body hqc h := by
    obtain ⟨hq, hc⟩ := printable_renameApart hqc h.1
    exact ⟨hc, h.2.set hq⟩
  member h ht := ⟨(printable_app.1 h.1).2 _ ht, h.2⟩
  value h _ hfind := ⟨h.2 _ _ hfind, h.2⟩
  argument hqc h hf ha := ⟨(printable_renameApart hqc hf).2, h.2.set ha⟩
  var h _ := h.1
  lit h := h.1
  builtin _ := trivial
  fn {used scope q c r} h _ hr := by
    have hfind : (scope.child.set q (Term.var q)).find? q = some (Term.var q) := by simp
    exact ⟨h.2 q _ hfind, hr⟩
  nil h := h.1
  call hvalues yields := yields.nonneg hvalues
  wait hwaits hhead hargs := by
    have hlen : 1 ≤ List.length _ := List.length_pos_iff.2 hwaits.ne_nil
    exact printable_app.2 ⟨Nat.succ_le_succ hlen, List.forall_mem_cons.2 ⟨hhead, hargs⟩⟩
  extend hterms hargs := by
    obtain ⟨hlen, hts⟩ := printable_app.1 hterms
    refine printable_app.2 ⟨?_, List.forall_mem_append.2 ⟨hts, hargs⟩⟩
    rw [List.length_append]
    omega

/-- What the values of a session are that allows the depth. -/
structure Restorable (depth : Nat) (v : Term) : Prop where
  printable : v.Printable
  normal : v.Normal
  tidy : Tidy [] v
  height_le : v.height ≤ depth

theorem restorable_of_reduce {depth : Nat} {scope : Scope} {t v : Term} (ht : t.Printable)
    (hscope : scope.All Printable) (h : t.reduce depth [] scope = .ok v) : Restorable depth v where
  printable := keeps_printable.reduce h ⟨ht, hscope⟩
  normal := normal_of_reduce h ht.wellFormed fun x w hfind => (hscope x w hfind).wellFormed
  tidy := tidy_of_reduce h
  height_le := height_le_of_reduce h

theorem Restorable.reduce {depth : Nat} {v : Term} (h : Restorable depth v) {more : Nat}
    (hmore : depth ≤ more) (scope : Scope) : v.reduce more [] scope = .ok v :=
  h.normal.reduce_self h.tidy (Nat.le_trans h.height_le hmore) scope

end Term

open Term

namespace Session

/-- The line that makes a definition again. -/
def restoringLine (entry : String × Term) : String :=
  "let " ++ entry.1 ++ " = " ++ entry.2.render

/-- The session has the depth, and its definitions can be restored at it. -/
def IsRestorable (depth : Nat) (session : Session) : Prop :=
  session.maxDepth = depth ∧
    ∀ x v, session.bindings.find? x = some v → IsIdentifier x ∧ v.Restorable depth

theorem isRestorable_start (depth : Nat) : (start depth).IsRestorable depth :=
  ⟨rfl, fun x v h => by cases h⟩

theorem IsRestorable.all_printable {depth : Nat} {session : Session}
    (h : session.IsRestorable depth) : (Scope.root session.bindings).All Term.Printable := by
  intro x v hfind
  rw [Scope.find?_root] at hfind
  exact (h.2 x v hfind).2.printable

theorem IsRestorable.evaluate {depth : Nat} (session : Session) (statement : Statement)
    (h : session.IsRestorable depth) (hs : statement.Printable) :
    (session.evaluate statement).2.IsRestorable depth ∧
      ∀ v, (session.evaluate statement).1 = .ok v → v.Restorable depth := by
  have ⟨hdepth, hbindings⟩ := h
  have hvalue (v : Term)
      (hv : statement.term.reduce session.maxDepth [] (.root session.bindings) = .ok v) :
      v.Restorable depth :=
    restorable_of_reduce hs.term h.all_printable (hdepth ▸ hv)
  have hname (x : String) (t v : Term) (hdefine : statement = .define x t)
      (hv : v.Restorable depth) : IsIdentifier x ∧ v.Restorable depth := by
    subst hdefine
    exact ⟨hs.1, hv⟩
  obtain ⟨hnext, hresult⟩ := evaluate_keeps hvalue hname hbindings
  exact ⟨⟨(evaluate_maxDepth session statement).trans hdepth, hnext⟩, hresult⟩

theorem isRestorable_runLines (depth : Nat) (lines : List String) :
    ((start depth).runLines lines).2.IsRestorable depth ∧
      ∀ v, .ok v ∈ ((start depth).runLines lines).1 → v.Restorable depth :=
  runLines_keeps IsRestorable.evaluate (isRestorable_start depth)
    fun _ _ _ hs => Statement.printable_of_ofText hs

theorem ofText_restoringLine {x : String} {v : Term} (hx : IsIdentifier x) (hv : v.Printable) :
    Statement.ofText (restoringLine (x, v)) = .ok (.define x v) :=
  Statement.ofText_eq_of_printable (s := .define x v) ⟨hx, hv⟩

section
variable {depth : Nat} {v : Term} (hv : v.Restorable depth) {session : Session}
  (hdepth : depth ≤ session.maxDepth)
include hv hdepth

/-- The text of a value, run as a line, gives the value and changes nothing. -/
theorem runLine_render : session.runLine v.render = (.ok v, session) := by
  have hread : Statement.ofText v.render = .ok (.evaluate v) :=
    Statement.ofText_eq_of_printable (s := .evaluate v) hv.printable
  have hreduce := hv.reduce hdepth (.root session.bindings)
  simp only [runLine, hread, evaluate, Statement.term, hreduce]
  rfl

theorem runLine_restoringLine {x : String} (hx : IsIdentifier x) :
    session.runLine (restoringLine (x, v)) =
      (.ok v, ⟨session.bindings.set x v, session.maxDepth⟩) := by
  have hreduce := hv.reduce hdepth (.root session.bindings)
  simp only [runLine, ofText_restoringLine hx hv.printable, evaluate, Statement.term, hreduce]
  rfl

end

/-- Restoring lines set their names and leave the others. -/
theorem find?_runLines_restoringLine {depth : Nat} {entries : List (String × Term)}
    (hentries : ∀ e ∈ entries, IsIdentifier e.1 ∧ e.2.Restorable depth)
    (hnodup : (entries.map Prod.fst).Nodup) (session : Session) (hdepth : depth ≤ session.maxDepth)
    (x : String) (v : Term) :
    (session.runLines (entries.map restoringLine)).2.bindings.find? x = some v ↔
      (x, v) ∈ entries ∨ x ∉ entries.map Prod.fst ∧ session.bindings.find? x = some v := by
  induction entries generalizing session with
  | nil => simp [runLines]
  | cons e entries ih =>
      obtain ⟨y, w⟩ := e
      obtain ⟨⟨hy, hw⟩, hrest⟩ := List.forall_mem_cons.1 hentries
      obtain ⟨hfresh, hnodup⟩ := List.nodup_cons.1 hnodup
      have hrun := runLine_restoringLine hw hdepth hy
      simp only [List.map_cons, runLines, hrun]
      rw [ih hrest hnodup ⟨session.bindings.set y w, session.maxDepth⟩ hdepth, Frame.find?_set]
      by_cases hxy : x = y
      · subst hxy
        have hmem : (x, v) ∉ entries := fun h => hfresh (List.mem_map.2 ⟨(x, v), h, rfl⟩)
        simp [hmem, hfresh, eq_comm]
      · simp [hxy]

end Session

/-- Every value that a session answers is read back from its text, by every session that allows
the depth; every definition is made again by its line; and the lines of all definitions, in any
order, restore the definitions. -/
theorem session_restorable (depth : Nat) (lines : List String) :
    (∀ v, .ok v ∈ ((Session.start depth).runLines lines).1 →
      ∀ session : Session, depth ≤ session.maxDepth →
        session.runLine v.render = (.ok v, session)) ∧
    (∀ x v, (x, v) ∈ ((Session.start depth).runLines lines).2.globalBindings →
      Statement.ofText ("let " ++ x ++ " = " ++ v.render) = .ok (.define x v) ∧
      ∀ session : Session, depth ≤ session.maxDepth →
        session.runLine ("let " ++ x ++ " = " ++ v.render) =
          (.ok v, ⟨session.bindings.set x v, session.maxDepth⟩)) ∧
    ∀ entries : List (String × Term),
      entries.Perm ((Session.start depth).runLines lines).2.globalBindings →
      ∀ more, depth ≤ more →
        ((Session.start more).runLines
          (entries.map fun (x, v) => "let " ++ x ++ " = " ++ v.render)).2.bindings =
          ((Session.start depth).runLines lines).2.bindings := by
  obtain ⟨⟨_, hbindings⟩, hvalues⟩ := Session.isRestorable_runLines depth lines
  rw [Session.globalBindings_eq]
  refine ⟨?_, ?_, ?_⟩
  · intro v hv session hdepth
    exact Session.runLine_render (hvalues v hv) hdepth
  · intro x v hxv
    obtain ⟨hx, hv⟩ := hbindings x v (Frame.find?_eq_some_iff.2 hxv)
    refine ⟨Session.ofText_restoringLine hx hv.printable, ?_⟩
    intro session hdepth
    exact Session.runLine_restoringLine hv hdepth hx
  · intro entries hperm more hmore
    have hnodup : (entries.map Prod.fst).Nodup := by
      refine (hperm.map Prod.fst).nodup_iff.2 ?_
      refine (Frame.names_sorted _).imp ?_
      intro x y hlt heq
      exact String.lt_irrefl y (heq ▸ hlt)
    have hentries : ∀ e ∈ entries, IsIdentifier e.1 ∧ e.2.Restorable depth := fun e he =>
      hbindings e.1 e.2 (Frame.find?_eq_some_iff.2 (hperm.mem_iff.1 he))
    apply Frame.ext_find?
    intro x
    apply Option.ext
    intro v
    have hfind := Session.find?_runLines_restoringLine hentries hnodup (.start more) hmore x v
    have hstart : (Session.start more).bindings.find? x ≠ some v := fun h => by cases h
    calc
      _ ↔ (x, v) ∈ entries := hfind.trans (or_iff_left fun h => hstart h.2)
      _ ↔ (x, v) ∈ ((Session.start depth).runLines lines).2.bindings.entries := hperm.mem_iff
      _ ↔ _ := Frame.find?_eq_some_iff.symm

def constantLines : List String :=
  ["let k = λx.λy.x", "λy. k y"]

def constant : Term :=
  fn "x" (fn "y" (var "x"))

def constantApplied : Term :=
  fn "y" (fn "y'" (var "y"))

def otherSession : Session :=
  ⟨Frame.empty.set "y" (lit 7), 20⟩

/-- The renamed parameter of the second answer survives in a session where `y` means something. -/
theorem session_restorable_renamed :
    (.ok constantApplied ∈ ((Session.start 9).runLines constantLines).1 ∧
      otherSession.runLine constantApplied.render = (.ok constantApplied, otherSession)) ∧
    (("k", constant) ∈ ((Session.start 9).runLines constantLines).2.globalBindings ∧
      (Session.start 9).runLine ("let " ++ "k" ++ " = " ++ constant.render) =
        (.ok constant, ⟨Frame.empty.set "k" constant, 9⟩)) ∧
    ((Session.start 9).runLines
        ([("k", constant)].map fun (x, v) => "let " ++ x ++ " = " ++ v.render)).2.bindings =
      ((Session.start 9).runLines constantLines).2.bindings := by
  have hanswers : ((Session.start 9).runLines constantLines).1 =
      [.ok constant, .ok constantApplied] := by cbv
  have hentries : ((Session.start 9).runLines constantLines).2.globalBindings =
      [("k", constant)] := by cbv
  obtain ⟨hvalue, hbinding, hall⟩ := session_restorable 9 constantLines
  have hv : .ok constantApplied ∈ ((Session.start 9).runLines constantLines).1 := by
    rw [hanswers]
    exact .tail _ (.head _)
  have hk : ("k", constant) ∈ ((Session.start 9).runLines constantLines).2.globalBindings := by
    rw [hentries]
    exact .head _
  refine ⟨⟨hv, hvalue _ hv _ (by decide)⟩, ⟨hk, ?_⟩, hall _ (.of_eq hentries.symm) 9 (by decide)⟩
  exact (hbinding _ _ hk).2 (.start 9) (by decide)

end LambdaInt
