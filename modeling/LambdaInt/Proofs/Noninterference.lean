import LambdaInt.Proofs.Hygiene
import LambdaInt.Proofs.Renaming
import Mathlib

/-!
Definitions that a term does not mention make no difference to it. Two scopes that find the same
values for its free names give it the same outcome, name for name: names in use are not looked up,
values mention names in use only, and a parameter is renamed by what its function holds. So lines
of a session that have nothing to do with some names are answered as if the others were left out,
and definitions that do not mention each other can change places.
-/

namespace LambdaInt
open Term

/-- Both scopes find the same value, which mentions used names only, for each free name of the term
that is not used. -/
def Scope.SameFor (used : List String) (t : Term) (scope scope' : Scope) : Prop :=
  ∀ x ∈ t.freeVars, x ∉ used → scope.find? x = scope'.find? x ∧
    ∀ v, scope.find? x = some v → ∀ y ∈ v.freeVars, y ∈ used

namespace Scope.SameFor
variable {used : List String} {scope scope' : Scope} {t : Term}

theorem of_inScope (h : ∀ x ∈ t.freeVars, x ∈ used) : SameFor used t scope scope' :=
  fun x hx hnot => absurd (h x hx) hnot

theorem member {ts : List Term} (h : SameFor used (app ts) scope scope') (ht : t ∈ ts) :
    SameFor used t scope scope' :=
  fun x hx hnot => h x (mem_freeVars_app.2 ⟨t, ht, hx⟩) hnot

theorem body {p q : String} {b c : Term} (h : SameFor used (fn p b) scope scope')
    (hqc : renameApart used p b = (q, c)) :
    SameFor (q :: used) c (scope.child.set q (var q)) (scope'.child.set q (var q)) := by
  intro x hx hnot
  obtain ⟨hxq, hnot⟩ := not_or.1 (mt List.mem_cons.2 hnot)
  have hfree := (eq_or_mem_of_renameApart hqc hx).resolve_left hxq
  obtain ⟨hsame, hvalue⟩ := h x hfree hnot
  rw [find?_set, find?_set, find?_child, find?_child, if_neg hxq, if_neg hxq]
  exact ⟨hsame, fun v hv y hy => List.mem_cons_of_mem q (hvalue v hv y hy)⟩

/-- In the body of a value only the parameter is not used, and that has the argument. -/
theorem argument {p q : String} {a b c : Term} (hf : Tidy used (fn p b)) (ha : Tidy used a)
    (hqc : renameApart used p b = (q, c)) :
    SameFor used c (scope.child.set q a) (scope'.child.set q a) := by
  intro x hx hnot
  obtain rfl | hmem := List.mem_cons.1 (inScope_renameApart hqc hf.inScope x hx)
  · rw [find?_set, find?_set, if_pos rfl, if_pos rfl]
    exact ⟨rfl, fun v hv => Option.some.inj hv ▸ ha.inScope⟩
  · exact absurd hmem hnot

end Scope.SameFor

namespace Term
open Scope (SameFor)

section
variable {depth : Nat} {used : List String} {scope scope' : Scope}
  (ih : ∀ {scope scope' : Scope} {t : Term}, SameFor used t scope scope' →
    t.reduce depth used scope = t.reduce depth used scope')
include ih

theorem applyTo_same {head : Term} {args : List Term} (hhead : Tidy used head)
    (hargs : ∀ a ∈ args, Tidy used a) :
    applyTo (betaBy (reduce depth used) used scope) head args =
      applyTo (betaBy (reduce depth used) used scope') head args := by
  induction args generalizing head with
  | nil => rw [applyTo_nil, applyTo_nil]
  | cons a args ihargs =>
      obtain ⟨ha, hargs⟩ := List.forall_mem_cons.1 hargs
      cases head with
      | fn p b =>
          cases hqc : renameApart used p b with
          | mk q c =>
              rw [applyTo_fn, applyTo_fn, betaBy_of_renameApart hqc, betaBy_of_renameApart hqc,
                ih (SameFor.argument hhead ha hqc)]
              cases hbody : c.reduce depth used (scope'.child.set q a) with
              | error e => rfl
              | ok u => exact ihargs (tidy_of_reduce hbody) hargs
      | _ => rfl

theorem app_same {head : Term} {args : List Term}
    (h : SameFor used (app (head :: args)) scope scope') :
    (app (head :: args)).reduce (depth + 1) used scope =
      (app (head :: args)).reduce (depth + 1) used scope' := by
  have hmapM : args.mapM (reduce depth used scope) = args.mapM (reduce depth used scope') :=
    Except.mapM_congr fun t ht => ih (h.member (List.mem_cons_of_mem head ht))
  rw [reduce_app_cons, reduce_app_cons, ih (h.member List.mem_cons_self), hmapM]
  cases hhead : head.reduce depth used scope' with
  | error e => rfl
  | ok head' =>
      cases hargs : args.mapM (reduce depth used scope') with
      | error e => rfl
      | ok args' =>
          refine applyTo_same ih (tidy_of_reduce hhead) fun a ha => ?_
          obtain ⟨t, _, hred⟩ := exists_mem_of_forall₂ (Except.mapM_eq_ok_iff.1 hargs) ha
          exact tidy_of_reduce hred

end

/-- Reduction depends on the scope by the values of free names only. -/
theorem reduce_same {depth : Nat} {used : List String} {scope scope' : Scope} {t : Term}
    (h : SameFor used t scope scope') :
    t.reduce depth used scope = t.reduce depth used scope' := by
  induction depth generalizing used scope scope' t with
  | zero => rfl
  | succ depth ih =>
      cases t with
      | lit _ | builtin _ => rfl
      | var x =>
          by_cases hx : x ∈ used
          · rw [reduce_var_of_mem hx, reduce_var_of_mem hx]
          · obtain ⟨hsame, hvalue⟩ := h x List.mem_cons_self hx
            cases hfind : scope.find? x with
            | none =>
                rw [reduce_var_of_unbound hx hfind, reduce_var_of_unbound hx (hsame ▸ hfind)]
            | some v =>
                rw [reduce_var_of_find? hx hfind, reduce_var_of_find? hx (hsame ▸ hfind)]
                exact ih (.of_inScope (hvalue v hfind))
      | fn p b =>
          cases hqc : renameApart used p b with
          | mk q c =>
              rw [reduce_fn_of_renameApart hqc, reduce_fn_of_renameApart hqc, ih (h.body hqc)]
      | app ts =>
          cases ts with
          | nil => rfl
          | cons head args => exact app_same ih h

end Term

/-- The names that the statement defines or mentions. -/
def Statement.names : Statement → List String
  | define x t => x :: t.freeVars
  | evaluate t => t.freeVars

theorem Statement.mem_names_of_mem_freeVars {s : Statement} {x : String}
    (h : x ∈ s.term.freeVars) : x ∈ s.names := by
  cases s with
  | define y t => exact List.mem_cons_of_mem y h
  | evaluate t => exact h

namespace Session

/-- The names that the line defines or mentions; a line that is malformed has none. -/
def namesOf (line : String) : List String :=
  match Statement.ofText line with
  | .ok statement => statement.names
  | .error _ => []

/-- The line has to do with none of the names. -/
def unrelated (names : List String) (line : String) : Bool :=
  (namesOf line).all fun x => x ∉ names

/-- A definition among the lines that mentions one of the names defines one of them. -/
def Confined (names lines : List String) : Prop :=
  ∀ line ∈ lines, ∀ y t, Statement.ofText line = .ok (.define y t) →
    (∃ x ∈ t.freeVars, x ∈ names) → y ∈ names

/-- The answers to those of the lines that are chosen. -/
def answersTo (session : Session) (chosen : String → Bool) (lines : List String) : List Answer :=
  ((lines.zip (session.runLines lines).1).filter fun entry => chosen entry.1).map Prod.snd

/-- The sessions differ in the definitions of the names at most. -/
structure SameOutside (names : List String) (session session' : Session) : Prop where
  maxDepth : session.maxDepth = session'.maxDepth
  bindings : ∀ x, x ∉ names → session.bindings.find? x = session'.bindings.find? x

theorem SameOutside.refl (names : List String) (session : Session) :
    SameOutside names session session :=
  ⟨rfl, fun _ _ => rfl⟩

theorem SameOutside.symm {names : List String} {s s' : Session} (h : SameOutside names s s') :
    SameOutside names s' s :=
  ⟨h.maxDepth.symm, fun x hx => (h.bindings x hx).symm⟩

theorem SameOutside.trans {names : List String} {s s' s'' : Session} (h : SameOutside names s s')
    (h' : SameOutside names s' s'') : SameOutside names s s'' :=
  ⟨h.maxDepth.trans h'.maxDepth, fun x hx => (h.bindings x hx).trans (h'.bindings x hx)⟩

section
variable {names : List String} {session session' : Session} {statement : Statement}

theorem SameOutside.record (h : SameOutside names session session') (statement : Statement)
    (v : Term) : SameOutside names (session.record statement v) (session'.record statement v) := by
  cases statement with
  | evaluate t => exact h
  | define y t =>
      refine ⟨h.maxDepth, fun x hx => ?_⟩
      change (session.bindings.set y v).find? x = (session'.bindings.set y v).find? x
      rw [Frame.find?_set, Frame.find?_set, h.bindings x hx]

/-- Sessions that differ in names which a statement has nothing to do with give it the same result,
and still differ in these names at most. -/
theorem SameOutside.evaluate (h : SameOutside names session session') (closed : session.Closed)
    (hs : ∀ x ∈ statement.names, x ∉ names) :
    (session.evaluate statement).1 = (session'.evaluate statement).1 ∧
      SameOutside names (session.evaluate statement).2 (session'.evaluate statement).2 := by
  have hsame : Scope.SameFor [] statement.term (.root session.bindings)
      (.root session'.bindings) := by
    intro x hx _
    rw [Scope.find?_root, Scope.find?_root]
    refine ⟨h.bindings x (hs x (Statement.mem_names_of_mem_freeVars hx)), fun v hv y hy => ?_⟩
    rw [closed x v hv] at hy
    exact hy
  have hreduce : statement.term.reduce session.maxDepth [] (.root session.bindings) =
      statement.term.reduce session.maxDepth [] (.root session'.bindings) := reduce_same hsame
  cases hright : statement.term.reduce session'.maxDepth [] (.root session'.bindings) with
  | error e =>
      rw [h.maxDepth, hright, ← h.maxDepth] at hreduce
      rw [evaluate_of_error hreduce, evaluate_of_error hright]
      exact ⟨rfl, h⟩
  | ok v =>
      rw [h.maxDepth, hright, ← h.maxDepth] at hreduce
      rw [evaluate_of_ok hreduce, evaluate_of_ok hright]
      exact ⟨rfl, h.record statement v⟩

/-- A statement that defines none but the names changes nothing else. -/
theorem sameOutside_evaluate (session : Session)
    (hs : ∀ x t, statement = .define x t → x ∈ names) :
    SameOutside names session (session.evaluate statement).2 := by
  cases hreduce : statement.term.reduce session.maxDepth [] (.root session.bindings) with
  | error e =>
      rw [evaluate_of_error hreduce]
      exact .refl names session
  | ok v =>
      rw [evaluate_of_ok hreduce]
      cases statement with
      | evaluate t => exact .refl names session
      | define y t =>
          refine ⟨rfl, fun x hx => ?_⟩
          have hxy : x ≠ y := fun heq => hx (heq ▸ hs y t rfl)
          change session.bindings.find? x = (session.bindings.set y v).find? x
          rw [Frame.find?_set, if_neg hxy]

theorem unrelated_iff {line : String} :
    unrelated names line = true ↔
      ∀ statement, Statement.ofText line = .ok statement → ∀ x ∈ statement.names, x ∉ names := by
  unfold unrelated namesOf
  cases Statement.ofText line <;> simp

theorem SameOutside.runLine {line : String} (h : SameOutside names session session')
    (closed : session.Closed) (hline : unrelated names line = true) :
    (session.runLine line).1 = (session'.runLine line).1 ∧
      SameOutside names (session.runLine line).2 (session'.runLine line).2 := by
  cases hread : Statement.ofText line with
  | error e =>
      rw [runLine_of_malformed session hread, runLine_of_malformed session' hread]
      exact ⟨rfl, h⟩
  | ok statement =>
      rw [runLine_of_ofText session hread, runLine_of_ofText session' hread]
      obtain ⟨hresult, hnext⟩ := h.evaluate closed (unrelated_iff.1 hline statement hread)
      exact ⟨congrArg (Except.mapError LineError.failed) hresult, hnext⟩

theorem sameOutside_runLine {line : String} (session : Session) (confined : Confined names [line])
    (hline : ¬ unrelated names line = true) :
    SameOutside names session (session.runLine line).2 := by
  cases hread : Statement.ofText line with
  | error e =>
      rw [runLine_of_malformed session hread]
      exact .refl names session
  | ok statement =>
      rw [runLine_of_ofText session hread]
      apply sameOutside_evaluate
      rintro y t rfl
      by_contra hy
      apply hline
      rw [unrelated_iff, hread]
      rintro _ ⟨⟩ x hx hmem
      obtain rfl | hx := List.mem_cons.1 hx
      · exact hy hmem
      · exact hy (confined line List.mem_cons_self y t hread ⟨x, hx, hmem⟩)

theorem answersTo_cons (session : Session) (chosen : String → Bool) (line : String)
    (lines : List String) :
    session.answersTo chosen (line :: lines) =
      if chosen line = true then
        (session.runLine line).1 :: (session.runLine line).2.answersTo chosen lines
      else (session.runLine line).2.answersTo chosen lines := by
  rw [answersTo, runLines, List.zip_cons_cons, List.filter_cons]
  split
  · rfl
  · rfl

/-- Lines that are related to the names can be left out, as long as they define nothing else. -/
theorem answersTo_unrelated {lines : List String} (h : SameOutside names session session')
    (reachable : session.Reachable) (confined : Confined names lines) :
    session.answersTo (unrelated names) lines =
        (session'.runLines (lines.filter (unrelated names))).1 ∧
      SameOutside names (session.runLines lines).2
        (session'.runLines (lines.filter (unrelated names))).2 := by
  induction lines generalizing session session' with
  | nil => exact ⟨rfl, h⟩
  | cons line lines ih =>
      have hrest : Confined names lines :=
        fun l hl => confined l (List.mem_cons_of_mem line hl)
      have hnext : (session.runLine line).2.Reachable := reachable.runLine line
      rw [answersTo_cons, List.filter_cons]
      by_cases hline : unrelated names line = true
      · obtain ⟨hanswer, hsame⟩ := h.runLine reachable.closed hline
        obtain ⟨hanswers, hlast⟩ := ih hsame hnext hrest
        rw [if_pos hline, if_pos hline, hanswer, hanswers]
        exact ⟨rfl, hlast⟩
      · have hfirst : Confined names [line] := fun l hl =>
          confined l (List.mem_singleton.1 hl ▸ List.mem_cons_self)
        have hsame := (sameOutside_runLine session hfirst hline).symm.trans h
        rw [if_neg hline, if_neg hline]
        exact ih hsame hnext hrest

/-- Two sessions that differ at most in one name, and at most in another, do not differ. -/
theorem eq_of_sameOutside {x y : String} (hxy : x ≠ y) (hx : SameOutside [x] session session')
    (hy : SameOutside [y] session session') : session = session' := by
  have hbindings : session.bindings = session'.bindings := by
    apply Frame.ext_find?
    intro z
    by_cases hzx : z = x
    · exact hy.bindings z fun hmem => hxy (hzx ▸ List.mem_singleton.1 hmem)
    · exact hx.bindings z (mt List.mem_singleton.1 hzx)
  obtain ⟨bindings, maxDepth⟩ := session
  obtain ⟨bindings', maxDepth'⟩ := session'
  cases hbindings
  cases hx.maxDepth
  rfl

/-- A definition that is made before another which it does not touch can be made after it. -/
theorem evaluate_define_comm (closed : session.Closed) {x y : String} {t u : Term} (hxy : x ≠ y)
    (hxu : x ∉ u.freeVars) (hyt : y ∉ t.freeVars) :
    ((session.evaluate (.define x t)).2.evaluate (.define y u)).1 =
        (session.evaluate (.define y u)).1 ∧
      ((session.evaluate (.define x t)).2.evaluate (.define y u)).2 =
        ((session.evaluate (.define y u)).2.evaluate (.define x t)).2 := by
  have hnamesu : ∀ z ∈ (Statement.define y u).names, z ∉ [x] := by
    intro z hz hmem
    obtain rfl := List.mem_singleton.1 hmem
    exact (List.mem_cons.1 hz).elim hxy hxu
  have hnamest : ∀ z ∈ (Statement.define x t).names, z ∉ [y] := by
    intro z hz hmem
    obtain rfl := List.mem_singleton.1 hmem
    exact (List.mem_cons.1 hz).elim hxy.symm hyt
  have defines (session : Session) (x : String) (t : Term) :
      SameOutside [x] session (session.evaluate (.define x t)).2 := by
    apply sameOutside_evaluate
    rintro z _ ⟨⟩
    exact List.mem_cons_self
  obtain ⟨hresult, hx⟩ := (defines session x t).evaluate closed hnamesu
  obtain ⟨_, hy⟩ := (defines session y u).evaluate closed hnamest
  refine ⟨hresult.symm, eq_of_sameOutside hxy ?_ ?_⟩
  · exact hx.symm.trans (defines _ x t)
  · exact (hy.symm.trans (defines _ y u)).symm

end
end Session

/-- Definitions do not interfere with what does not mention them. Scopes that find the same values
for the free names of a term give it the same outcome, whatever else they bind in whatever frames.
Two runs of lines that differ in lines related to some names alone, such as definitions that are
made, made again or not made, answer the other lines in the same way and define every other name
alike. And two definitions next to each other, of different names that neither mentions, can be
exchanged. -/
theorem noninterference :
    (∀ (depth : Nat) (used : List String) (scope scope' : Scope) (t : Term),
      (∀ x ∈ t.freeVars, x ∉ used → scope.find? x = scope'.find? x ∧
        ∀ v, scope.find? x = some v → ∀ y ∈ v.freeVars, y ∈ used) →
      t.reduce depth used scope = t.reduce depth used scope') ∧
    (∀ (session : Session) (names lines lines' : List String), session.Reachable →
      Session.Confined names lines → Session.Confined names lines' →
      lines.filter (Session.unrelated names) = lines'.filter (Session.unrelated names) →
        session.answersTo (Session.unrelated names) lines =
            session.answersTo (Session.unrelated names) lines' ∧
          ∀ x, x ∉ names → (session.runLines lines).2.bindings.find? x =
            (session.runLines lines').2.bindings.find? x) ∧
    ∀ (session : Session) (line line' x y : String) (t u : Term), session.Reachable →
      Statement.ofText line = .ok (.define x t) → Statement.ofText line' = .ok (.define y u) →
      x ≠ y → x ∉ u.freeVars → y ∉ t.freeVars →
        (session.runLines [line', line]).1 = (session.runLines [line, line']).1.reverse ∧
          (session.runLines [line', line]).2 = (session.runLines [line, line']).2 := by
  refine ⟨?_, ?_, ?_⟩
  · intro depth used scope scope' t h
    exact reduce_same h
  · intro session names lines lines' reachable confined confined' hsame
    have hstart := Session.SameOutside.refl names session
    obtain ⟨hanswers, hlast⟩ := Session.answersTo_unrelated hstart reachable confined
    obtain ⟨hanswers', hlast'⟩ := Session.answersTo_unrelated hstart reachable confined'
    rw [← hsame] at hanswers' hlast'
    exact ⟨hanswers.trans hanswers'.symm, (hlast.trans hlast'.symm).bindings⟩
  · intro session line line' x y t u reachable hline hline' hxy hxu hyt
    obtain ⟨hafter, hsession⟩ := Session.evaluate_define_comm reachable.closed hxy hxu hyt
    obtain ⟨hafter', _⟩ := Session.evaluate_define_comm reachable.closed hxy.symm hyt hxu
    simp only [Session.runLines, Session.runLine_of_ofText _ hline,
      Session.runLine_of_ofText _ hline', hafter, hafter', hsession]
    exact ⟨rfl, trivial⟩

def shadowedTerm : Term :=
  fn "y" (app [var "f", var "y"])

def shadowedScope : Scope :=
  .root (Frame.empty.set "f" (fn "a" (app [var "y", var "a"])))

/-- The scope with a used name and the new name of a parameter bound further in. -/
def shadowingScope : Scope :=
  (shadowedScope.child.set "y" (lit 7)).child.set "y'" (lit 8)

/-- Lines that do not speak of the name `n`, though the first has a parameter of that name. -/
def plainLines : List String :=
  ["let m = λn.n", "m 3"]

/-- The lines, with definitions of the name before and after the first of them. -/
def definingLines : List String :=
  ["let n = 7", "let m = λn.n", "let n = m", "m 3"]

/-- A used name and the new name of a parameter are bound in the second scope, and not looked up.
The lines left out define a name before and after the others, which have a parameter of that
name. -/
theorem noninterference_shadowed :
    (Scope.SameFor ["y"] shadowedTerm shadowedScope shadowingScope ∧
      shadowedTerm.reduce 9 ["y"] shadowedScope = .ok (fn "y'" (app [var "y", var "y'"])) ∧
      shadowedTerm.reduce 9 ["y"] shadowingScope = .ok (fn "y'" (app [var "y", var "y'"]))) ∧
    (Session.Confined ["n"] definingLines ∧ Session.Confined ["n"] plainLines ∧
      definingLines.filter (Session.unrelated ["n"]) =
        plainLines.filter (Session.unrelated ["n"]) ∧
      (Session.start 9).answersTo (Session.unrelated ["n"]) definingLines =
        [.ok (fn "n" (var "n")), .ok (lit 3)] ∧
      (Session.start 9).answersTo (Session.unrelated ["n"]) plainLines =
        [.ok (fn "n" (var "n")), .ok (lit 3)]) ∧
    Statement.ofText "let k = λi.λy.i" = .ok (.define "k" (fn "i" (fn "y" (var "i")))) ∧
      Statement.ofText "let i = z" = .ok (.define "i" (var "z")) ∧
      "k" ∉ (var "z").freeVars ∧ "i" ∉ (fn "i" (fn "y" (var "i"))).freeVars ∧
      ((Session.start 9).runLines ["let k = λi.λy.i", "let i = z"]).1 =
        [.ok (fn "i" (fn "y" (var "i"))), .error (.failed (.undefinedVariable "z"))] ∧
      ((Session.start 9).runLines ["let i = z", "let k = λi.λy.i"]).1 =
        [.error (.failed (.undefinedVariable "z")), .ok (fn "i" (fn "y" (var "i")))] ∧
      ((Session.start 9).runLines ["let i = z", "let k = λi.λy.i"]).2 =
        ((Session.start 9).runLines ["let k = λi.λy.i", "let i = z"]).2 := by
  have hscope : Scope.SameFor ["y"] shadowedTerm shadowedScope shadowingScope := by
    intro x hx _
    have hf : x = "f" := by simpa [shadowedTerm, freeVars, freeVarsAll] using hx
    subst hf
    refine ⟨by simp [shadowingScope], fun v hv => ?_⟩
    rw [shadowedScope, Scope.find?_root, Frame.find?_set, if_pos rfl] at hv
    cases hv
    decide
  have hreduce : shadowedTerm.reduce 9 ["y"] shadowedScope =
      .ok (fn "y'" (app [var "y", var "y'"])) := by cbv
  have hseven : Statement.ofText "let n = 7" = .ok (.define "n" (lit 7)) := by cbv
  have hm : Statement.ofText "let m = λn.n" = .ok (.define "m" (fn "n" (var "n"))) := by cbv
  have hn : Statement.ofText "let n = m" = .ok (.define "n" (var "m")) := by cbv
  have hthree : Statement.ofText "m 3" = .ok (.evaluate (app [var "m", lit 3])) := by cbv
  have hk : Statement.ofText "let k = λi.λy.i" = .ok (.define "k" (fn "i" (fn "y" (var "i")))) := by
    cbv
  have hi : Statement.ofText "let i = z" = .ok (.define "i" (var "z")) := by cbv
  have hconfined : Session.Confined ["n"] definingLines := by
    rintro line hline y t hread hmention
    simp only [definingLines, List.mem_cons, List.not_mem_nil, or_false] at hline
    obtain rfl | rfl | rfl | rfl := hline
    · rw [hseven] at hread
      cases hread
      decide
    · rw [hm] at hread
      cases hread
      simp [freeVars] at hmention
    · rw [hn] at hread
      cases hread
      decide
    · rw [hthree] at hread
      cases hread
  have hconfined' : Session.Confined ["n"] plainLines :=
    fun line hline => hconfined line (by revert line; decide)
  have hfilter : definingLines.filter (Session.unrelated ["n"]) =
      plainLines.filter (Session.unrelated ["n"]) := by cbv
  have hanswers : (Session.start 9).answersTo (Session.unrelated ["n"]) plainLines =
      [.ok (fn "n" (var "n")), .ok (lit 3)] := by cbv
  have hrun : ((Session.start 9).runLines ["let k = λi.λy.i", "let i = z"]).1 =
      [.ok (fn "i" (fn "y" (var "i"))), .error (.failed (.undefinedVariable "z"))] := by cbv
  have hk' : "k" ∉ (var "z").freeVars := by decide
  have hi' : "i" ∉ (fn "i" (fn "y" (var "i"))).freeVars := by decide
  obtain ⟨hscopes, hsessions, hswap⟩ := noninterference
  have hrest := hsessions (.start 9) ["n"] _ _ (.start 9) hconfined hconfined' hfilter
  have hswapped := hswap (.start 9) _ _ "k" "i" _ _ (.start 9) hk hi (by decide) hk' hi'
  refine ⟨⟨hscope, hreduce, ?_⟩, ⟨hconfined, hconfined', hfilter, ?_, hanswers⟩, hk, hi, hk', hi',
    hrun, ?_, hswapped.2⟩
  · exact (hscopes 9 ["y"] _ _ _ hscope).symm.trans hreduce
  · exact hrest.1.trans hanswers
  · rw [hswapped.1, hrun]
    rfl

end LambdaInt
