import LambdaInt.Proofs.Evaluation
import LambdaInt.Proofs.Sessions
import Mathlib

/-!
Scope and hygiene of values. A value mentions only names that are used where it was reduced, and
its parameters differ from those names and, on each way down, from each other. Nothing is asked of
the term that was reduced or of the values that its names have, so every session keeps to closed
values.
-/

namespace LambdaInt

namespace Term

mutual

/-- The parameters met on the way to each leaf, root first. An empty application is a leaf. -/
def paths : Term → List (List String)
  | var _ | lit _ | builtin _ => [[]]
  | fn p b => (paths b).map (p :: ·)
  | app [] => [[]]
  | app (t :: ts) => paths t ++ pathsAll ts

def pathsAll : List Term → List (List String)
  | [] => []
  | t :: ts => paths t ++ pathsAll ts

end

mutual

/-- The parameters on each way down are distinct, and none of them is in `used`. -/
def Hygienic (used : List String) : Term → Prop
  | var _ | lit _ | builtin _ => True
  | fn p b => p ∉ used ∧ Hygienic (p :: used) b
  | app ts => HygienicAll used ts

def HygienicAll (used : List String) : List Term → Prop
  | [] => True
  | t :: ts => Hygienic used t ∧ HygienicAll used ts

end

theorem hygienicAll_iff {used : List String} {ts : List Term} :
    HygienicAll used ts ↔ ∀ t ∈ ts, t.Hygienic used := by
  induction ts with
  | nil => simp [HygienicAll]
  | cons t ts ih => simp [HygienicAll, ih]

theorem hygienic_app {used : List String} {ts : List Term} :
    (app ts).Hygienic used ↔ ∀ t ∈ ts, t.Hygienic used :=
  hygienicAll_iff

theorem pathsAll_eq_flatMap (ts : List Term) : pathsAll ts = ts.flatMap paths := by
  induction ts with
  | nil => rfl
  | cons t ts ih => simp [pathsAll, ih]

theorem mem_paths_app_cons {t : Term} {ts : List Term} {path : List String} :
    path ∈ (app (t :: ts)).paths ↔ ∃ u ∈ t :: ts, path ∈ u.paths := by
  simp [paths, pathsAll_eq_flatMap]

theorem paths_ne_nil (t : Term) : t.paths ≠ [] := by
  induction t with
  | var _ | lit _ | builtin _ => simp [paths]
  | fn p b ih => simpa [paths] using ih
  | app ts ih =>
      cases ts with
      | nil => simp [paths]
      | cons t ts =>
          obtain ⟨path, hpath⟩ := List.exists_mem_of_ne_nil _ (ih t List.mem_cons_self)
          exact List.ne_nil_of_mem (mem_paths_app_cons.2 ⟨t, List.mem_cons_self, hpath⟩)

/-- Hygiene, read off the whole paths. -/
theorem hygienic_iff_paths {used : List String} {t : Term} :
    t.Hygienic used ↔ ∀ path ∈ t.paths, path.Nodup ∧ ∀ p ∈ path, p ∉ used := by
  induction t generalizing used with
  | var _ | lit _ | builtin _ => simp [Hygienic, paths]
  | fn p b ih =>
      obtain ⟨path, hpath⟩ := List.exists_mem_of_ne_nil _ (paths_ne_nil b)
      simp only [Hygienic, paths, ih, List.forall_mem_map, List.nodup_cons, List.mem_cons,
        forall_eq_or_imp, not_or]
      constructor
      · rintro ⟨hp, hb⟩ path hpath
        obtain ⟨hnodup, hfree⟩ := hb path hpath
        exact ⟨⟨fun hmem => (hfree p hmem).1 rfl, hnodup⟩, hp, fun q hq => (hfree q hq).2⟩
      · intro h
        refine ⟨(h path hpath).2.1, ?_⟩
        intro path hpath
        obtain ⟨⟨hfresh, hnodup⟩, _, hfree⟩ := h path hpath
        exact ⟨hnodup, fun q hq => ⟨fun heq => hfresh (heq ▸ hq), hfree q hq⟩⟩
  | app ts ih =>
      cases ts with
      | nil => simp [hygienic_app, paths]
      | cons t ts =>
          rw [hygienic_app]
          constructor
          · intro h path hpath
            obtain ⟨u, hu, hpath⟩ := mem_paths_app_cons.1 hpath
            exact (ih u hu).1 (h u hu) path hpath
          · intro h u hu
            exact (ih u hu).2 fun path hpath => h path (mem_paths_app_cons.2 ⟨u, hu, hpath⟩)

/-- What every value is under the names that are used: in scope, and hygienic. -/
structure Tidy (used : List String) (t : Term) : Prop where
  inScope : ∀ x ∈ t.freeVars, x ∈ used
  hygienic : t.Hygienic used

theorem tidy_app {used : List String} {ts : List Term} :
    Tidy used (app ts) ↔ ∀ t ∈ ts, Tidy used t := by
  constructor
  · intro h t ht
    exact ⟨fun x hx => h.inScope x (mem_freeVars_app.2 ⟨t, ht, hx⟩), hygienic_app.1 h.hygienic t ht⟩
  · intro h
    refine ⟨fun x hx => ?_, hygienic_app.2 fun t ht => (h t ht).hygienic⟩
    obtain ⟨t, ht, hx⟩ := mem_freeVars_app.1 hx
    exact (h t ht).inScope x hx

theorem tidy_fn {used : List String} {p : String} {b : Term} :
    Tidy used (fn p b) ↔ p ∉ used ∧ Tidy (p :: used) b := by
  constructor
  · intro h
    refine ⟨h.hygienic.1, fun x hx => ?_, h.hygienic.2⟩
    by_cases hxp : x = p
    · exact hxp ▸ List.mem_cons_self
    · exact List.mem_cons_of_mem p (h.inScope x (mem_freeVars_fn.2 ⟨hx, hxp⟩))
  · rintro ⟨hp, hb⟩
    refine ⟨fun x hx => ?_, hp, hb.hygienic⟩
    obtain ⟨hx, hxp⟩ := mem_freeVars_fn.1 hx
    exact (List.mem_cons.1 (hb.inScope x hx)).resolve_left hxp

theorem tidy_var {used : List String} {x : String} : Tidy used (var x) ↔ x ∈ used :=
  ⟨fun h => h.inScope x List.mem_cons_self,
    fun h => ⟨fun _ hy => List.mem_singleton.1 hy ▸ h, trivial⟩⟩

theorem tidy_lit (used : List String) (n : Int64) : Tidy used (lit n) :=
  ⟨fun _ hx => (List.not_mem_nil hx).elim, trivial⟩

theorem tidy_builtin (used : List String) (op : Builtin) : Tidy used (builtin op) :=
  ⟨fun _ hx => (List.not_mem_nil hx).elim, trivial⟩

theorem keeps_tidy : Keeps (fun _ _ _ => True) Tidy where
  body _ _ := trivial
  member _ _ := trivial
  value _ _ _ := trivial
  argument _ _ _ _ := trivial
  var _ hx := tidy_var.2 hx
  lit _ := tidy_lit _ _
  builtin _ := tidy_builtin _ _
  fn _ hq hr := tidy_fn.2 ⟨hq, hr⟩
  nil _ := tidy_app.2 fun _ ht => (List.not_mem_nil ht).elim
  call _ _ := tidy_lit _ _
  wait _ hhead hargs := tidy_app.2 (List.forall_mem_cons.2 ⟨hhead, hargs⟩)
  extend hterms hargs := tidy_app.2 (List.forall_mem_append.2 ⟨tidy_app.1 hterms, hargs⟩)

theorem tidy_of_reduce {depth : Nat} {used : List String} {scope : Scope} {t r : Term}
    (h : t.reduce depth used scope = .ok r) : Tidy used r :=
  keeps_tidy.reduce h trivial

theorem Tidy.freeVars_eq_nil {t : Term} (h : Tidy [] t) : t.freeVars = [] :=
  List.eq_nil_iff_forall_not_mem.2 fun x hx => List.not_mem_nil (h.inScope x hx)

end Term

open Term

/-- No binding of the session mentions a name. -/
def Session.Closed (session : Session) : Prop :=
  ∀ x v, session.bindings.find? x = some v → v.freeVars = []

theorem Session.closed_start (depth : Nat) : (start depth).Closed := by
  intro x v h
  cases h

theorem Session.evaluate_closed (session : Session) (statement : Statement)
    (h : session.Closed) : (session.evaluate statement).2.Closed ∧
      ∀ v, (session.evaluate statement).1 = .ok v → v.freeVars = [] := by
  exact evaluate_keeps (fun v hv => (tidy_of_reduce hv).freeVars_eq_nil) (fun _ _ _ _ hv => hv) h

theorem Session.Reachable.closed {session : Session} (h : session.Reachable) : session.Closed := by
  induction h with
  | start depth => exact Session.closed_start depth
  | evaluate _ statement ih => exact (Session.evaluate_closed _ statement ih).1

/-- Values are in scope and hygienic, whatever was reduced in whatever scope; and a session holds
and returns closed values only. -/
theorem values_scoped_and_hygienic :
    (∀ (depth : Nat) (used : List String) (scope : Scope) (t r : Term),
      t.reduce depth used scope = .ok r →
        (∀ x ∈ r.freeVars, x ∈ used) ∧
        ∀ path ∈ r.paths, path.Nodup ∧ ∀ p ∈ path, p ∉ used) ∧
    ∀ (depth : Nat) (statements : List Statement),
      (∀ x v, ((Session.start depth).evaluateAll statements).2.bindings.find? x = some v →
        v.freeVars = []) ∧
      ∀ v, .ok v ∈ ((Session.start depth).evaluateAll statements).1 → v.freeVars = [] := by
  constructor
  · intro depth used scope t r h
    have htidy : Tidy used r := tidy_of_reduce h
    exact ⟨htidy.inScope, hygienic_iff_paths.1 htidy.hygienic⟩
  · intro depth statements
    have step (session : Session) (s : Statement) (h : session.Closed) (_ : True) :=
      Session.evaluate_closed session s h
    exact Session.evaluateAll_keeps step (Session.closed_start depth) fun _ _ => trivial

/-- The inner parameter is renamed, since the argument is a variable of its name. -/
theorem values_scoped_and_hygienic_renamed :
    (fn "y" (app [fn "x" (fn "y" (var "x")), var "y"])).reduce 5 [] (.root .empty) =
        .ok (fn "y" (fn "y'" (var "y"))) ∧
      (∀ x ∈ (fn "y" (fn "y'" (var "y"))).freeVars, x ∈ []) ∧
      ∀ path ∈ (fn "y" (fn "y'" (var "y"))).paths, path.Nodup ∧ ∀ p ∈ path, p ∉ [] := by
  have h : (fn "y" (app [fn "x" (fn "y" (var "x")), var "y"])).reduce 5 [] (.root .empty) =
      .ok (fn "y" (fn "y'" (var "y"))) := by cbv
  exact ⟨h, values_scoped_and_hygienic.1 5 [] _ _ _ h⟩

end LambdaInt
