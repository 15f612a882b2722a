import LambdaInt.Proofs.NormalForm

/-!
Undefined names. A term is searched for them from left to right, down to its last argument and
below its parameters, whether or not the place is ever used: the name that is reported is the first
free occurrence of one that is neither in use nor bound, and a term with such a name has no value.
Values mention names in use only, so once the members of an application are reduced, applying them
meets no undefined name any more.
-/

namespace LambdaInt

/-- Nothing is known of the name: it is neither in use nor bound. -/
def Scope.Unknown (used : List String) (scope : Scope) (x : String) : Prop :=
  x ∉ used ∧ scope.find? x = none

instance (used : List String) (scope : Scope) (x : String) : Decidable (scope.Unknown used x) :=
  inferInstanceAs (Decidable (_ ∧ _))

theorem Scope.not_unknown_iff {used : List String} {scope : Scope} {x : String} :
    ¬ scope.Unknown used x ↔ x ∈ used ∨ ∃ v, scope.find? x = some v := by
  rw [Unknown, not_and_or, not_not, ← ne_eq, Option.ne_none_iff_exists']

/-- Below a parameter the same names are unknown as around the function, but for the parameter. -/
theorem Scope.unknown_body {used : List String} {scope : Scope} {q x : String} :
    (scope.child.set q (Term.var q)).Unknown (q :: used) x ↔ x ≠ q ∧ scope.Unknown used x := by
  rw [Unknown, Unknown, find?_set, find?_child, List.mem_cons, not_or, and_assoc]
  refine and_congr_right fun hx => ?_
  rw [if_neg hx]

/-- The outcome is in keeping with the first name that is unknown, if there is one: a value leaves
no such name, and only that one is reported. Failures of another kind may come before. -/
def Reports {α : Type} (name : Option String) : Except RuntimeError α → Prop
  | .ok _ => name = none
  | .error (.undefinedVariable x) => name = some x
  | .error _ => True

namespace Reports
variable {α β : Type}

theorem bind {m n : Option String} {o : Except RuntimeError α} {f : α → Except RuntimeError β}
    (h : Reports m o) (hf : ∀ a, o = .ok a → Reports n (f a)) : Reports (m.or n) (o.bind f) := by
  cases o with
  | ok a =>
      change m = none at h
      rw [h, Option.none_or]
      exact hf a rfl
  | error e =>
      cases e with
      | undefinedVariable x =>
          change m = some x at h
          rw [h, Option.some_or]
          rfl
      | _ => trivial

theorem map {m : Option String} {o : Except RuntimeError α} (f : α → β) (h : Reports m o) :
    Reports m (o.map f) := by
  cases o with
  | ok a => exact h
  | error e => cases e <;> exact h

/-- The members of a row are searched one after the other. -/
theorem mapM {p : String → Bool} {names : α → List String} {f : α → Except RuntimeError β}
    {as : List α} (h : ∀ a ∈ as, Reports ((names a).find? p) (f a)) :
    Reports ((as.flatMap names).find? p) (as.mapM f) := by
  induction as with
  | nil => rfl
  | cons a as ih =>
      obtain ⟨ha, has⟩ := List.forall_mem_cons.1 h
      rw [List.flatMap_cons, List.find?_append, Except.mapM_cons]
      refine ha.bind fun b _ => ?_
      rw [← Option.or_none (o := (as.flatMap names).find? p)]
      exact (ih has).bind fun bs _ => rfl

end Reports

namespace Term

/-- The leftmost free occurrence of an unknown name. -/
def firstUnknown (used : List String) (scope : Scope) (t : Term) : Option String :=
  t.freeVars.find? fun x => scope.Unknown used x

section
variable {used : List String} {scope : Scope}

theorem firstUnknown_eq_none_iff {t : Term} :
    t.firstUnknown used scope = none ↔
      ∀ x ∈ t.freeVars, x ∈ used ∨ ∃ v, scope.find? x = some v := by
  simp only [firstUnknown, List.find?_eq_none, decide_eq_true_eq, Scope.not_unknown_iff]

theorem firstUnknown_eq_some_iff {t : Term} {x : String} :
    t.firstUnknown used scope = some x ↔ scope.Unknown used x ∧
      ∃ before after, t.freeVars = before ++ x :: after ∧
        ∀ y ∈ before, y ∈ used ∨ ∃ v, scope.find? y = some v := by
  simp only [firstUnknown, List.find?_eq_some_iff_append, decide_eq_true_eq, Bool.not_eq_true',
    decide_eq_false_iff_not, Scope.not_unknown_iff]

theorem firstUnknown_of_inScope {t : Term} (h : ∀ x ∈ t.freeVars, x ∈ used) (scope : Scope) :
    t.firstUnknown used scope = none :=
  firstUnknown_eq_none_iff.2 fun x hx => .inl (h x hx)

/-- The search goes on below a parameter as if it had not been renamed. -/
theorem firstUnknown_body {p q : String} {b c : Term} (hqc : renameApart used p b = (q, c)) :
    c.firstUnknown (q :: used) (scope.child.set q (var q)) = (fn p b).firstUnknown used scope := by
  rw [firstUnknown, firstUnknown, ← freeVars_renameApart hqc, freeVars, List.find?_filter]
  refine congrArg (c.freeVars.find? ·) (funext fun x => decide_eq_decide.2 ?_)
  rw [Scope.unknown_body, bne_iff_ne, decide_eq_true_eq]

/-- In the body of a function that is applied, the parameter is bound to the argument. -/
theorem firstUnknown_argument {p q : String} {b c : Term} (hqc : renameApart used p b = (q, c))
    (hf : ∀ x ∈ (fn p b).freeVars, x ∈ used) (scope : Scope) (a : Term) :
    c.firstUnknown used (scope.child.set q a) = none := by
  refine firstUnknown_eq_none_iff.2 fun x hx => ?_
  obtain rfl | hmem := List.mem_cons.1 (inScope_renameApart hqc hf x hx)
  · exact .inr ⟨a, by rw [Scope.find?_set, if_pos rfl]⟩
  · exact .inl hmem

theorem reports_builtin (op : Builtin) (args : List Term) : Reports none (op.apply args) := by
  unfold Builtin.apply
  split
  · trivial
  · split
    · split <;> trivial
    · trivial

/-- Every outcome at the depth reports what is unknown in the term. -/
def ReportsAt (depth : Nat) : Prop :=
  ∀ {used : List String} {scope : Scope} (t : Term),
    (scope.All fun v => ∀ x ∈ v.freeVars, x ∈ used) →
      Reports (t.firstUnknown used scope) (t.reduce depth used scope)

section
variable {depth : Nat} (reports : ReportsAt depth)
  (hscope : scope.All fun v => ∀ x ∈ v.freeVars, x ∈ used)
include reports hscope

theorem ReportsAt.beta {p : String} {b a : Term} (hf : ∀ x ∈ (fn p b).freeVars, x ∈ used)
    (ha : ∀ x ∈ a.freeVars, x ∈ used) :
    Reports none (betaBy (reduce depth used) used scope p b a) := by
  cases hqc : renameApart used p b with
  | mk q c =>
      rw [betaBy_of_renameApart hqc, ← firstUnknown_argument hqc hf scope a]
      exact reports c (hscope.set ha)

/-- Reduced members have nothing unknown, and taking arguments brings nothing unknown in. -/
theorem ReportsAt.arguments {head : Term} {args : List Term} (hhead : ∀ x ∈ head.freeVars, x ∈ used)
    (hargs : ∀ a ∈ args, ∀ x ∈ a.freeVars, x ∈ used) :
    Reports none (applyTo (betaBy (reduce depth used) used scope) head args) := by
  induction args generalizing head with
  | nil =>
      rw [applyTo_nil]
      rfl
  | cons a args ih =>
      obtain ⟨ha, hargs⟩ := List.forall_mem_cons.1 hargs
      cases head with
      | var x => rfl
      | lit n => trivial
      | builtin op =>
          rw [applyTo_builtin op (List.cons_ne_nil a args)]
          split
          · exact reports_builtin op (a :: args)
          · rfl
      | fn p b =>
          rw [applyTo_fn]
          refine (reports.beta hscope hhead ha).bind (n := none) fun u hu => ih ?_ hargs
          cases hqc : renameApart used p b with
          | mk q c =>
              rw [betaBy_of_renameApart hqc] at hu
              exact (tidy_of_reduce hu).inScope
      | app terms => rfl

theorem ReportsAt.application (head : Term) (args : List Term) :
    Reports ((app (head :: args)).firstUnknown used scope)
      ((app (head :: args)).reduce (depth + 1) used scope) := by
  rw [firstUnknown, freeVars, freeVarsAll, List.find?_append, freeVarsAll_eq_flatMap,
    reduce_app_cons]
  refine (reports head hscope).bind fun head' hhead => ?_
  rw [← Option.or_none (o := (args.flatMap freeVars).find? _)]
  refine (Reports.mapM fun t _ => reports t hscope).bind fun args' hargs => ?_
  refine reports.arguments hscope (tidy_of_reduce hhead).inScope fun a ha => ?_
  obtain ⟨t, _, hred⟩ := exists_mem_of_forall₂ (Except.mapM_eq_ok_iff.1 hargs) ha
  exact (tidy_of_reduce hred).inScope

end

theorem reportsAt (depth : Nat) : ReportsAt depth := by
  induction depth with
  | zero => exact fun _ _ => trivial
  | succ depth ih =>
      intro used scope t hscope
      cases t with
      | lit _ | builtin _ => rfl
      | var x =>
          by_cases hx : x ∈ used
          · rw [reduce_var_of_mem hx]
            exact firstUnknown_of_inScope (fun y hy => List.mem_singleton.1 hy ▸ hx) scope
          · cases hfind : scope.find? x with
            | none =>
                rw [reduce_var_of_unbound hx hfind]
                exact firstUnknown_eq_some_iff.2 ⟨⟨hx, hfind⟩, [], [], rfl, nofun⟩
            | some v =>
                have hvar : (var x).firstUnknown used scope = none :=
                  firstUnknown_eq_none_iff.2 fun y hy => .inr ⟨v, List.mem_singleton.1 hy ▸ hfind⟩
                rw [reduce_var_of_find? hx hfind, hvar,
                  ← firstUnknown_of_inScope (hscope x v hfind) scope]
                exact ih v hscope
      | fn p b =>
          cases hqc : renameApart used p b with
          | mk q c =>
              have hbody :
                  (scope.child.set q (var q)).All fun v => ∀ x ∈ v.freeVars, x ∈ q :: used :=
                Scope.All.set (fun y v hv x hx => List.mem_cons_of_mem q (hscope y v hv x hx))
                  fun x hx => List.mem_singleton.1 hx ▸ List.mem_cons_self
              rw [reduce_fn_of_renameApart hqc, ← firstUnknown_body hqc]
              exact (ih c hbody).map (fn q)
      | app ts =>
          cases ts with
          | nil => rfl
          | cons head args => exact ih.application hscope head args

end

/-- A value shows that every free name was known, and the undefined name of a failure is the
leftmost one that is not. Parameters are never reported, whatever they are renamed to, and applying
reduced members reports nothing. -/
theorem undefined_reported_exactly (depth : Nat) (used : List String) (scope : Scope)
    (hscope : ∀ x v, scope.find? x = some v → ∀ y ∈ v.freeVars, y ∈ used) :
    (∀ t r : Term, t.reduce depth used scope = .ok r →
      ∀ x ∈ t.freeVars, x ∈ used ∨ ∃ v, scope.find? x = some v) ∧
    (∀ (t : Term) (x : String), t.reduce depth used scope = .error (.undefinedVariable x) →
      (x ∉ used ∧ scope.find? x = none) ∧
      ∃ before after, t.freeVars = before ++ x :: after ∧
        ∀ y ∈ before, y ∈ used ∨ ∃ v, scope.find? y = some v) ∧
    (∀ (p q : String) (b c : Term), renameApart used p b = (q, c) →
      (fn p b).reduce depth used scope ≠ .error (.undefinedVariable p) ∧
      (fn p b).reduce depth used scope ≠ .error (.undefinedVariable q)) ∧
    (∀ (p x : String) (b a : Term), (∀ y ∈ (fn p b).freeVars, y ∈ used) →
      (∀ y ∈ a.freeVars, y ∈ used) →
      betaBy (reduce depth used) used scope p b a ≠ .error (.undefinedVariable x)) ∧
    ∀ (head head' : Term) (args args' : List Term) (x : String),
      head.reduce depth used scope = .ok head' →
      args.mapM (reduce depth used scope) = .ok args' →
        applyTo (betaBy (reduce depth used) used scope) head' args' ≠
          .error (.undefinedVariable x) := by
  have reports : ReportsAt depth := reportsAt depth
  have hreport (t : Term) (x : String)
      (h : t.reduce depth used scope = .error (.undefinedVariable x)) :
      t.firstUnknown used scope = some x := by
    have hreports := reports t hscope
    rwa [h] at hreports
  have hnone {o : Except RuntimeError Term} {x : String} (h : Reports none o) :
      o ≠ .error (.undefinedVariable x) := by
    rintro rfl
    cases h
  refine ⟨?_, ?_, ?_, ?_, ?_⟩
  · intro t r h
    have hreports := reports t hscope
    rw [h] at hreports
    exact firstUnknown_eq_none_iff.1 hreports
  · intro t x h
    exact firstUnknown_eq_some_iff.1 (hreport t x h)
  · intro p q b c hqc
    have hmem (x : String) (h : (fn p b).reduce depth used scope = .error (.undefinedVariable x)) :
        x ∈ (fn p b).freeVars := List.mem_of_find?_eq_some (hreport _ x h)
    refine ⟨fun h => (mem_freeVars_fn.1 (hmem p h)).2 rfl, fun h => ?_⟩
    have hq : q ∈ (fn q c).freeVars := (mem_freeVars_renameApart hqc).2 (hmem q h)
    exact (mem_freeVars_fn.1 hq).2 rfl
  · intro p x b a hf ha
    exact hnone (reports.beta hscope hf ha)
  · intro head head' args args' x hhead hargs
    refine hnone (reports.arguments hscope (tidy_of_reduce hhead).inScope fun a ha => ?_)
    obtain ⟨t, _, hred⟩ := exists_mem_of_forall₂ (Except.mapM_eq_ok_iff.1 hargs) ha
    exact (tidy_of_reduce hred).inScope

def droppingScope : Scope :=
  .root (Frame.empty.set "k" (fn "x" (var "y")))

def knownTerm : Term :=
  app [fn "y" (app [var "k", var "y"]), fn "w" (var "y")]

def unknownTerm : Term :=
  app [fn "y" (app [var "k", var "y"]), fn "w" (var "u"), var "v"]

/-- The undefined name stands in an argument that is dropped and below a parameter that is never
bound; the parameter `y` has to be renamed, since the value of `k` mentions a `y` in use. -/
theorem undefined_reported_exactly_dropped :
    (∀ x v, droppingScope.find? x = some v → ∀ y ∈ v.freeVars, y ∈ ["y"]) ∧
    (knownTerm.reduce 9 ["y"] droppingScope = .ok (var "y") ∧
      ∀ x ∈ knownTerm.freeVars, x ∈ ["y"] ∨ ∃ v, droppingScope.find? x = some v) ∧
    unknownTerm.reduce 9 ["y"] droppingScope = .error (.undefinedVariable "u") ∧
      ∃ before after, unknownTerm.freeVars = before ++ "u" :: after ∧
        ∀ y ∈ before, y ∈ ["y"] ∨ ∃ v, droppingScope.find? y = some v := by
  have hscope (x : String) (v : Term) (hfind : droppingScope.find? x = some v) :
      ∀ y ∈ v.freeVars, y ∈ ["y"] := by
    rw [droppingScope, Scope.find?_root, Frame.find?_set] at hfind
    split at hfind
    · cases hfind
      decide
    · cases hfind
  have hvalue : knownTerm.reduce 9 ["y"] droppingScope = .ok (var "y") := by cbv
  have herror : unknownTerm.reduce 9 ["y"] droppingScope =
      .error (.undefinedVariable "u") := by cbv
  obtain ⟨hknown, hleftmost, _⟩ := undefined_reported_exactly 9 ["y"] _ hscope
  exact ⟨hscope, ⟨hvalue, hknown _ _ hvalue⟩, herror, (hleftmost _ _ herror).2⟩

end Term
end LambdaInt
