import LambdaInt.Proofs.Alpha
import LambdaInt.Proofs.Hygiene
import LambdaInt.Proofs.Readings

/-!
Two runs of reduction side by side. Names stand for variables of nameless terms at either place, and
names that stand for the same variable are to be used at both places or have values that mean the
same. Then terms that mean the same have outcomes that agree, although each run renames parameters
in its own way: entering a function or taking an argument moves both meanings alike.
-/

namespace LambdaInt

/-- Both outcomes are the same error, or both are values, of which the relation holds. -/
inductive AgreeBy {ε α β : Type} (R : α → β → Prop) : Except ε α → Except ε β → Prop
  | error (e : ε) : AgreeBy R (.error e) (.error e)
  | ok {a : α} {b : β} (values : R a b) : AgreeBy R (.ok a) (.ok b)

namespace AgreeBy
variable {ε α β γ δ : Type} {R : α → β → Prop} {S : γ → δ → Prop} {x : Except ε α}
  {y : Except ε β}

theorem flip (h : AgreeBy R x y) : AgreeBy (flip R) y x := by
  cases h with
  | error e => exact .error e
  | ok values => exact .ok values

theorem error_iff {e : ε} (h : AgreeBy R x y) : x = .error e ↔ y = .error e := by
  cases h <;> simp

theorem bind {f : α → Except ε γ} {g : β → Except ε δ} (h : AgreeBy R x y)
    (hfg : ∀ a b, R a b → AgreeBy S (f a) (g b)) : AgreeBy S (x.bind f) (y.bind g) := by
  cases h with
  | error e => exact .error e
  | ok values => exact hfg _ _ values

theorem map {f : α → γ} {g : β → δ} (h : AgreeBy R x y) (hfg : ∀ a b, R a b → S (f a) (g b)) :
    AgreeBy S (x.map f) (y.map g) := by
  cases h with
  | error e => exact .error e
  | ok values => exact .ok (hfg _ _ values)

theorem mapError {ε' : Type} (f : ε → ε') (h : AgreeBy R x y) :
    AgreeBy R (x.mapError f) (y.mapError f) := by
  cases h with
  | error e => exact .error (f e)
  | ok values => exact .ok values

theorem imp {S : α → β → Prop} (h : AgreeBy R x y) (hRS : ∀ a b, R a b → S a b) :
    AgreeBy S x y := by
  cases h with
  | error e => exact .error e
  | ok values => exact .ok (hRS _ _ values)

theorem mapM {f : α → Except ε γ} {g : β → Except ε δ} {as : List α} {bs : List β}
    (h : List.Forall₂ (fun a b => AgreeBy S (f a) (g b)) as bs) :
    AgreeBy (List.Forall₂ S) (as.mapM f) (bs.mapM g) := by
  induction h with
  | nil => exact .ok .nil
  | cons hhead _ ih =>
      rw [Except.mapM_cons, Except.mapM_cons]
      apply hhead.bind
      intro c d hcd
      apply ih.bind
      intro cs ds hrest
      exact .ok (.cons hcd hrest)

end AgreeBy

/-- A builtin sees the integers among its arguments only. -/
theorem Builtin.apply_congr (op : Builtin) {args args' : List Term}
    (h : Term.literals? args = Term.literals? args') : op.apply args = op.apply args' := by
  rw [Builtin.apply, Builtin.apply, h]

namespace Term

theorem rename_succ_inj {s t : Nameless} : s.rename Nat.succ = t.rename Nat.succ ↔ s = t := by
  constructor
  · intro h
    have hback := congrArg (Nameless.subst (Nameless.single (.bound 0))) h
    rwa [Nameless.subst_single_rename_succ, Nameless.subst_single_rename_succ] at hback
  · exact congrArg _

/-- Below two functions, names stand for the same variable if both are the parameters, or neither
is and they did so outside. -/
theorem bind_eq_bind_iff {σ τ : String → Nameless} {p q x y : String} :
    bind σ p x = bind τ q y ↔ x = p ∧ y = q ∨ x ≠ p ∧ y ≠ q ∧ σ x = τ y := by
  by_cases hx : x = p
  · by_cases hy : y = q
    · simp [hx, hy, bind_self]
    · rw [hx, bind_self, bind_of_ne hy]
      simpa [hy] using (rename_succ_ne_bound_zero _).symm
  · by_cases hy : y = q
    · rw [hy, bind_self, bind_of_ne hx]
      simpa [hx] using rename_succ_ne_bound_zero _
    · rw [bind_of_ne hx, bind_of_ne hy, rename_succ_inj]
      simp [hx, hy]

theorem isVariable_bind {σ : String → Nameless} (h : ∀ x, IsVariable (σ x)) (p x : String) :
    IsVariable (bind σ p x) :=
  forall_bind h trivial (fun _ ht => ht.rename) p x

theorem resolve_bind_of_not_mem {t : Term} {p : String} (h : p ∉ t.freeVars)
    (σ : String → Nameless) : t.resolve (bind σ p) = (t.resolve σ).rename Nat.succ := by
  rw [rename_resolve]
  apply resolve_congr
  intro x hx
  have hne : x ≠ p := fun heq => h (heq ▸ hx)
  exact bind_of_ne hne σ

/-- Terms without the parameters mean the same below the functions if they do so outside. -/
theorem resolve_bind_eq_iff {v w : Term} {p q : String} (hp : p ∉ v.freeVars)
    (hq : q ∉ w.freeVars) (σ τ : String → Nameless) :
    v.resolve (bind σ p) = w.resolve (bind τ q) ↔ v.resolve σ = w.resolve τ := by
  rw [resolve_bind_of_not_mem hp, resolve_bind_of_not_mem hq, rename_succ_inj]

theorem resolve_bind_renameApart {used : List String} {p q : String} {b c : Term}
    (h : renameApart used p b = (q, c)) (σ : String → Nameless) :
    c.resolve (bind σ q) = b.resolve (bind σ p) :=
  resolve_renameApart h _ _

/-- How two terms look that mean the same while every name stands for a variable. -/
inductive Parallel (σ τ : String → Nameless) : Term → Term → Prop
  | var {x y : String} (same : σ x = τ y) : Parallel σ τ (var x) (var y)
  | lit (n : Int64) : Parallel σ τ (lit n) (lit n)
  | builtin (op : Builtin) : Parallel σ τ (builtin op) (builtin op)
  | fn {p q : String} {b c : Term} (same : b.resolve (bind σ p) = c.resolve (bind τ q)) :
      Parallel σ τ (fn p b) (fn q c)
  | app {ts us : List Term} (same : List.Forall₂ (fun t u => t.resolve σ = u.resolve τ) ts us) :
      Parallel σ τ (app ts) (app us)

/-- Applications mean the same if their members do. -/
theorem resolve_app_eq_iff {ts us : List Term} {σ τ : String → Nameless} :
    (app ts).resolve σ = (app us).resolve τ ↔
      List.Forall₂ (fun t u => t.resolve σ = u.resolve τ) ts us := by
  rw [resolve_app, resolve_app, Nameless.app.injEq, ← List.forall₂_eq_eq_eq,
    List.forall₂_map_left_iff, List.forall₂_map_right_iff]

section
variable {σ τ : String → Nameless} (hτ : ∀ x, IsVariable (τ x))
include hτ

/-- Where names stand for variables, only a function means a function. -/
theorem exists_fn_of_resolve_eq {p : String} {b u : Term}
    (h : (fn p b).resolve σ = u.resolve τ) :
    ∃ q c, u = fn q c ∧ b.resolve (bind σ p) = c.resolve (bind τ q) := by
  cases u with
  | var y => exact ((congrArg IsVariable h).mpr (hτ y)).elim
  | fn q c => exact ⟨q, c, rfl, Nameless.fn.inj h⟩
  | _ => cases h

theorem exists_app_of_resolve_eq {ts : List Term} {u : Term}
    (h : (app ts).resolve σ = u.resolve τ) :
    ∃ us, u = app us ∧ List.Forall₂ (fun t u => t.resolve σ = u.resolve τ) ts us := by
  cases u with
  | var y => exact ((congrArg IsVariable h).mpr (hτ y)).elim
  | app us => exact ⟨us, rfl, resolve_app_eq_iff.1 h⟩
  | _ => cases h

end

section
variable {σ τ : String → Nameless} (hσ : ∀ x, IsVariable (σ x)) (hτ : ∀ x, IsVariable (τ x))
include hσ hτ

theorem parallel_of_resolve_eq {t u : Term} (h : t.resolve σ = u.resolve τ) :
    Parallel σ τ t u := by
  have hvariable : IsVariable (t.resolve σ) ↔ IsVariable (u.resolve τ) := by rw [h]
  cases t with
  | var x =>
      cases u with
      | var y => exact .var h
      | _ => exact (hvariable.1 (hσ x)).elim
  | lit m =>
      cases u with
      | var y => exact (hvariable.2 (hτ y)).elim
      | lit n =>
          cases h
          exact .lit m
      | _ => cases h
  | builtin f =>
      cases u with
      | var y => exact (hvariable.2 (hτ y)).elim
      | builtin g =>
          cases h
          exact .builtin f
      | _ => cases h
  | fn p b =>
      obtain ⟨q, c, rfl, same⟩ := exists_fn_of_resolve_eq hτ h
      exact .fn same
  | app ts =>
      obtain ⟨us, rfl, same⟩ := exists_app_of_resolve_eq hτ h
      exact .app same

/-- Each free variable of the one term has a counterpart in the other. -/
theorem exists_freeVar_of_resolve_eq {t u : Term} (h : t.resolve σ = u.resolve τ) {x : String}
    (hx : x ∈ t.freeVars) : ∃ y ∈ u.freeVars, σ x = τ y := by
  induction t generalizing u σ τ with
  | var z =>
      cases parallel_of_resolve_eq hσ hτ h with
      | var same =>
          rw [List.mem_singleton.1 hx]
          exact ⟨_, List.mem_cons_self, same⟩
  | lit _ | builtin _ => cases hx
  | fn p b ih =>
      cases parallel_of_resolve_eq hσ hτ h with
      | @fn _ q _ c same =>
          obtain ⟨hxb, hxp⟩ := mem_freeVars_fn.1 hx
          obtain ⟨y, hy, hxy⟩ := ih (isVariable_bind hσ p) (isVariable_bind hτ q) same hxb
          obtain ⟨hxp', _⟩ | ⟨_, hyq, hxy⟩ := bind_eq_bind_iff.1 hxy
          · exact absurd hxp' hxp
          · exact ⟨y, mem_freeVars_fn.2 ⟨hy, hyq⟩, hxy⟩
  | app ts ih =>
      cases parallel_of_resolve_eq hσ hτ h with
      | app same =>
          obtain ⟨t, ht, hxt⟩ := mem_freeVars_app.1 hx
          obtain ⟨u, hu, htu⟩ := exists_mem_of_forall₂ same.flip ht
          obtain ⟨y, hy, hxy⟩ := ih t ht hσ hτ htu hxt
          exact ⟨y, mem_freeVars_app.2 ⟨u, hu, hy⟩, hxy⟩

theorem freeVars_eq_nil_of_resolve_eq {t u : Term} (h : t.resolve σ = u.resolve τ)
    (hu : u.freeVars = []) : t.freeVars = [] := by
  apply List.eq_nil_iff_forall_not_mem.2
  intro x hx
  obtain ⟨y, hy, _⟩ := exists_freeVar_of_resolve_eq hσ hτ h hx
  rw [hu] at hy
  cases hy

theorem isClosed_of_resolve_eq {t u : Term} (h : t.resolve σ = u.resolve τ) :
    t.isClosed = u.isClosed := by
  rw [Bool.eq_iff_iff, isClosed_iff, isClosed_iff]
  exact ⟨freeVars_eq_nil_of_resolve_eq hτ hσ h.symm, freeVars_eq_nil_of_resolve_eq hσ hτ h⟩

theorem literals?_of_resolve_eq {ts us : List Term}
    (h : List.Forall₂ (fun t u => t.resolve σ = u.resolve τ) ts us) :
    literals? ts = literals? us := by
  induction h with
  | nil => rfl
  | cons same _ ih =>
      cases parallel_of_resolve_eq hσ hτ same with
      | lit n => rw [literals?, literals?, ih]
      | _ => rfl

end

/-- A place that reduction reaches: the names used there, the scope, and variables of nameless terms
that names stand for. -/
structure Place where
  used : List String
  scope : Scope
  meaning : String → Nameless
  isVariable : ∀ x, IsVariable (meaning x)

namespace Place

/-- The place in the body of a function with the parameter. -/
def body (P : Place) (q : String) : Place :=
  ⟨q :: P.used, P.scope.child.set q (var q), bind P.meaning q, isVariable_bind P.isVariable q⟩

/-- The place in the body of a function that takes the argument for its parameter. -/
def argument (P : Place) (q : String) (a : Term) : Place :=
  ⟨P.used, P.scope.child.set q a, bind P.meaning q, isVariable_bind P.isVariable q⟩

end Place

/-- Values at two places that mean the same. -/
structure SameValue (P Q : Place) (v w : Term) : Prop where
  meaning : v.resolve P.meaning = w.resolve Q.meaning
  left : ∀ x ∈ v.freeVars, x ∈ P.used
  right : ∀ y ∈ w.freeVars, y ∈ Q.used

/-- The names are both unbound, and then equal, or have values that mean the same. -/
inductive Found (P Q : Place) (x y : String) : Prop
  | unbound (left : P.scope.find? x = none) (right : Q.scope.find? y = none) (same : x = y)
  | value {v w : Term} (left : P.scope.find? x = some v) (right : Q.scope.find? y = some w)
      (same : SameValue P Q v w)

/-- Names that stand for the same variable at both places are used at both, or found alike. -/
structure Place.Matches (P Q : Place) : Prop where
  used {x y : String} : P.meaning x = Q.meaning y → (x ∈ P.used ↔ y ∈ Q.used)
  found {x y : String} : P.meaning x = Q.meaning y → x ∉ P.used → Found P Q x y

section
variable {P Q : Place}

theorem sameValue_app {ts us : List Term} :
    SameValue P Q (app ts) (app us) ↔ List.Forall₂ (SameValue P Q) ts us := by
  constructor
  · intro h
    cases parallel_of_resolve_eq P.isVariable Q.isVariable h.meaning with
    | app same =>
        have hleft : ∀ t ∈ ts, ∀ x ∈ t.freeVars, x ∈ P.used :=
          fun t ht x hx => h.left x (mem_freeVars_app.2 ⟨t, ht, hx⟩)
        have hright : ∀ u ∈ us, ∀ y ∈ u.freeVars, y ∈ Q.used :=
          fun u hu y hy => h.right y (mem_freeVars_app.2 ⟨u, hu, hy⟩)
        clear h
        induction same with
        | nil => exact .nil
        | cons same _ ih =>
            obtain ⟨ht, hts⟩ := List.forall_mem_cons.1 hleft
            obtain ⟨hu, hus⟩ := List.forall_mem_cons.1 hright
            exact .cons ⟨same, ht, hu⟩ (ih hts hus)
  · intro h
    refine ⟨?_, fun x hx => ?_, fun y hy => ?_⟩
    · exact resolve_app_eq_iff.2 (h.imp fun _ _ => SameValue.meaning)
    · obtain ⟨t, ht, hx⟩ := mem_freeVars_app.1 hx
      obtain ⟨u, _, htu⟩ := exists_mem_of_forall₂ h.flip ht
      exact htu.left x hx
    · obtain ⟨u, hu, hy⟩ := mem_freeVars_app.1 hy
      obtain ⟨t, _, htu⟩ := exists_mem_of_forall₂ h hu
      exact htu.right y hy

theorem sameValue_lit (n : Int64) : SameValue P Q (lit n) (lit n) :=
  ⟨rfl, nofun, nofun⟩

theorem sameValue_builtin (op : Builtin) : SameValue P Q (builtin op) (builtin op) :=
  ⟨rfl, nofun, nofun⟩

variable {p q : String}

theorem SameValue.fn {r s : Term} (h : SameValue (P.body p) (Q.body q) r s) :
    SameValue P Q (fn p r) (fn q s) where
  meaning := congrArg Nameless.fn h.meaning
  left x hx := by
    obtain ⟨hx, hxp⟩ := mem_freeVars_fn.1 hx
    exact (List.mem_cons.1 (h.left x hx)).resolve_left hxp
  right y hy := by
    obtain ⟨hy, hyq⟩ := mem_freeVars_fn.1 hy
    exact (List.mem_cons.1 (h.right y hy)).resolve_left hyq

variable (hp : p ∉ P.used) (hq : q ∉ Q.used)
include hp hq

theorem SameValue.body {v w : Term} (h : SameValue P Q v w) :
    SameValue (P.body p) (Q.body q) v w where
  meaning := (resolve_bind_eq_iff (mt (h.left p) hp) (mt (h.right q) hq) _ _).2 h.meaning
  left x hx := List.mem_cons_of_mem p (h.left x hx)
  right y hy := List.mem_cons_of_mem q (h.right y hy)

/-- Taking an argument leaves the names in use as they are, and what values mean. -/
theorem sameValue_argument {a b v w : Term} :
    SameValue (P.argument p a) (Q.argument q b) v w ↔ SameValue P Q v w := by
  constructor
  · intro h
    have hmeaning := resolve_bind_eq_iff (mt (h.left p) hp) (mt (h.right q) hq) P.meaning Q.meaning
    exact ⟨hmeaning.1 h.meaning, h.left, h.right⟩
  · intro h
    have hmeaning := resolve_bind_eq_iff (mt (h.left p) hp) (mt (h.right q) hq) P.meaning Q.meaning
    exact ⟨hmeaning.2 h.meaning, h.left, h.right⟩

omit hp hq in
theorem Found.of_find? {P' Q' : Place} {x y : String} (h : Found P Q x y)
    (hx : P'.scope.find? x = P.scope.find? x) (hy : Q'.scope.find? y = Q.scope.find? y)
    (hsame : ∀ {v w}, SameValue P Q v w → SameValue P' Q' v w) : Found P' Q' x y := by
  cases h with
  | unbound left right same => exact .unbound (hx.trans left) (hy.trans right) same
  | value left right same => exact .value (hx.trans left) (hy.trans right) (hsame same)

/-- The bodies of two functions are places that match, since each parameter is new there. -/
theorem Place.Matches.body (h : P.Matches Q) : (P.body p).Matches (Q.body q) where
  used hxy := by
    obtain ⟨rfl, rfl⟩ | ⟨hxp, hyq, hxy⟩ := bind_eq_bind_iff.1 hxy
    · exact iff_of_true List.mem_cons_self List.mem_cons_self
    · have hused := h.used hxy
      simpa [Place.body, hxp, hyq] using hused
  found {x y} hxy hx := by
    obtain ⟨rfl, rfl⟩ | ⟨hxp, hyq, hxy⟩ := bind_eq_bind_iff.1 hxy
    · exact absurd List.mem_cons_self hx
    · have hfound := h.found hxy fun hmem => hx (List.mem_cons_of_mem p hmem)
      apply hfound.of_find?
      · simp [Place.body, hxp]
      · simp [Place.body, hyq]
      · exact fun hsame => hsame.body hp hq

theorem Place.Matches.argument (h : P.Matches Q) {a b : Term} (hab : SameValue P Q a b) :
    (P.argument p a).Matches (Q.argument q b) where
  used hxy := by
    obtain ⟨rfl, rfl⟩ | ⟨_, _, hxy⟩ := bind_eq_bind_iff.1 hxy
    · exact iff_of_false hp hq
    · exact h.used hxy
  found {x y} hxy hx := by
    obtain ⟨rfl, rfl⟩ | ⟨hxp, hyq, hxy⟩ := bind_eq_bind_iff.1 hxy
    · refine .value (v := a) (w := b) ?_ ?_ ((sameValue_argument hp hq).2 hab)
      · simp [Place.argument]
      · simp [Place.argument]
    · have hfound := h.found hxy hx
      apply hfound.of_find?
      · simp [Place.argument, hxp]
      · simp [Place.argument, hyq]
      · exact (sameValue_argument hp hq).2

end

/-- Terms that mean the same at matching places have outcomes at this depth that agree. -/
def AgreesAt (depth : Nat) : Prop :=
  ∀ {P Q : Place} {t u : Term}, P.Matches Q → t.resolve P.meaning = u.resolve Q.meaning →
    AgreeBy (SameValue P Q) (t.reduce depth P.used P.scope) (u.reduce depth Q.used Q.scope)

section
variable {depth : Nat} {P Q : Place} (agrees : AgreesAt depth) (h : P.Matches Q)
include agrees h

theorem betaBy_agrees {p q : String} {b c a a' : Term}
    (hbody : b.resolve (bind P.meaning p) = c.resolve (bind Q.meaning q))
    (harg : SameValue P Q a a') :
    AgreeBy (SameValue P Q) (betaBy (reduce depth P.used) P.used P.scope p b a)
      (betaBy (reduce depth Q.used) Q.used Q.scope q c a') := by
  cases hp : renameApart P.used p b with
  | mk p' b' =>
      cases hq : renameApart Q.used q c with
      | mk q' c' =>
          rw [betaBy_of_renameApart hp, betaBy_of_renameApart hq]
          have hp' : p' ∉ P.used := not_mem_of_renameApart hp
          have hq' : q' ∉ Q.used := not_mem_of_renameApart hq
          rw [← resolve_bind_renameApart hp, ← resolve_bind_renameApart hq] at hbody
          have hagree := agrees (h.argument hp' hq' harg) hbody
          exact hagree.imp fun _ _ => (sameValue_argument hp' hq').1

omit agrees h in
theorem builtin_agrees (op : Builtin) {args args' : List Term} (ne : args ≠ [])
    (hargs : List.Forall₂ (SameValue P Q) args args') :
    AgreeBy (SameValue P Q)
      (applyTo (betaBy (reduce depth P.used) P.used P.scope) (builtin op) args)
      (applyTo (betaBy (reduce depth Q.used) Q.used Q.scope) (builtin op) args') := by
  have ne' : args' ≠ [] := by
    rintro rfl
    cases hargs
    exact ne rfl
  have hclosed : args.all isClosed = args'.all isClosed := by
    clear ne ne'
    induction hargs with
    | nil => rfl
    | cons same _ ih =>
        rw [List.all_cons, List.all_cons, ih,
          isClosed_of_resolve_eq P.isVariable Q.isVariable same.meaning]
  have hliterals : literals? args = literals? args' :=
    literals?_of_resolve_eq P.isVariable Q.isVariable (hargs.imp fun _ _ => SameValue.meaning)
  rw [applyTo_builtin op ne, applyTo_builtin op ne', hclosed]
  split
  · rw [op.apply_congr hliterals]
    cases hresult : op.apply args' with
    | error e => exact .error e
    | ok v =>
        obtain ⟨_, value, _, _, rfl⟩ := Builtin.apply_eq_ok_iff.1 hresult
        exact .ok (sameValue_lit value)
  · exact .ok (sameValue_app.2 (.cons (sameValue_builtin op) hargs))

theorem applyTo_agrees {head head' : Term} {args args' : List Term}
    (hhead : SameValue P Q head head') (hargs : List.Forall₂ (SameValue P Q) args args') :
    AgreeBy (SameValue P Q) (applyTo (betaBy (reduce depth P.used) P.used P.scope) head args)
      (applyTo (betaBy (reduce depth Q.used) Q.used Q.scope) head' args') := by
  induction hargs generalizing head head' with
  | nil =>
      rw [applyTo_nil, applyTo_nil]
      exact .ok hhead
  | @cons a a' args args' harg hargs ih =>
      cases parallel_of_resolve_eq P.isVariable Q.isVariable hhead.meaning with
      | var same => exact .ok (sameValue_app.2 (.cons hhead (.cons harg hargs)))
      | lit n => exact .error _
      | builtin op => exact builtin_agrees op (List.cons_ne_nil a args) (.cons harg hargs)
      | fn same =>
          rw [applyTo_fn, applyTo_fn]
          exact (betaBy_agrees agrees h same harg).bind fun _ _ hnext => ih hnext
      | app same =>
          have hterms := sameValue_app.1 hhead
          rw [applyTo_app _ (List.cons_ne_nil a args), applyTo_app _ (List.cons_ne_nil a' args')]
          exact .ok (sameValue_app.2 (List.rel_append hterms (.cons harg hargs)))

theorem fn_agrees {p q : String} {b c : Term}
    (hbody : b.resolve (bind P.meaning p) = c.resolve (bind Q.meaning q)) :
    AgreeBy (SameValue P Q) ((fn p b).reduce (depth + 1) P.used P.scope)
      ((fn q c).reduce (depth + 1) Q.used Q.scope) := by
  cases hp : renameApart P.used p b with
  | mk p' b' =>
      cases hq : renameApart Q.used q c with
      | mk q' c' =>
          rw [reduce_fn_of_renameApart hp, reduce_fn_of_renameApart hq]
          have hp' : p' ∉ P.used := not_mem_of_renameApart hp
          have hq' : q' ∉ Q.used := not_mem_of_renameApart hq
          rw [← resolve_bind_renameApart hp, ← resolve_bind_renameApart hq] at hbody
          exact (agrees (h.body hp' hq') hbody).map fun _ _ => SameValue.fn

theorem app_agrees {ts us : List Term}
    (hmembers : List.Forall₂ (fun t u => t.resolve P.meaning = u.resolve Q.meaning) ts us) :
    AgreeBy (SameValue P Q) ((app ts).reduce (depth + 1) P.used P.scope)
      ((app us).reduce (depth + 1) Q.used Q.scope) := by
  cases hmembers with
  | nil => exact .ok (sameValue_app.2 .nil)
  | cons hhead hargs =>
      rw [reduce_app_cons, reduce_app_cons]
      apply (agrees h hhead).bind
      intro head head' hheads
      apply (AgreeBy.mapM (hargs.imp fun _ _ => agrees h)).bind
      intro args args' hargs
      exact applyTo_agrees agrees h hheads hargs

theorem var_agrees {x y : String} (hxy : P.meaning x = Q.meaning y) :
    AgreeBy (SameValue P Q) ((var x).reduce (depth + 1) P.used P.scope)
      ((var y).reduce (depth + 1) Q.used Q.scope) := by
  by_cases hx : x ∈ P.used
  · have hy : y ∈ Q.used := (h.used hxy).1 hx
    rw [reduce_var_of_mem hx, reduce_var_of_mem hy]
    refine .ok ⟨hxy, fun z hz => ?_, fun z hz => ?_⟩
    · exact List.mem_singleton.1 hz ▸ hx
    · exact List.mem_singleton.1 hz ▸ hy
  · have hy : y ∉ Q.used := mt (h.used hxy).2 hx
    cases h.found hxy hx with
    | unbound left right same =>
        rw [reduce_var_of_unbound hx left, reduce_var_of_unbound hy right, same]
        exact .error _
    | value left right same =>
        rw [reduce_var_of_find? hx left, reduce_var_of_find? hy right]
        exact agrees h same.meaning

end

/-- Reduction does not tell apart what means the same. -/
theorem agreesAt (depth : Nat) : AgreesAt depth := by
  induction depth with
  | zero =>
      intro P Q t u _ _
      exact .error _
  | succ depth ih =>
      intro P Q t u h htu
      cases parallel_of_resolve_eq P.isVariable Q.isVariable htu with
      | var same => exact var_agrees ih h same
      | lit n => exact .ok (sameValue_lit n)
      | builtin op => exact .ok (sameValue_builtin op)
      | fn same => exact fn_agrees ih h same
      | app same => exact app_agrees ih h same

end Term
end LambdaInt
