import LambdaInt.Proofs.AlphaInvariance

/-!
What it takes for terms to differ at most in the names of parameters. They have equal nameless
forms, whatever the parameters are called and however often a name is used again; so this is an
equivalence that functions and applications keep, the free variables are the same, and at each place
both terms have a variable of the same function, or the same free one.
-/

namespace LambdaInt

namespace Term

/-- What means the same does so as long as names that stood for one variable still do. -/
theorem resolve_eq_of_imp {t u : Term} {σ τ σ' τ' : String → Nameless}
    (hσ : ∀ x, IsVariable (σ x)) (hτ : ∀ x, IsVariable (τ x))
    (himp : ∀ x y, σ x = τ y → σ' x = τ' y) (h : t.resolve σ = u.resolve τ) :
    t.resolve σ' = u.resolve τ' := by
  induction t generalizing u σ τ σ' τ' with
  | var x =>
      cases parallel_of_resolve_eq hσ hτ h with
      | var same => exact himp _ _ same
  | lit n =>
      cases parallel_of_resolve_eq hσ hτ h
      rfl
  | builtin op =>
      cases parallel_of_resolve_eq hσ hτ h
      rfl
  | fn p b ih =>
      cases parallel_of_resolve_eq hσ hτ h with
      | @fn _ q _ c same =>
          refine congrArg Nameless.fn ?_
          apply ih (isVariable_bind hσ p) (isVariable_bind hτ q) _ same
          intro x y hxy
          -- the parameters stand for one variable, and other names do as they did outside
          refine bind_eq_bind_iff.2 ((bind_eq_bind_iff.1 hxy).imp_right fun ⟨hx, hy, hout⟩ => ?_)
          exact ⟨hx, hy, himp x y hout⟩
  | app ts ih =>
      cases parallel_of_resolve_eq hσ hτ h with
      | app same =>
          have hmembers := (List.forall₂_and_left _ _).2 ⟨ih, same⟩
          refine resolve_app_eq_iff.2 (hmembers.imp ?_)
          exact fun _ _ ⟨iht, htu⟩ => iht hσ hτ himp htu

theorem alphaEquivalent_resolve {t u : Term} (h : t.alphaEquivalent u = true)
    (σ : String → Nameless) : t.resolve σ = u.resolve σ := by
  refine resolve_eq_of_imp isVariable_free isVariable_free ?_ (alphaEquivalent_iff_resolve.1 h)
  intro x y hxy
  rw [Nameless.free.inj hxy]

theorem alphaEquivalent_equivalence : Equivalence fun t u : Term => t.alphaEquivalent u = true where
  refl _ := alphaEquivalent_iff.2 rfl
  symm h := alphaEquivalent_iff.2 (alphaEquivalent_iff.1 h).symm
  trans h h' := alphaEquivalent_iff.2 ((alphaEquivalent_iff.1 h).trans (alphaEquivalent_iff.1 h'))

theorem alphaEquivalent_fn {p : String} {b c : Term} :
    (fn p b).alphaEquivalent (fn p c) = true ↔ b.alphaEquivalent c = true := by
  constructor
  · intro h
    have hbody := Nameless.fn.inj (alphaEquivalent_iff_resolve.1 h)
    have hvariable := isVariable_bind isVariable_free p
    refine alphaEquivalent_iff_resolve.2 (resolve_eq_of_imp hvariable hvariable ?_ hbody)
    intro x y hxy
    obtain ⟨rfl, rfl⟩ | ⟨_, _, hout⟩ := bind_eq_bind_iff.1 hxy
    · rfl
    · exact hout
  · intro h
    exact alphaEquivalent_iff_resolve.2 (congrArg Nameless.fn (alphaEquivalent_resolve h _))

theorem alphaEquivalent_app {ts us : List Term} :
    (app ts).alphaEquivalent (app us) = true ↔
      List.Forall₂ (fun t u => t.alphaEquivalent u = true) ts us := by
  rw [alphaEquivalent_iff_resolve, resolve_app_eq_iff]
  simp only [alphaEquivalent_iff_resolve]

theorem mem_freeVars_iff_of_alphaEquivalent {t u : Term} (h : t.alphaEquivalent u = true)
    (x : String) : x ∈ t.freeVars ↔ x ∈ u.freeVars :=
  ⟨mem_freeVars_of_alphaEquivalent (alphaEquivalent_equivalence.symm h),
    mem_freeVars_of_alphaEquivalent h⟩

/-- The part of a term that a path leads to, with the parameters above it, innermost first. Each
step of a path is the index of a member of an application, or 0 for the body of a function. -/
def subterm? (binders : List String) : List Nat → Term → Option (List String × Term)
  | [], t => some (binders, t)
  | 0 :: path, fn p b => subterm? (p :: binders) path b
  | i :: path, app ts => ts[i]?.bind (subterm? binders path)
  | _ :: _, _ => none

end Term

/-- The part of a nameless term that a path leads to. -/
def Nameless.subterm? : List Nat → Nameless → Option Nameless
  | [], t => some t
  | 0 :: path, fn b => subterm? path b
  | i :: path, app ts => ts[i]?.bind (subterm? path)
  | _ :: _, _ => none

namespace Term

theorem subterm?_named (binders : List String) (x : String) (i : Nat) (path : List Nat) :
    (named binders x).subterm? (i :: path) = none := by
  obtain ⟨j, hj⟩ | hx := named_cases binders x
  · rw [hj]
    cases i <;> rfl
  · rw [hx]
    cases i <;> rfl

theorem subterm?_nameless (t : Term) (binders : List String) (path : List Nat) :
    (t.nameless binders).subterm? path =
      (t.subterm? binders path).map fun part => part.2.nameless part.1 := by
  induction path generalizing t binders with
  | nil => rfl
  | cons i path ih =>
      cases t with
      | var x =>
          cases i <;> exact subterm?_named binders x _ path
      | lit _ | builtin _ => cases i <;> rfl
      | fn p b =>
          cases i with
          | zero => exact ih b (p :: binders)
          | succ _ => rfl
      | app ts =>
          have hmember : (ts.map (nameless binders))[i]?.bind (Nameless.subterm? path) =
              (ts[i]?.bind (subterm? binders path)).map fun part => part.2.nameless part.1 := by
            rw [List.getElem?_map]
            cases ts[i]? with
            | none => rfl
            | some u => exact ih u binders
          rw [nameless, namelessAll_eq_map]
          cases i <;> exact hmember

theorem idxOf?_eq_of_named_eq {ps qs : List String} {x y : String} (h : named ps x = named qs y) :
    ps.idxOf? x = qs.idxOf? y := by
  unfold named at h
  cases hx : ps.idxOf? x with
  | none =>
      cases hy : qs.idxOf? y with
      | none => rfl
      | some j => simp [hx, hy] at h
  | some i =>
      cases hy : qs.idxOf? y with
      | none => simp [hx, hy] at h
      | some j =>
          simp only [hx, hy, Nameless.bound.injEq] at h
          rw [h]

/-- At the same place, both terms have a variable that is free, or one of the same function. -/
theorem idxOf?_eq_of_alphaEquivalent {t u : Term} (h : t.alphaEquivalent u = true)
    {path : List Nat} {ps qs : List String} {x y : String}
    (ht : t.subterm? [] path = some (ps, var x)) (hu : u.subterm? [] path = some (qs, var y)) :
    ps.idxOf? x = qs.idxOf? y := by
  have hpart := congrArg (Nameless.subterm? path) (alphaEquivalent_iff.1 h)
  rw [subterm?_nameless, subterm?_nameless, ht, hu] at hpart
  exact idxOf?_eq_of_named_eq (Option.some.inj hpart)

/-- The comparison holds for terms with equal nameless forms and no others. It is an equivalence; a
function or an application passes it exactly if its parts do; terms that pass it have the same free
variables; and if at one place a variable is caught by a function in the one term, and in the other
is free or caught by another function, they do not pass. -/
theorem alphaEquivalent_exact :
    (∀ t u : Term, t.alphaEquivalent u = true ↔ t.nameless [] = u.nameless []) ∧
    (Equivalence fun t u : Term => t.alphaEquivalent u = true) ∧
    (∀ (p : String) (b c : Term),
      (fn p b).alphaEquivalent (fn p c) = true ↔ b.alphaEquivalent c = true) ∧
    (∀ ts us : List Term, (app ts).alphaEquivalent (app us) = true ↔
      List.Forall₂ (fun t u => t.alphaEquivalent u = true) ts us) ∧
    (∀ t u : Term, t.alphaEquivalent u = true → ∀ x, x ∈ t.freeVars ↔ x ∈ u.freeVars) ∧
    ∀ (t u : Term) (path : List Nat) (ps qs : List String) (x y : String),
      t.subterm? [] path = some (ps, var x) → u.subterm? [] path = some (qs, var y) →
        ps.idxOf? x ≠ qs.idxOf? y → t.alphaEquivalent u = false := by
  refine ⟨fun _ _ => alphaEquivalent_iff, alphaEquivalent_equivalence,
    fun _ _ _ => alphaEquivalent_fn, fun _ _ => alphaEquivalent_app,
    fun _ _ => mem_freeVars_iff_of_alphaEquivalent, ?_⟩
  intro t u path ps qs x y ht hu hne
  cases hsame : t.alphaEquivalent u with
  | false => rfl
  | true => exact absurd (idxOf?_eq_of_alphaEquivalent hsame ht hu) hne

/-- The parameter `x` is used again on the left only; and `y` is free below it, caught there if the
parameter is named so. -/
theorem alphaEquivalent_exact_shadowed :
    (fn "x" (fn "x" (app [var "x", var "y"]))).alphaEquivalent
        (fn "y" (fn "x" (app [var "x", var "y"]))) = false ∧
      (fn "x" (fn "x" (app [var "x", var "y"]))).alphaEquivalent
        (fn "x" (fn "z" (app [var "z", var "y"]))) = true ∧
      (∀ v, v ∈ (fn "x" (fn "x" (app [var "x", var "y"]))).freeVars ↔
        v ∈ (fn "x" (fn "z" (app [var "z", var "y"]))).freeVars) ∧
      (fn "x" (fn "x" (var "x"))).alphaEquivalent (fn "x" (fn "y" (var "x"))) = false := by
  have hsame : (fn "x" (fn "x" (app [var "x", var "y"]))).alphaEquivalent
      (fn "x" (fn "z" (app [var "z", var "y"]))) = true :=
    (alphaEquivalent_exact.1 _ _).2 (by cbv)
  obtain ⟨_, _, _, _, hfree, hcaught⟩ := alphaEquivalent_exact
  refine ⟨?_, hsame, hfree _ _ hsame, ?_⟩
  · exact hcaught _ _ [0, 0, 1] ["x", "x"] ["x", "y"] "y" "y" rfl rfl (by decide)
  · exact hcaught _ _ [0, 0] ["x", "x"] ["y", "x"] "x" "x" rfl rfl (by decide)

end Term
end LambdaInt
