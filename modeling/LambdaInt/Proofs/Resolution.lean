import LambdaInt.Term.Rename
import LambdaInt.Proofs.Substitution
import Mathlib.Logic.Function.Basic

/-!
Named terms read as nameless ones. `Term.resolve` gives every free name a nameless term and makes
parameters indices on the way, so that filling names in, renaming a parameter and applying a
function all become changes of the meaning of names. Nothing can be captured in this reading.
-/

namespace LambdaInt

/-- The meaning of names below a function with the parameter. -/
def bind (σ : String → Nameless) (param : String) : String → Nameless :=
  Function.update (fun x => (σ x).rename Nat.succ) param (.bound 0)

namespace Term

mutual

/-- The nameless term that a term means when its free names have the given meaning. -/
def resolve (σ : String → Nameless) : Term → Nameless
  | var x => σ x
  | lit n => .lit n
  | builtin op => .builtin op
  | fn p b => .fn (resolve (bind σ p) b)
  | app ts => .app (resolveAll σ ts)

def resolveAll (σ : String → Nameless) : List Term → List Nameless
  | [] => []
  | t :: ts => resolve σ t :: resolveAll σ ts

end

theorem resolveAll_eq_map (σ : String → Nameless) (ts : List Term) :
    resolveAll σ ts = ts.map (resolve σ) := by
  induction ts with
  | nil => rfl
  | cons t ts ih => simp [resolveAll, ih]

@[simp] theorem resolve_app (σ : String → Nameless) (ts : List Term) :
    (app ts).resolve σ = .app (ts.map (resolve σ)) := by
  rw [resolve, resolveAll_eq_map]

end Term

theorem bind_self (σ : String → Nameless) (p : String) : bind σ p p = .bound 0 :=
  Function.update_self ..

theorem bind_of_ne {x p : String} (h : x ≠ p) (σ : String → Nameless) :
    bind σ p x = (σ x).rename Nat.succ :=
  Function.update_of_ne h ..

theorem forall_bind {P : Nameless → Prop} {σ : String → Nameless} (h : ∀ x, P (σ x))
    (hzero : P (.bound 0)) (hsucc : ∀ t, P t → P (t.rename Nat.succ)) (p x : String) :
    P (bind σ p x) := by
  by_cases hx : x = p
  · rw [hx, bind_self]
    exact hzero
  · rw [bind_of_ne hx]
    exact hsucc _ (h x)

theorem update_bind {x p : String} (h : x ≠ p) (σ : String → Nameless) (a : Nameless) :
    Function.update (bind σ p) x (a.rename Nat.succ) = bind (Function.update σ x a) p := by
  funext y
  by_cases hyp : y = p
  · have hyx : y ≠ x := fun heq => h (heq ▸ hyp)
    rw [Function.update_of_ne hyx, hyp, bind_self, bind_self]
  · rw [bind_of_ne hyp]
    by_cases hyx : y = x
    · rw [hyx, Function.update_self, Function.update_self]
    · rw [Function.update_of_ne hyx, Function.update_of_ne hyx, bind_of_ne hyp]

/-- Every change of indices below a function can be made before the function is entered. -/
theorem comp_bind {f g : Nameless → Nameless} (hzero : g (.bound 0) = .bound 0)
    (hsucc : ∀ t : Nameless, g (t.rename Nat.succ) = (f t).rename Nat.succ)
    (σ : String → Nameless) (p : String) : g ∘ bind σ p = bind (f ∘ σ) p := by
  funext x
  by_cases h : x = p
  · rw [h, Function.comp_apply, bind_self, bind_self, hzero]
  · rw [Function.comp_apply, bind_of_ne h, bind_of_ne h, hsucc, Function.comp_apply]

namespace Term

theorem resolve_congr {t : Term} {σ τ : String → Nameless} (h : ∀ x ∈ t.freeVars, σ x = τ x) :
    t.resolve σ = t.resolve τ := by
  induction t generalizing σ τ with
  | var x => exact h x List.mem_cons_self
  | lit _ | builtin _ => rfl
  | fn p b ih =>
      refine congrArg Nameless.fn (ih fun x hx => ?_)
      by_cases hxp : x = p
      · rw [hxp, bind_self, bind_self]
      · rw [bind_of_ne hxp, bind_of_ne hxp, h x (mem_freeVars_fn.2 ⟨hx, hxp⟩)]
  | app ts ih =>
      rw [resolve_app, resolve_app]
      refine congrArg Nameless.app (List.map_congr_left fun t ht => ih t ht fun x hx => ?_)
      exact h x (mem_freeVars_app.2 ⟨t, ht, hx⟩)

theorem rename_resolve (t : Term) (σ : String → Nameless) (ρ : Nat → Nat) :
    (t.resolve σ).rename ρ = t.resolve (Nameless.rename ρ ∘ σ) := by
  induction t generalizing σ ρ with
  | var _ | lit _ | builtin _ => rfl
  | fn p b ih =>
      have hsucc (t : Nameless) :
          (t.rename Nat.succ).rename (Nameless.under ρ) = (t.rename ρ).rename Nat.succ := by
        rw [Nameless.rename_rename, Nameless.rename_rename]
        rfl
      rw [resolve, resolve, Nameless.rename_fn, ih, comp_bind rfl hsucc]
  | app ts ih =>
      simp only [resolve_app, Nameless.rename_app, List.map_map, Nameless.app.injEq]
      exact List.map_congr_left fun t ht => ih t ht σ ρ

theorem subst_resolve (t : Term) (σ : String → Nameless) (τ : Nat → Nameless) :
    (t.resolve σ).subst τ = t.resolve (Nameless.subst τ ∘ σ) := by
  induction t generalizing σ τ with
  | var _ | lit _ | builtin _ => rfl
  | fn p b ih =>
      have hsucc (t : Nameless) :
          (t.rename Nat.succ).subst (Nameless.lift τ) = (t.subst τ).rename Nat.succ := by
        rw [Nameless.subst_rename, Nameless.rename_subst]
        rfl
      rw [resolve, resolve, Nameless.subst_fn, ih, comp_bind rfl hsucc]
  | app ts ih =>
      simp only [resolve_app, Nameless.subst_app, List.map_map, Nameless.app.injEq]
      exact List.map_congr_left fun t ht => ih t ht σ τ

/-- Applying a function gives its parameter the meaning of the argument. -/
theorem instantiate_resolve (b : Term) (σ : String → Nameless) (p : String) (a : Nameless) :
    (b.resolve (bind σ p)).instantiate a = b.resolve (Function.update σ p a) := by
  rw [Nameless.instantiate_eq_subst, subst_resolve]
  refine congrArg (resolve · b) ?_
  funext x
  by_cases h : x = p
  · rw [h, Function.comp_apply, bind_self, Function.update_self]
    rfl
  · rw [Function.comp_apply, bind_of_ne h, Function.update_of_ne h]
    exact Nameless.subst_single_rename_succ (σ x) a

/-- Renaming a name gives it the meaning of the new one, if no function can catch that. -/
theorem resolve_rename {t : Term} {old new : String} (h : new ∉ t.params)
    (σ : String → Nameless) :
    (t.rename old new).resolve σ = t.resolve (Function.update σ old (σ new)) := by
  induction t generalizing σ with
  | var x =>
      by_cases hx : x = old
      · rw [rename, if_pos hx, resolve, resolve, hx, Function.update_self]
      · rw [rename, if_neg hx, resolve, resolve, Function.update_of_ne hx]
  | lit _ | builtin _ => rfl
  | fn p b ih =>
      obtain ⟨hne, hb⟩ := not_or.1 (mt List.mem_cons.2 h)
      by_cases hp : p = old
      · rw [rename, if_pos hp]
        apply resolve_congr
        intro x hx
        have hx : x ≠ old := hp ▸ (mem_freeVars_fn.1 hx).2
        rw [Function.update_of_ne hx]
      · rw [rename, if_neg hp, resolve, resolve, ih hb, bind_of_ne hne, update_bind (Ne.symm hp)]
  | app ts ih =>
      rw [rename, renameAll_eq_map, resolve_app, resolve_app, List.map_map]
      refine congrArg Nameless.app (List.map_congr_left fun t ht => ih t ht ?_ σ)
      exact fun hmem => h (mem_params_app.2 ⟨t, ht, hmem⟩)

/-- A function renamed apart means the same, whatever its parameter is to mean. -/
theorem resolve_renameApart {used : List String} {p q : String} {b c : Term}
    (h : renameApart used p b = (q, c)) (σ : String → Nameless) (a : Nameless) :
    c.resolve (Function.update σ q a) = b.resolve (Function.update σ p a) := by
  unfold renameApart at h
  split at h
  · cases h
    have hfresh : freshen (used ++ b.allVars) p ∉ b.allVars :=
      fun hmem => freshen_not_mem _ p (List.mem_append_right used hmem)
    rw [resolve_rename (mt mem_allVars_of_mem_params hfresh), Function.update_self]
    apply resolve_congr
    intro x hx
    by_cases hxp : x = p
    · rw [hxp, Function.update_self, Function.update_self]
    · have hne : x ≠ freshen (used ++ b.allVars) p :=
        fun heq => hfresh (heq ▸ mem_allVars_of_mem_freeVars hx)
      rw [Function.update_of_ne hxp, Function.update_of_ne hxp, Function.update_of_ne hne]
  · cases h
    rfl

/-- The meaning of names at a place below the parameters, innermost first. -/
def named (binders : List String) (x : String) : Nameless :=
  match binders.idxOf? x with
  | some i => .bound i
  | none => .free x

theorem named_nil : named [] = Nameless.free :=
  rfl

theorem bind_named (binders : List String) (p : String) :
    bind (named binders) p = named (p :: binders) := by
  funext x
  by_cases h : x = p
  · rw [h, bind_self, named, List.idxOf?_cons, if_pos (beq_self_eq_true p)]
  · have hne : ¬ (p == x) = true := fun heq => h (beq_iff_eq.1 heq).symm
    rw [bind_of_ne h, named, named, List.idxOf?_cons, if_neg hne]
    cases binders.idxOf? x <;> rfl

theorem nameless_eq_resolve (t : Term) (binders : List String) :
    t.nameless binders = t.resolve (named binders) := by
  induction t generalizing binders with
  | var _ | lit _ | builtin _ => rfl
  | fn p b ih => rw [nameless, resolve, ih, bind_named]
  | app ts ih =>
      rw [nameless, namelessAll_eq_map, resolve_app]
      exact congrArg Nameless.app (List.map_congr_left fun t ht => ih t ht binders)

theorem rename_nameless_nil (t : Term) (ρ : Nat → Nat) :
    (t.nameless []).rename ρ = t.nameless [] := by
  rw [nameless_eq_resolve, named_nil, rename_resolve]
  rfl

/-- Replacing free names by closed readings of terms changes what these names mean. -/
theorem replace_nameless (value : String → Option Term) (t : Term) (binders : List String) :
    (t.nameless binders).replace (fun x => (value x).map (nameless [])) =
      t.resolve fun x =>
        (named binders x).replace fun y => (value y).map (nameless []) := by
  induction t generalizing binders with
  | var _ | lit _ | builtin _ => rfl
  | fn p b ih =>
      rw [nameless, Nameless.replace, ih, resolve, ← bind_named]
      refine congrArg (fun σ => Nameless.fn (b.resolve σ)) ?_
      funext x
      by_cases h : x = p
      · rw [h, bind_self, bind_self]
        rfl
      · rw [bind_of_ne h, bind_of_ne h]
        cases hindex : binders.idxOf? x with
        | some i => simp [named, hindex, Nameless.replace]
        | none =>
            cases hvalue : value x with
            | some v => simp [named, hindex, Nameless.replace, hvalue, rename_nameless_nil]
            | none => simp [named, hindex, Nameless.replace, hvalue]
  | app ts ih =>
      rw [nameless, namelessAll_eq_map, Nameless.replace, Nameless.replaceAll_eq_map,
        resolve_app, List.map_map]
      exact congrArg Nameless.app (List.map_congr_left fun t ht => ih t ht binders)

end Term
end LambdaInt
