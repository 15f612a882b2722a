import LambdaInt.Nameless

/-!
Laws of renaming and substitution on nameless terms. Each says that two passes over a term are one
pass with the two functions composed, first for renaming alone and then with a substitution on
either side of it.
-/

namespace LambdaInt.Nameless

@[simp] theorem rename_bound (ρ : Nat → Nat) (i : Nat) : (bound i).rename ρ = bound (ρ i) :=
  rfl

@[simp] theorem rename_free (ρ : Nat → Nat) (x : String) : (free x).rename ρ = free x :=
  rfl

@[simp] theorem rename_lit (ρ : Nat → Nat) (n : Int64) : (lit n).rename ρ = lit n :=
  rfl

@[simp] theorem rename_builtin (ρ : Nat → Nat) (op : Builtin) :
    (builtin op).rename ρ = builtin op :=
  rfl

@[simp] theorem rename_fn (ρ : Nat → Nat) (b : Nameless) :
    (fn b).rename ρ = fn (b.rename (under ρ)) :=
  rfl

@[simp] theorem rename_app (ρ : Nat → Nat) (ts : List Nameless) :
    (app ts).rename ρ = app (ts.map (rename ρ)) := by
  rw [rename, renameAll_eq_map]

@[simp] theorem subst_bound (σ : Nat → Nameless) (i : Nat) : (bound i).subst σ = σ i :=
  rfl

@[simp] theorem subst_free (σ : Nat → Nameless) (x : String) : (free x).subst σ = free x :=
  rfl

@[simp] theorem subst_lit (σ : Nat → Nameless) (n : Int64) : (lit n).subst σ = lit n :=
  rfl

@[simp] theorem subst_builtin (σ : Nat → Nameless) (op : Builtin) :
    (builtin op).subst σ = builtin op :=
  rfl

@[simp] theorem subst_fn (σ : Nat → Nameless) (b : Nameless) :
    (fn b).subst σ = fn (b.subst (lift σ)) :=
  rfl

@[simp] theorem subst_app (σ : Nat → Nameless) (ts : List Nameless) :
    (app ts).subst σ = app (ts.map (subst σ)) := by
  rw [subst, substAll_eq_map]

theorem application_of_ne_nil (head : Nameless) {args : List Nameless} (ne : args ≠ []) :
    head.application args = app (head :: args) := by
  cases args with
  | nil => exact absurd rfl ne
  | cons arg args => rfl

theorem under_comp (ρ ρ' : Nat → Nat) : under ρ' ∘ under ρ = under (ρ' ∘ ρ) := by
  funext i
  cases i <;> rfl

theorem rename_rename (t : Nameless) (ρ ρ' : Nat → Nat) :
    (t.rename ρ).rename ρ' = t.rename (ρ' ∘ ρ) := by
  induction t generalizing ρ ρ' with
  | bound _ | free _ | lit _ | builtin _ => rfl
  | fn b ih => simp only [rename_fn, ih, under_comp]
  | app ts ih =>
      simp only [rename_app, List.map_map, app.injEq]
      exact List.map_congr_left fun t ht => ih t ht ρ ρ'

theorem lift_under (σ : Nat → Nameless) (ρ : Nat → Nat) : lift σ ∘ under ρ = lift (σ ∘ ρ) := by
  funext i
  cases i <;> rfl

theorem subst_rename (t : Nameless) (ρ : Nat → Nat) (σ : Nat → Nameless) :
    (t.rename ρ).subst σ = t.subst (σ ∘ ρ) := by
  induction t generalizing ρ σ with
  | bound _ | free _ | lit _ | builtin _ => rfl
  | fn b ih => simp only [rename_fn, subst_fn, ih, lift_under]
  | app ts ih =>
      simp only [rename_app, subst_app, List.map_map, app.injEq]
      exact List.map_congr_left fun t ht => ih t ht ρ σ

theorem rename_lift (σ : Nat → Nameless) (ρ : Nat → Nat) :
    rename (under ρ) ∘ lift σ = lift (rename ρ ∘ σ) := by
  funext i
  cases i with
  | zero => rfl
  | succ i =>
      have hcomp : under ρ ∘ Nat.succ = Nat.succ ∘ ρ := rfl
      simp only [Function.comp_apply, lift, rename_rename, hcomp]

theorem rename_subst (t : Nameless) (σ : Nat → Nameless) (ρ : Nat → Nat) :
    (t.subst σ).rename ρ = t.subst (rename ρ ∘ σ) := by
  induction t generalizing σ ρ with
  | bound _ | free _ | lit _ | builtin _ => rfl
  | fn b ih => simp only [rename_fn, subst_fn, ih, rename_lift]
  | app ts ih =>
      simp only [rename_app, subst_app, List.map_map, app.injEq]
      exact List.map_congr_left fun t ht => ih t ht σ ρ

theorem lift_bound : lift bound = bound := by
  funext i
  cases i <;> rfl

theorem subst_id (t : Nameless) : t.subst bound = t := by
  induction t with
  | bound _ | free _ | lit _ | builtin _ => rfl
  | fn b ih => rw [subst_fn, lift_bound, ih]
  | app ts ih =>
      rw [subst_app, List.map_congr_left ih, List.map_id']

/-- The substitution that `instantiate` carries out. -/
def single (arg : Nameless) : Nat → Nameless
  | 0 => arg
  | i + 1 => bound i

theorem instantiate_eq_subst (body arg : Nameless) :
    body.instantiate arg = body.subst (single arg) := by
  refine congrArg body.subst ?_
  funext i
  cases i <;> rfl

/-- A term that was moved below a function and has its parameter filled in is as it was. -/
theorem subst_single_rename_succ (t arg : Nameless) :
    (t.rename Nat.succ).subst (single arg) = t := by
  rw [subst_rename]
  exact subst_id t

end LambdaInt.Nameless
