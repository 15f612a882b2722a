import LambdaInt.Proofs.Substitution
import Mathlib.Logic.Relation

/-!
The λ-calculus behind the terms: every function is applied to one argument at a time, and names,
literals and builtins are atoms that nothing happens to. The only steps are those of functions.
-/

namespace LambdaInt

inductive Atom
  | free (name : String)
  | lit (value : Int64)
  | builtin (op : Builtin)

inductive Curried
  | bound (index : Nat)
  | atom (a : Atom)
  | fn (body : Curried)
  | app (f a : Curried)

namespace Curried
open Nameless (under under_comp)

def rename (ρ : Nat → Nat) : Curried → Curried
  | bound i => bound (ρ i)
  | atom a => atom a
  | fn b => fn (rename (under ρ) b)
  | app f a => app (rename ρ f) (rename ρ a)

def lift (σ : Nat → Curried) : Nat → Curried
  | 0 => bound 0
  | i + 1 => (σ i).rename Nat.succ

def subst (σ : Nat → Curried) : Curried → Curried
  | bound i => σ i
  | atom a => atom a
  | fn b => fn (subst (lift σ) b)
  | app f a => app (subst σ f) (subst σ a)

def single (a : Curried) : Nat → Curried
  | 0 => a
  | i + 1 => bound i

def instantiate (b a : Curried) : Curried :=
  b.subst (single a)

theorem rename_rename (t : Curried) (ρ ρ' : Nat → Nat) :
    (t.rename ρ).rename ρ' = t.rename (ρ' ∘ ρ) := by
  induction t generalizing ρ ρ' with
  | bound _ | atom _ => rfl
  | fn b ih => simp only [rename, ih, under_comp]
  | app f a ihf iha => simp only [rename, ihf, iha]

theorem lift_under (σ : Nat → Curried) (ρ : Nat → Nat) : lift σ ∘ under ρ = lift (σ ∘ ρ) := by
  funext i
  cases i <;> rfl

theorem subst_rename (t : Curried) (ρ : Nat → Nat) (σ : Nat → Curried) :
    (t.rename ρ).subst σ = t.subst (σ ∘ ρ) := by
  induction t generalizing ρ σ with
  | bound _ | atom _ => rfl
  | fn b ih => simp only [rename, subst, ih, lift_under]
  | app f a ihf iha => simp only [rename, subst, ihf, iha]

theorem rename_lift (σ : Nat → Curried) (ρ : Nat → Nat) :
    rename (under ρ) ∘ lift σ = lift (rename ρ ∘ σ) := by
  funext i
  cases i with
  | zero => rfl
  | succ i =>
      have hcomp : under ρ ∘ Nat.succ = Nat.succ ∘ ρ := rfl
      simp only [Function.comp_apply, lift, rename_rename, hcomp]

theorem rename_subst (t : Curried) (σ : Nat → Curried) (ρ : Nat → Nat) :
    (t.subst σ).rename ρ = t.subst (rename ρ ∘ σ) := by
  induction t generalizing σ ρ with
  | bound _ | atom _ => rfl
  | fn b ih => simp only [rename, subst, ih, rename_lift]
  | app f a ihf iha => simp only [rename, subst, ihf, iha]

theorem subst_lift (σ τ : Nat → Curried) : subst (lift τ) ∘ lift σ = lift (subst τ ∘ σ) := by
  funext i
  cases i with
  | zero => rfl
  | succ i =>
      have hcomp : lift τ ∘ Nat.succ = rename Nat.succ ∘ τ := rfl
      simp only [Function.comp_apply, lift, subst_rename, rename_subst, hcomp]

theorem subst_subst (t : Curried) (σ τ : Nat → Curried) :
    (t.subst σ).subst τ = t.subst (subst τ ∘ σ) := by
  induction t generalizing σ τ with
  | bound _ | atom _ => rfl
  | fn b ih => simp only [subst, ih, subst_lift]
  | app f a ihf iha => simp only [subst, ihf, iha]

theorem lift_bound : lift bound = bound := by
  funext i
  cases i <;> rfl

theorem subst_id (t : Curried) : t.subst bound = t := by
  induction t with
  | bound _ | atom _ => rfl
  | fn b ih => rw [subst, lift_bound, ih]
  | app f a ihf iha => rw [subst, ihf, iha]

theorem instantiate_rename (b a : Curried) (ρ : Nat → Nat) :
    (b.instantiate a).rename ρ = (b.rename (under ρ)).instantiate (a.rename ρ) := by
  rw [instantiate, instantiate, rename_subst, subst_rename]
  refine congrArg b.subst ?_
  funext i
  cases i <;> rfl

theorem instantiate_subst (b a : Curried) (σ : Nat → Curried) :
    (b.instantiate a).subst σ = (b.subst (lift σ)).instantiate (a.subst σ) := by
  rw [instantiate, instantiate, subst_subst, subst_subst]
  refine congrArg b.subst ?_
  funext i
  cases i with
  | zero => rfl
  | succ i =>
      rw [Function.comp_apply, Function.comp_apply, lift, subst_rename]
      exact (subst_id (σ i)).symm

inductive Step : Curried → Curried → Prop
  | beta (b a : Curried) : Step (app (fn b) a) (b.instantiate a)
  | fn {b c : Curried} (step : Step b c) : Step (fn b) (fn c)
  | left {f g : Curried} (a : Curried) (step : Step f g) : Step (app f a) (app g a)
  | right (f : Curried) {a c : Curried} (step : Step a c) : Step (app f a) (app f c)

abbrev Steps : Curried → Curried → Prop :=
  Relation.ReflTransGen Step

/-- One step or more. -/
abbrev Progress : Curried → Curried → Prop :=
  Relation.TransGen Step

def Irreducible (t : Curried) : Prop :=
  ∀ u, ¬ Step t u

/-- No infinite row of steps begins at the term. -/
def Terminates (t : Curried) : Prop :=
  Acc (fun u t => Step t u) t

theorem Irreducible.terminates {t : Curried} (h : Irreducible t) : Terminates t :=
  Acc.intro t fun u hu => absurd hu (h u)

theorem Irreducible.eq_of_steps {t u : Curried} (h : Irreducible t) (hsteps : Steps t u) :
    u = t := by
  induction hsteps with
  | refl => rfl
  | tail _ step ih =>
      rw [ih] at step
      exact absurd step (h _)

theorem Terminates.steps {t u : Curried} (h : Terminates t) (hsteps : Steps t u) :
    Terminates u := by
  induction hsteps with
  | refl => exact h
  | tail _ step ih => exact ih.inv step

theorem Steps.fn {b c : Curried} (h : Steps b c) : Steps (fn b) (fn c) :=
  Relation.ReflTransGen.lift Curried.fn (fun _ _ step => Step.fn step) _ _ h

theorem Steps.app {f g a c : Curried} (hf : Steps f g) (ha : Steps a c) :
    Steps (app f a) (app g c) := by
  have hleft : Steps (Curried.app f a) (Curried.app g a) :=
    Relation.ReflTransGen.lift (Curried.app · a) (fun _ _ step => Step.left a step) _ _ hf
  have hright : Steps (Curried.app g a) (Curried.app g c) :=
    Relation.ReflTransGen.lift (Curried.app g) (fun _ _ step => Step.right g step) _ _ ha
  exact hleft.trans hright

theorem Progress.fn {b c : Curried} (h : Progress b c) : Progress (fn b) (fn c) :=
  Relation.TransGen.lift Curried.fn (fun _ _ step => Step.fn step) _ _ h

theorem Progress.left {f g : Curried} (h : Progress f g) (a : Curried) :
    Progress (app f a) (app g a) :=
  Relation.TransGen.lift (Curried.app · a) (fun _ _ step => Step.left a step) _ _ h

theorem Progress.right {a c : Curried} (f : Curried) (h : Progress a c) :
    Progress (app f a) (app f c) :=
  Relation.TransGen.lift (Curried.app f) (fun _ _ step => Step.right f step) _ _ h

theorem Step.rename {t u : Curried} (h : Step t u) (ρ : Nat → Nat) :
    Step (t.rename ρ) (u.rename ρ) := by
  induction h generalizing ρ with
  | beta b a =>
      rw [instantiate_rename]
      exact .beta _ _
  | fn _ ih => exact .fn (ih (under ρ))
  | left a _ ih => exact .left _ (ih ρ)
  | right f _ ih => exact .right _ (ih ρ)

theorem Step.subst {t u : Curried} (h : Step t u) (σ : Nat → Curried) :
    Step (t.subst σ) (u.subst σ) := by
  induction h generalizing σ with
  | beta b a =>
      rw [instantiate_subst]
      exact .beta _ _
  | fn _ ih => exact .fn (ih (lift σ))
  | left a _ ih => exact .left _ (ih σ)
  | right f _ ih => exact .right _ (ih σ)

theorem Steps.subst {t u : Curried} (h : Steps t u) (σ : Nat → Curried) :
    Steps (t.subst σ) (u.subst σ) :=
  Relation.ReflTransGen.lift (Curried.subst σ) (fun _ _ step => Step.subst step σ) _ _ h

theorem steps_lift {σ τ : Nat → Curried} (h : ∀ i, Steps (σ i) (τ i)) (i : Nat) :
    Steps (lift σ i) (lift τ i) := by
  cases i with
  | zero => exact .refl
  | succ i =>
      refine Relation.ReflTransGen.lift (Curried.rename Nat.succ) ?_ _ _ (h i)
      intro t u step
      exact step.rename Nat.succ

theorem steps_subst (t : Curried) {σ τ : Nat → Curried} (h : ∀ i, Steps (σ i) (τ i)) :
    Steps (t.subst σ) (t.subst τ) := by
  induction t generalizing σ τ with
  | bound i => exact h i
  | atom _ => exact .refl
  | fn b ih => exact (ih (steps_lift h)).fn
  | app f a ihf iha => exact (ihf h).app (iha h)

theorem steps_single {a c : Curried} (h : Steps a c) (i : Nat) :
    Steps (single a i) (single c i) := by
  cases i with
  | zero => exact h
  | succ i => exact .refl

theorem Steps.instantiate {b c a d : Curried} (hb : Steps b c) (ha : Steps a d) :
    Steps (b.instantiate a) (c.instantiate d) :=
  (hb.subst _).trans (steps_subst c (steps_single ha))

end Curried
end LambdaInt
