import LambdaInt.Proofs.Conservation
import LambdaInt.Proofs.Failing
import LambdaInt.Proofs.Uniqueness

/-!
A literal that is applied stays applied. No step takes an argument to a literal, and where no
function discards its argument no step drops the application, so it is found in the normal form;
but values apply no literals.
-/

namespace LambdaInt

namespace Curried

/-- Somewhere in the term a literal is applied. -/
inductive AppliesLiteral : Curried → Prop
  | here (n : Int64) (a : Curried) : AppliesLiteral (app (.atom (.lit n)) a)
  | fn {b : Curried} (body : AppliesLiteral b) : AppliesLiteral (fn b)
  | left {f : Curried} (left : AppliesLiteral f) (a : Curried) : AppliesLiteral (app f a)
  | right (f : Curried) {a : Curried} (right : AppliesLiteral a) : AppliesLiteral (app f a)

theorem AppliesLiteral.rename {t : Curried} (h : AppliesLiteral t) (ρ : Nat → Nat) :
    AppliesLiteral (t.rename ρ) := by
  induction h generalizing ρ with
  | here n a => exact .here n _
  | fn _ ih => exact .fn (ih _)
  | left _ a ih => exact .left (ih ρ) _
  | right f _ ih => exact .right _ (ih ρ)

theorem AppliesLiteral.subst {t : Curried} (h : AppliesLiteral t) (σ : Nat → Curried) :
    AppliesLiteral (t.subst σ) := by
  induction h generalizing σ with
  | here n a => exact .here n _
  | fn _ ih => exact .fn (ih _)
  | left _ a ih => exact .left (ih σ) _
  | right f _ ih => exact .right _ (ih σ)

theorem appliesLiteral_subst {t : Curried} {w : Nat → Nat} (hw : 0 < t.weigh w)
    {σ : Nat → Curried} (h : ∀ i, 0 < w i → AppliesLiteral (σ i)) :
    AppliesLiteral (t.subst σ) := by
  induction t generalizing w σ with
  | bound i => exact h i hw
  | atom _ => exact absurd hw (Nat.lt_irrefl 0)
  | fn b ih =>
      refine .fn (ih hw fun i hi => ?_)
      cases i with
      | zero => exact absurd hi (Nat.lt_irrefl 0)
      | succ i => exact (h i hi).rename Nat.succ
  | app f a ihf iha =>
      rw [weigh] at hw
      by_cases hf : 0 < f.weigh w
      · exact .left (ihf hf h) _
      · exact .right _ (iha (by omega) h)

theorem AppliesLiteral.step {t u : Curried} (h : AppliesLiteral t) (step : Step t u)
    (ht : Relevant t) : AppliesLiteral u := by
  induction step with
  | beta b a =>
      cases h with
      | left hf =>
          cases hf with
          | fn hb => exact hb.subst _
      | right _ ha =>
          apply appliesLiteral_subst ht.1.1
          intro i hi
          cases i with
          | zero => exact ha
          | succ i => exact absurd hi (Nat.lt_irrefl 0)
  | fn _ ih =>
      cases h with
      | fn hb => exact .fn (ih hb ht.2)
  | left a step ih =>
      cases h with
      | here n => cases step
      | left hf => exact .left (ih hf ht.1) a
      | right _ ha => exact .right _ ha
  | right f step ih =>
      cases h with
      | here n => exact .here n _
      | left hf => exact .left hf _
      | right _ ha => exact .right f (ih ha ht.2)

theorem AppliesLiteral.steps {t u : Curried} (h : AppliesLiteral t) (steps : Steps t u)
    (ht : Relevant t) : AppliesLiteral u := by
  induction steps with
  | refl => exact h
  | tail steps step ih => exact ih.step step (ht.steps steps)

theorem AppliesLiteral.spine {f : Curried} (h : AppliesLiteral f) (as : List Curried) :
    AppliesLiteral (f.spine as) := by
  induction as generalizing f with
  | nil => exact h
  | cons a as ih => exact ih (.left h a)

theorem AppliesLiteral.spine_arg (f : Curried) {as : List Curried} {a : Curried} (ha : a ∈ as)
    (h : AppliesLiteral a) : AppliesLiteral (f.spine as) := by
  obtain ⟨before, after, rfl⟩ := List.append_of_mem ha
  rw [spine_append, spine_cons]
  exact AppliesLiteral.spine (.right _ h) after

theorem AppliesLiteral.of_spine {f : Curried} {as : List Curried} (h : AppliesLiteral (f.spine as))
    (hf : f.IsLeaf) (hlit : ∀ n, f ≠ .atom (.lit n)) : ∃ a ∈ as, AppliesLiteral a := by
  induction as using List.reverseRecOn with
  | nil => cases h <;> exact hf.elim
  | append_singleton as a ih =>
      rw [spine_append, spine_cons, spine_nil] at h
      generalize hg : f.spine as = g at h
      cases h with
      | here n =>
          have hhead := congrArg head hg
          rw [head_spine, hf.head_eq] at hhead
          exact absurd hhead (hlit n)
      | left hleft =>
          obtain ⟨c, hc, happlies⟩ := ih (hg ▸ hleft)
          exact ⟨c, List.mem_append_left [a] hc, happlies⟩
      | right _ hright => exact ⟨a, List.mem_append_right as List.mem_cons_self, hright⟩

def BuiltinFree : Curried → Prop
  | bound _ => True
  | atom a => ∀ op, a ≠ .builtin op
  | fn b => BuiltinFree b
  | app f a => BuiltinFree f ∧ BuiltinFree a

theorem BuiltinFree.rename {t : Curried} (h : BuiltinFree t) (ρ : Nat → Nat) :
    BuiltinFree (t.rename ρ) := by
  induction t generalizing ρ with
  | bound _ => trivial
  | atom _ => exact h
  | fn b ih => exact ih h _
  | app f a ihf iha => exact ⟨ihf h.1 ρ, iha h.2 ρ⟩

theorem BuiltinFree.subst {t : Curried} (h : BuiltinFree t) {σ : Nat → Curried}
    (hσ : ∀ i, BuiltinFree (σ i)) : BuiltinFree (t.subst σ) := by
  induction t generalizing σ with
  | bound i => exact hσ i
  | atom _ => exact h
  | fn b ih =>
      apply ih h
      intro i
      cases i with
      | zero => trivial
      | succ i => exact (hσ i).rename Nat.succ
  | app f a ihf iha => exact ⟨ihf h.1 hσ, iha h.2 hσ⟩

theorem BuiltinFree.instantiate {b a : Curried} (hb : BuiltinFree b) (ha : BuiltinFree a) :
    BuiltinFree (b.instantiate a) := by
  apply hb.subst
  intro i
  cases i with
  | zero => exact ha
  | succ i => trivial

theorem BuiltinFree.step {t u : Curried} (h : BuiltinFree t) (step : Step t u) :
    BuiltinFree u := by
  induction step with
  | beta b a => exact BuiltinFree.instantiate h.1 h.2
  | fn _ ih => exact ih h
  | left a _ ih => exact ⟨ih h.1, h.2⟩
  | right f _ ih => exact ⟨h.1, ih h.2⟩

theorem BuiltinFree.steps {t u : Curried} (h : BuiltinFree t) (steps : Steps t u) :
    BuiltinFree u := by
  induction steps with
  | refl => exact h
  | tail _ step ih => exact ih.step step

theorem builtinFree_spine {f : Curried} {as : List Curried} :
    BuiltinFree (f.spine as) ↔ BuiltinFree f ∧ ∀ a ∈ as, BuiltinFree a := by
  induction as generalizing f with
  | nil => simp
  | cons a as ih => simp [ih, BuiltinFree, and_assoc]

end Curried

namespace Nameless
open Term (exists_mem_of_forall₂)

theorem AppliesLiteral.reads {t : Nameless} (h : AppliesLiteral t) {u : Curried}
    (reads : Reads t u) (hu : u.BuiltinFree) : u.AppliesLiteral := by
  induction h generalizing u with
  | here n arg args =>
      cases reads with
      | app head args =>
          cases args with
          | cons arg args =>
              cases head with
              | lit n => exact Curried.AppliesLiteral.spine (.here n _) _
              | call =>
                  have hop := (Curried.builtinFree_spine.1 (Curried.builtinFree_spine.1 hu).1).1
                  exact absurd rfl (hop _)
  | body _ ih =>
      cases reads with
      | fn body => exact .fn (ih body hu)
  | @member t ts mem _ ih =>
      cases reads with
      | @app s ts f as head args =>
          obtain ⟨hf, has⟩ := Curried.builtinFree_spine.1 hu
          obtain rfl | hmem := List.mem_cons.1 mem
          · exact (ih head hf).spine as
          · obtain ⟨a, ha, hread⟩ := exists_mem_of_forall₂ args.flip hmem
            exact Curried.AppliesLiteral.spine_arg f ha (ih hread (has a ha))

theorem Reads.not_appliesLiteral {v : Nameless} {u : Curried} (h : Reads v u) (hv : v.Normal) :
    ¬ u.AppliesLiteral := by
  induction h using Reads.induct with
  | bound _ | free _ | lit _ | builtin _ => nofun
  | fn _ ih =>
      intro happlies
      cases happlies with
      | fn body => exact ih hv body
  | @app t ts f as head args _ ihs =>
      obtain ⟨hwaits, hts⟩ := normal_app_cons.1 hv
      intro happlies
      have hlit : ∀ n, f ≠ .atom (.lit n) := by
        intro n hf
        rw [hf] at head
        cases head.plain hwaits.normal rfl
        exact hwaits
      obtain ⟨a, ha, happlies⟩ := happlies.of_spine (hwaits.isLeaf head) hlit
      obtain ⟨t, ht, _, hnot⟩ := exists_mem_of_forall₂ ihs ha
      exact hnot (hts t ht) happlies
  | @call op values _ as _ _ ihs =>
      intro happlies
      obtain ⟨a, ha, happlies⟩ := happlies.of_spine (by trivial) nofun
      obtain ⟨t, ht, _, hnot⟩ := exists_mem_of_forall₂ ihs ha
      exact hnot (normal_literals values t ht) happlies

end Nameless
end LambdaInt
