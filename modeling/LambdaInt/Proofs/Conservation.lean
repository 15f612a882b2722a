import LambdaInt.Proofs.Confluence

/-!
Conservation. When no function discards its argument, a term terminates as soon as one of its
reducts does: a redex that was carried out leaves something of every other redex behind, so an
infinite row of steps of the term would give one of the reduct.
-/

namespace LambdaInt.Curried
open Nameless (under)

/-- Every function uses its parameter. -/
def Relevant : Curried → Prop
  | bound _ | atom _ => True
  | fn b => 0 < b.weigh (first 1) ∧ Relevant b
  | app f a => Relevant f ∧ Relevant a

theorem weigh_first_lt {b : Curried} (h : 0 < b.weigh (first 1)) {m n : Nat} (hmn : m < n) :
    b.weigh (first m) < b.weigh (first n) := by
  rw [weigh_first b m, weigh_first b n]
  exact Nat.mul_lt_mul_of_pos_right hmn h

theorem weigh_first_pos {b : Curried} (h : 0 < b.weigh (first 1)) {n : Nat} (hn : 0 < n) :
    0 < b.weigh (first n) := by
  rw [weigh_first]
  exact Nat.mul_pos hn h

theorem Relevant.rename {t : Curried} (h : Relevant t) (ρ : Nat → Nat) :
    Relevant (t.rename ρ) := by
  induction t generalizing ρ with
  | bound _ | atom _ => trivial
  | fn b ih =>
      refine ⟨?_, ih h.2 (under ρ)⟩
      rw [weigh_first_rename_under]
      exact h.1
  | app f a ihf iha => exact ⟨ihf h.1 ρ, iha h.2 ρ⟩

theorem Relevant.subst {t : Curried} (h : Relevant t) {σ : Nat → Curried}
    (hσ : ∀ i, Relevant (σ i)) : Relevant (t.subst σ) := by
  induction t generalizing σ with
  | bound i => exact hσ i
  | atom _ => trivial
  | fn b ih =>
      have hlift : ∀ i, Relevant (lift σ i) := by
        intro i
        cases i with
        | zero => trivial
        | succ i => exact (hσ i).rename Nat.succ
      refine ⟨?_, ih h.2 hlift⟩
      rw [weigh_first_subst_lift]
      exact h.1
  | app f a ihf iha => exact ⟨ihf h.1 hσ, iha h.2 hσ⟩

theorem Relevant.instantiate {b a : Curried} (hb : Relevant b) (ha : Relevant a) :
    Relevant (b.instantiate a) := by
  apply hb.subst
  intro i
  cases i with
  | zero => exact ha
  | succ i => trivial

/-- A variable that occurs still occurs after a step. -/
theorem Step.weigh_pos {t u : Curried} (step : Step t u) (h : Relevant t) {w : Nat → Nat}
    (hw : 0 < t.weigh w) : 0 < u.weigh w := by
  induction step generalizing w with
  | beta b a =>
      rw [weigh_instantiate]
      rw [weigh, weigh] at hw
      by_cases ha : 0 < a.weigh w
      · have hfirst := weigh_first_pos h.1.1 ha
        omega
      · omega
  | fn _ ih => exact ih h.2 hw
  | left a _ ih =>
      rw [weigh] at hw ⊢
      by_cases hf : 0 < a.weigh w
      · omega
      · have hleft := ih h.1 (w := w) (by omega)
        omega
  | right f _ ih =>
      rw [weigh] at hw ⊢
      by_cases hf : 0 < f.weigh w
      · omega
      · have hright := ih h.2 (w := w) (by omega)
        omega

theorem Relevant.step {t u : Curried} (h : Relevant t) (step : Step t u) : Relevant u := by
  induction step with
  | beta b a => exact h.1.2.instantiate h.2
  | fn step ih => exact ⟨step.weigh_pos h.2 h.1, ih h.2⟩
  | left a _ ih => exact ⟨ih h.1, h.2⟩
  | right f _ ih => exact ⟨h.1, ih h.2⟩

theorem Relevant.steps {t u : Curried} (h : Relevant t) (steps : Steps t u) : Relevant u := by
  induction steps with
  | refl => exact h
  | tail _ step ih => exact ih.step step

theorem Steps.weigh_pos {t u : Curried} (steps : Steps t u) (h : Relevant t) {w : Nat → Nat}
    (hw : 0 < t.weigh w) : 0 < u.weigh w := by
  induction steps with
  | refl => exact hw
  | tail steps step ih => exact step.weigh_pos (h.steps steps) ih

/-- Steps of what is put into a term are not lost if one of them is put in somewhere. -/
theorem progress_subst {t : Curried} {w : Nat → Nat} (hw : 0 < t.weigh w) {σ τ : Nat → Curried}
    (hsteps : ∀ i, Steps (σ i) (τ i)) (hprogress : ∀ i, 0 < w i → Progress (σ i) (τ i)) :
    Progress (t.subst σ) (t.subst τ) := by
  induction t generalizing w σ τ with
  | bound i => exact hprogress i hw
  | atom _ => exact absurd hw (Nat.lt_irrefl 0)
  | fn b ih =>
      refine (ih hw (steps_lift hsteps) fun i hi => ?_).fn
      cases i with
      | zero => exact absurd hi (Nat.lt_irrefl 0)
      | succ i =>
          refine Relation.TransGen.lift (Curried.rename Nat.succ) ?_ _ _ (hprogress i hi)
          intro t u step
          exact step.rename Nat.succ
  | app f a ihf iha =>
      rw [weigh] at hw
      by_cases hf : 0 < f.weigh w
      · have hleft := (ihf hf hsteps hprogress).left (a.subst σ)
        exact hleft.trans_left (Steps.app .refl (steps_subst a hsteps))
      · have hright := (iha (by omega) hsteps hprogress).right (f.subst τ)
        exact Relation.TransGen.trans_right (Steps.app (steps_subst f hsteps) .refl) hright

theorem Progress.instantiate_left {b c : Curried} (h : Progress b c) (a : Curried) :
    Progress (b.instantiate a) (c.instantiate a) :=
  Relation.TransGen.lift (Curried.instantiate · a) (fun _ _ step => Step.subst step _) _ _ h

theorem Progress.instantiate_right {b a c : Curried} (hb : 0 < b.weigh (first 1))
    (h : Progress a c) : Progress (b.instantiate a) (b.instantiate c) := by
  apply progress_subst hb (steps_single h.to_reflTransGen)
  intro i hi
  cases i with
  | zero => exact h
  | succ i => exact absurd hi (Nat.lt_irrefl 0)

/-- A step made first either is one of those of the parallel step, which then has fewer left to do,
or can be made afterwards as well. -/
theorem Par.step {n : Nat} {t u t' : Curried} (h : Par n t u) (ht : Relevant t)
    (step : Step t t') :
    (∃ m, m < n ∧ Par m t' u) ∨ ∃ m u', Progress u u' ∧ Par m t' u' := by
  induction h generalizing t' with
  | bound _ | atom _ => cases step
  | fn _ ih =>
      cases step with
      | fn step =>
          obtain ⟨m, hm, hpar⟩ | ⟨m, c', hprogress, hpar⟩ := ih ht.2 step
          · exact .inl ⟨m, hm, .fn hpar⟩
          · exact .inr ⟨m, _, hprogress.fn, .fn hpar⟩
  | @app m n f g a c left right ihf iha =>
      cases step with
      | beta b a =>
          cases left with
          | fn body => exact .inr ⟨_, _, .single (.beta _ _), body.instantiate right⟩
      | left a step =>
          obtain ⟨m', hm, hpar⟩ | ⟨m', g', hprogress, hpar⟩ := ihf ht.1 step
          · exact .inl ⟨m' + n, by omega, .app hpar right⟩
          · exact .inr ⟨m' + n, _, hprogress.left c, .app hpar right⟩
      | right f step =>
          obtain ⟨n', hn, hpar⟩ | ⟨n', c', hprogress, hpar⟩ := iha ht.2 step
          · exact .inl ⟨m + n', by omega, .app left hpar⟩
          · exact .inr ⟨m + n', _, hprogress.right g, .app left hpar⟩
  | @beta m n b c a d body arg ihb iha =>
      have hc : 0 < c.weigh (first 1) := body.steps.weigh_pos ht.1.2 ht.1.1
      cases step with
      | beta => exact .inl ⟨_, Nat.lt_succ_self _, body.instantiate arg⟩
      | left a step =>
          cases step with
          | fn step =>
              obtain ⟨m', hm, hpar⟩ | ⟨m', c', hprogress, hpar⟩ := ihb ht.1.2 step
              · exact .inl ⟨m' + c.weigh (first n) + 1, by omega, .beta hpar arg⟩
              · exact .inr ⟨_, _, hprogress.instantiate_left d, .beta hpar arg⟩
      | right f step =>
          obtain ⟨n', hn, hpar⟩ | ⟨n', d', hprogress, hpar⟩ := iha ht.2 step
          · have hlt := weigh_first_lt hc hn
            exact .inl ⟨m + c.weigh (first n') + 1, by omega, .beta body hpar⟩
          · exact .inr ⟨_, _, hprogress.instantiate_right hc, .beta body hpar⟩

theorem Terminates.progress {t : Curried} (h : Terminates t) :
    Acc (fun u t => Progress t u) t := by
  have hacc : Acc (Relation.TransGen fun u t => Step t u) t := Acc.transGen h
  refine Subrelation.accessible (fun {u t} hprogress => ?_) hacc
  exact Relation.TransGen.swap _ _ hprogress

theorem Terminates.of_par {n : Nat} {t u : Curried} (h : Terminates u) (par : Par n t u)
    (ht : Relevant t) : Terminates t := by
  have hacc := h.progress
  clear h
  induction hacc generalizing n t with
  | intro u _ ihu =>
      induction n using Nat.strongRecOn generalizing t with
      | ind n ihn =>
          apply Acc.intro t
          intro t' step
          obtain ⟨m, hm, hpar⟩ | ⟨m, u', hprogress, hpar⟩ := par.step ht step
          · exact ihn m hm hpar (ht.step step)
          · exact ihu u' hprogress hpar (ht.step step)

theorem Terminates.expand {t u : Curried} (h : Terminates u) (steps : Steps t u)
    (ht : Relevant t) : Terminates t := by
  induction steps using Relation.ReflTransGen.head_induction_on with
  | refl => exact h
  | head step _ ih =>
      obtain ⟨n, hn⟩ := Par.of_step step
      exact (ih (ht.step step)).of_par hn ht

end LambdaInt.Curried
