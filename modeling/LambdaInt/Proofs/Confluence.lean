import LambdaInt.Proofs.Curried

/-!
Confluence. A parallel step carries out any number of the redexes that a term has. It is counted
with the redexes carried out when those are taken one after the other from the outside in, so that
the redexes of an argument count once for each place that it goes to. Confluence needs no counts;
they are what makes a parallel step smaller when one of its redexes is carried out first.
From confluence, convertible terms have the same normal form.
-/

namespace LambdaInt.Curried
open Nameless (under)

/-- Weights below one more function, whose parameter weighs nothing. -/
def deepen (w : Nat → Nat) : Nat → Nat
  | 0 => 0
  | i + 1 => w i

/-- The sum of the weights of all occurrences of variables that are bound outside the term. -/
def weigh (w : Nat → Nat) : Curried → Nat
  | bound i => w i
  | atom _ => 0
  | fn b => weigh (deepen w) b
  | app f a => weigh w f + weigh w a

/-- The weight that only the parameter of the innermost function has. -/
def first (n : Nat) : Nat → Nat
  | 0 => n
  | _ + 1 => 0

theorem weigh_zero (t : Curried) : t.weigh (fun _ => 0) = 0 := by
  induction t with
  | bound _ | atom _ => rfl
  | fn b ih =>
      have hdeepen : deepen (fun _ => 0) = fun _ => 0 := by
        funext i
        cases i <;> rfl
      rw [weigh, hdeepen, ih]
  | app f a ihf iha => rw [weigh, ihf, iha]

theorem weigh_add (t : Curried) (v w : Nat → Nat) :
    t.weigh (fun i => v i + w i) = t.weigh v + t.weigh w := by
  induction t generalizing v w with
  | bound _ | atom _ => rfl
  | fn b ih =>
      have hdeepen : deepen (fun i => v i + w i) = fun i => deepen v i + deepen w i := by
        funext i
        cases i <;> rfl
      rw [weigh, hdeepen, ih, weigh, weigh]
  | app f a ihf iha =>
      simp only [weigh, ihf, iha]
      omega

theorem weigh_mul (t : Curried) (n : Nat) (w : Nat → Nat) :
    t.weigh (fun i => n * w i) = n * t.weigh w := by
  induction t generalizing w with
  | bound _ | atom _ => rfl
  | fn b ih =>
      have hdeepen : deepen (fun i => n * w i) = fun i => n * deepen w i := by
        funext i
        cases i <;> rfl
      rw [weigh, hdeepen, ih, weigh]
  | app f a ihf iha => simp only [weigh, ihf, iha, Nat.mul_add]

theorem weigh_first (t : Curried) (n : Nat) : t.weigh (first n) = n * t.weigh (first 1) := by
  rw [← weigh_mul]
  refine congrArg (weigh · t) ?_
  funext i
  cases i with
  | zero => exact (Nat.mul_one n).symm
  | succ i => rfl

theorem deepen_comp_under (w : Nat → Nat) (ρ : Nat → Nat) :
    deepen w ∘ under ρ = deepen (w ∘ ρ) := by
  funext i
  cases i <;> rfl

theorem weigh_rename (t : Curried) (w ρ : Nat → Nat) :
    (t.rename ρ).weigh w = t.weigh (w ∘ ρ) := by
  induction t generalizing w ρ with
  | bound _ | atom _ => rfl
  | fn b ih => rw [rename, weigh, ih, deepen_comp_under, weigh]
  | app f a ihf iha => rw [rename, weigh, ihf, iha, weigh]

theorem weigh_subst (t : Curried) (w : Nat → Nat) (σ : Nat → Curried) :
    (t.subst σ).weigh w = t.weigh fun i => (σ i).weigh w := by
  induction t generalizing w σ with
  | bound _ | atom _ => rfl
  | fn b ih =>
      have hdeepen : (fun i => (lift σ i).weigh (deepen w)) = deepen fun i => (σ i).weigh w := by
        funext i
        cases i with
        | zero => rfl
        | succ i =>
            rw [lift, weigh_rename]
            rfl
      rw [subst, weigh, ih, hdeepen, weigh]
  | app f a ihf iha => rw [subst, weigh, ihf, iha, weigh]

/-- What a function passes on: what its body has of its own, and the argument once for each
occurrence of the parameter. -/
theorem weigh_instantiate (b a : Curried) (w : Nat → Nat) :
    (b.instantiate a).weigh w = b.weigh (deepen w) + b.weigh (first (a.weigh w)) := by
  rw [instantiate, weigh_subst, ← weigh_add]
  refine congrArg (weigh · b) ?_
  funext i
  cases i with
  | zero => exact (Nat.zero_add _).symm
  | succ i => rfl

theorem weigh_first_subst_lift (b : Curried) (n : Nat) (σ : Nat → Curried) :
    (b.subst (lift σ)).weigh (first n) = b.weigh (first n) := by
  rw [weigh_subst]
  refine congrArg (weigh · b) ?_
  funext i
  cases i with
  | zero => rfl
  | succ i =>
      rw [lift, weigh_rename]
      exact weigh_zero (σ i)

theorem weigh_first_rename_under (b : Curried) (n : Nat) (ρ : Nat → Nat) :
    (b.rename (under ρ)).weigh (first n) = b.weigh (first n) := by
  rw [weigh_rename]
  refine congrArg (weigh · b) ?_
  funext i
  cases i <;> rfl

/-- A parallel step that carries out so many redexes. -/
inductive Par : Nat → Curried → Curried → Prop
  | bound (i : Nat) : Par 0 (bound i) (bound i)
  | atom (a : Atom) : Par 0 (atom a) (atom a)
  | fn {n : Nat} {b c : Curried} (body : Par n b c) : Par n (fn b) (fn c)
  | app {m n : Nat} {f g a c : Curried} (left : Par m f g) (right : Par n a c) :
      Par (m + n) (app f a) (app g c)
  | beta {m n : Nat} {b c a d : Curried} (body : Par m b c) (arg : Par n a d) :
      Par (m + c.weigh (first n) + 1) (app (fn b) a) (c.instantiate d)

theorem Par.refl (t : Curried) : Par 0 t t := by
  induction t with
  | bound i => exact .bound i
  | atom a => exact .atom a
  | fn b ih => exact .fn ih
  | app f a ihf iha => exact .app ihf iha

theorem Par.of_step {t u : Curried} (h : Step t u) : ∃ n, Par n t u := by
  induction h with
  | beta b a => exact ⟨_, .beta (.refl b) (.refl a)⟩
  | fn _ ih =>
      obtain ⟨n, hn⟩ := ih
      exact ⟨n, .fn hn⟩
  | left a _ ih =>
      obtain ⟨n, hn⟩ := ih
      exact ⟨n, .app hn (.refl a)⟩
  | right f _ ih =>
      obtain ⟨n, hn⟩ := ih
      exact ⟨0 + n, .app (.refl f) hn⟩

theorem Par.steps {n : Nat} {t u : Curried} (h : Par n t u) : Steps t u := by
  induction h with
  | bound _ | atom _ => exact .refl
  | fn _ ih => exact ih.fn
  | app _ _ ihf iha => exact ihf.app iha
  | @beta _ _ b c a d _ _ ihb iha =>
      exact .head (Step.beta b a) (ihb.instantiate iha)

theorem Par.rename {n : Nat} {t u : Curried} (h : Par n t u) (ρ : Nat → Nat) :
    Par n (t.rename ρ) (u.rename ρ) := by
  induction h generalizing ρ with
  | bound i => exact .bound (ρ i)
  | atom a => exact .atom a
  | fn _ ih => exact .fn (ih (under ρ))
  | app _ _ ihf iha => exact .app (ihf ρ) (iha ρ)
  | @beta _ n _ c _ _ _ _ ihb iha =>
      rw [instantiate_rename, ← weigh_first_rename_under c n ρ]
      exact .beta (ihb (under ρ)) (iha ρ)

theorem Par.lift {w : Nat → Nat} {σ τ : Nat → Curried} (h : ∀ i, Par (w i) (σ i) (τ i))
    (i : Nat) : Par (deepen w i) (lift σ i) (lift τ i) := by
  cases i with
  | zero => exact .bound 0
  | succ i => exact (h i).rename Nat.succ

/-- A parallel step of a term and of what is put into it, at the cost of the first and as many
times the second as it occurs afterwards. -/
theorem Par.subst {n : Nat} {t u : Curried} (h : Par n t u) {w : Nat → Nat}
    {σ τ : Nat → Curried} (hστ : ∀ i, Par (w i) (σ i) (τ i)) :
    Par (n + u.weigh w) (t.subst σ) (u.subst τ) := by
  induction h generalizing w σ τ with
  | bound i =>
      rw [Nat.zero_add]
      exact hστ i
  | atom a => exact .atom a
  | fn _ ih => exact .fn (ih (Par.lift hστ))
  | @app m n f g a c _ _ ihf iha =>
      have hcount : m + n + (Curried.app g c).weigh w =
          m + g.weigh w + (n + c.weigh w) := by
        rw [weigh]
        omega
      rw [hcount]
      exact .app (ihf hστ) (iha hστ)
  | @beta m n b c a d _ _ ihb iha =>
      have hstep := Par.beta (ihb (Par.lift hστ)) (iha hστ)
      have hcount : m + c.weigh (first n) + 1 + (c.instantiate d).weigh w =
          m + c.weigh (deepen w) + (c.subst (Curried.lift τ)).weigh (first (n + d.weigh w)) +
            1 := by
        have hsum : c.weigh (first (n + d.weigh w)) =
            c.weigh (first n) + c.weigh (first (d.weigh w)) := by
          rw [weigh_first, weigh_first c n, weigh_first c (d.weigh w), Nat.add_mul]
        rw [weigh_instantiate, weigh_first_subst_lift, hsum]
        omega
      rw [hcount, instantiate_subst]
      exact hstep

theorem Par.instantiate {m n : Nat} {b c a d : Curried} (hb : Par m b c) (ha : Par n a d) :
    Par (m + c.weigh (first n)) (b.instantiate a) (c.instantiate d) := by
  apply hb.subst
  intro i
  cases i with
  | zero => exact ha
  | succ i => exact .bound i

/-- All redexes of the term carried out at once. -/
def develop : Curried → Curried
  | bound i => bound i
  | atom a => atom a
  | fn b => fn (develop b)
  | app (fn b) a => (develop b).instantiate (develop a)
  | app f a => app (develop f) (develop a)

/-- Whatever a parallel step leaves undone is done by another. -/
theorem Par.triangle {n : Nat} {t u : Curried} (h : Par n t u) : ∃ m, Par m u t.develop := by
  induction h with
  | bound i => exact ⟨0, .bound i⟩
  | atom a => exact ⟨0, .atom a⟩
  | fn _ ih =>
      obtain ⟨m, hm⟩ := ih
      exact ⟨m, .fn hm⟩
  | @app _ _ f g a c left _ ihf iha =>
      obtain ⟨m, hm⟩ := ihf
      obtain ⟨n, hn⟩ := iha
      cases f with
      | fn b =>
          cases left with
          | fn _ =>
              cases hm with
              | fn hbody => exact ⟨_, .beta hbody hn⟩
      | _ => exact ⟨_, .app hm hn⟩
  | beta _ _ ihb iha =>
      obtain ⟨m, hm⟩ := ihb
      obtain ⟨n, hn⟩ := iha
      exact ⟨_, hm.instantiate hn⟩

theorem confluence {t u v : Curried} (hu : Steps t u) (hv : Steps t v) :
    ∃ w, Steps u w ∧ Steps v w := by
  have par_of_steps {t u : Curried} (h : Steps t u) :
      Relation.ReflTransGen (fun t u => ∃ n, Par n t u) t u :=
    Relation.ReflTransGen.mono (fun _ _ step => Par.of_step step) _ _ h
  have steps_of_par {t u : Curried} (h : Relation.ReflTransGen (fun t u => ∃ n, Par n t u) t u) :
      Steps t u := by
    induction h with
    | refl => exact .refl
    | tail _ step ih =>
        obtain ⟨n, hn⟩ := step
        exact ih.trans hn.steps
  have diamond (t u v : Curried) (hu : ∃ n, Par n t u) (hv : ∃ n, Par n t v) :
      ∃ w, Relation.ReflGen (fun t u => ∃ n, Par n t u) u w ∧
        Relation.ReflTransGen (fun t u => ∃ n, Par n t u) v w := by
    obtain ⟨m, hm⟩ := hu
    obtain ⟨n, hn⟩ := hv
    exact ⟨t.develop, .single hm.triangle, .single hn.triangle⟩
  obtain ⟨w, huw, hvw⟩ := Relation.church_rosser diamond (par_of_steps hu) (par_of_steps hv)
  exact ⟨w, steps_of_par huw, steps_of_par hvw⟩

theorem Irreducible.unique {t u v : Curried} (hu : Steps t u) (hv : Steps t v)
    (irreducible : Irreducible v) : Steps u v := by
  obtain ⟨w, huw, hvw⟩ := confluence hu hv
  rwa [irreducible.eq_of_steps hvw] at huw

/-- Steps lead from the one term to the other, each taken forwards or backwards. -/
abbrev Convertible : Curried → Curried → Prop :=
  Relation.EqvGen Step

theorem Steps.convertible {t u : Curried} (h : Steps t u) : Convertible t u :=
  Relation.EqvGen.reflTransGen_le_eqvGen _ _ _ h

/-- A peak of two rows of steps becomes a valley, so a conversion needs one valley only. -/
theorem Convertible.join {t u : Curried} (h : Convertible t u) :
    ∃ w, Steps t w ∧ Steps u w := by
  induction h with
  | rel t u step => exact ⟨u, .single step, .refl⟩
  | refl t => exact ⟨t, .refl, .refl⟩
  | symm t u _ ih =>
      obtain ⟨w, htw, huw⟩ := ih
      exact ⟨w, huw, htw⟩
  | trans t u v _ _ ihtu ihuv =>
      obtain ⟨w, htw, huw⟩ := ihtu
      obtain ⟨w', huw', hvw'⟩ := ihuv
      obtain ⟨z, hwz, hwz'⟩ := confluence huw huw'
      exact ⟨z, htw.trans hwz, hvw'.trans hwz'⟩

/-- Convertible terms have one normal form between them at most. -/
theorem Convertible.irreducible_unique {t u m n : Curried} (h : Convertible t u)
    (hm : Steps t m) (hn : Steps u n) (irreducible : Irreducible m) (irreducible' : Irreducible n) :
    m = n := by
  obtain ⟨w, htw, huw⟩ := h.join
  have hwm : Steps w m := irreducible.unique htw hm
  have hwn : Steps w n := irreducible'.unique huw hn
  have hmn : Steps m n := irreducible'.unique hwm hwn
  exact (irreducible.eq_of_steps hmn).symm

end LambdaInt.Curried
