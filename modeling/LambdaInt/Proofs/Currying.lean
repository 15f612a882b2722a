import LambdaInt.Step
import LambdaInt.Proofs.Curried
import Mathlib.Data.List.Forall2
import Mathlib.Data.List.Induction

/-!
Nameless terms read as curried ones. An application becomes a spine, so that joining applications
changes nothing, and a literal may also stand for a call of a builtin that gives it. Under this
reading every step of a nameless term is a step of the curried one, or leaves it alone and makes
the nameless term smaller.
-/

namespace LambdaInt

namespace Curried

/-- The function applied to the arguments one after the other. -/
def spine (f : Curried) (args : List Curried) : Curried :=
  args.foldl app f

@[simp] theorem spine_nil (f : Curried) : f.spine [] = f :=
  rfl

@[simp] theorem spine_cons (f a : Curried) (args : List Curried) :
    f.spine (a :: args) = (app f a).spine args :=
  rfl

theorem spine_append (f : Curried) (as bs : List Curried) :
    f.spine (as ++ bs) = (f.spine as).spine bs :=
  List.foldl_append

theorem rename_spine (f : Curried) (args : List Curried) (ρ : Nat → Nat) :
    (f.spine args).rename ρ = (f.rename ρ).spine (args.map (rename ρ)) := by
  induction args generalizing f with
  | nil => rfl
  | cons a args ih => exact ih (app f a)

theorem subst_spine (f : Curried) (args : List Curried) (σ : Nat → Curried) :
    (f.spine args).subst σ = (f.subst σ).spine (args.map (subst σ)) := by
  induction args generalizing f with
  | nil => rfl
  | cons a args ih => exact ih (app f a)

theorem Step.spine {f g : Curried} (step : Step f g) (args : List Curried) :
    Step (f.spine args) (g.spine args) := by
  induction args generalizing f g with
  | nil => exact step
  | cons a args ih => exact ih (.left a step)

theorem Step.spine_arg (f : Curried) (before after : List Curried) {a c : Curried}
    (step : Step a c) : Step (f.spine (before ++ a :: after)) (f.spine (before ++ c :: after)) := by
  rw [spine_append, spine_append, spine_cons, spine_cons]
  exact Step.spine (.right _ step) after

/-- What stands at the head of the spine of a term. -/
def head : Curried → Curried
  | app f _ => head f
  | t => t

/-- The arguments in the spine of a term. -/
def args : Curried → List Curried
  | app f a => args f ++ [a]
  | _ => []

theorem head_spine (f : Curried) (as : List Curried) : (f.spine as).head = f.head := by
  induction as generalizing f with
  | nil => rfl
  | cons a as ih => exact ih (app f a)

theorem args_spine (f : Curried) (as : List Curried) : (f.spine as).args = f.args ++ as := by
  induction as generalizing f with
  | nil => exact (List.append_nil _).symm
  | cons a as ih => rw [spine_cons, ih, args, List.append_assoc, List.singleton_append]

/-- Variables and atoms, which do nothing with arguments. -/
def IsLeaf : Curried → Prop
  | bound _ | atom _ => True
  | _ => False

theorem IsLeaf.head_eq {f : Curried} (h : f.IsLeaf) : f.head = f := by
  cases f <;> first | rfl | exact h.elim

theorem IsLeaf.args_eq {f : Curried} (h : f.IsLeaf) : f.args = [] := by
  cases f <;> first | rfl | exact h.elim

theorem spine_injective {f g : Curried} (hf : f.IsLeaf) (hg : g.IsLeaf) {as bs : List Curried}
    (h : f.spine as = g.spine bs) : f = g ∧ as = bs := by
  have hhead := congrArg head h
  have hargs := congrArg args h
  rw [head_spine, head_spine, hf.head_eq, hg.head_eq] at hhead
  rw [args_spine, args_spine, hf.args_eq, hg.args_eq, List.nil_append, List.nil_append] at hargs
  exact ⟨hhead, hargs⟩

theorem IsLeaf.irreducible_spine {f : Curried} (h : f.IsLeaf) {as : List Curried}
    (has : ∀ a ∈ as, Irreducible a) : Irreducible (f.spine as) := by
  induction as using List.reverseRecOn with
  | nil =>
      intro u step
      cases step <;> exact h
  | append_singleton as a ih =>
      obtain ⟨has, ha⟩ := List.forall_mem_append.1 has
      intro u step
      rw [spine_append, spine_cons, spine_nil] at step
      cases hspine : f.spine as with
      | fn b =>
          have hhead := congrArg head hspine
          rw [head_spine, h.head_eq] at hhead
          rw [hhead] at h
          exact h
      | _ =>
          rw [hspine] at step
          cases step with
          | left _ step => exact ih has _ (hspine ▸ step)
          | right _ step => exact ha a List.mem_cons_self _ step

end Curried

namespace Nameless
open Curried (spine)

mutual

/-- The curried form of a term. Terms that were read have no application without a function. -/
def curry : Nameless → Curried
  | bound i => .bound i
  | free x => .atom (.free x)
  | lit n => .atom (.lit n)
  | builtin op => .atom (.builtin op)
  | fn b => .fn (curry b)
  | app [] => .atom (.free "")
  | app (t :: ts) => (curry t).spine (curryAll ts)

def curryAll : List Nameless → List Curried
  | [] => []
  | t :: ts => curry t :: curryAll ts

end

theorem curryAll_eq_map (ts : List Nameless) : curryAll ts = ts.map curry := by
  induction ts with
  | nil => rfl
  | cons t ts ih => simp [curryAll, ih]

theorem curry_app_cons (t : Nameless) (ts : List Nameless) :
    (app (t :: ts)).curry = t.curry.spine (ts.map curry) := by
  rw [curry, curryAll_eq_map]

theorem curry_rename (t : Nameless) (ρ : Nat → Nat) : (t.rename ρ).curry = t.curry.rename ρ := by
  induction t generalizing ρ with
  | bound _ | free _ | lit _ | builtin _ => rfl
  | fn b ih => exact congrArg Curried.fn (ih (under ρ))
  | app ts ih =>
      cases ts with
      | nil => rfl
      | cons t ts =>
          obtain ⟨ht, hts⟩ := List.forall_mem_cons.1 ih
          rw [rename_app, List.map_cons, curry_app_cons, curry_app_cons, Curried.rename_spine, ht,
            List.map_map, List.map_map]
          exact congrArg _ (List.map_congr_left fun t h => hts t h ρ)

/-- The term is the curried one with some of the calls of builtins carried out. -/
inductive Reads : Nameless → Curried → Prop
  | bound (i : Nat) : Reads (bound i) (.bound i)
  | free (x : String) : Reads (free x) (.atom (.free x))
  | lit (n : Int64) : Reads (lit n) (.atom (.lit n))
  | builtin (op : Builtin) : Reads (builtin op) (.atom (.builtin op))
  | fn {b : Nameless} {c : Curried} (body : Reads b c) : Reads (fn b) (.fn c)
  | app {t : Nameless} {ts : List Nameless} {f : Curried} {as : List Curried} (head : Reads t f)
      (args : List.Forall₂ Reads ts as) : Reads (app (t :: ts)) (f.spine as)
  | call {op : Builtin} {values : List Int64} {value : Int64} {as : List Curried}
      (args : List.Forall₂ Reads (values.map Nameless.lit) as) (yields : op.Yields values value) :
      Reads (Nameless.lit value) (Curried.spine (.atom (.builtin op)) as)

/-- Induction over a reading, with the reading of every argument. -/
@[elab_as_elim]
theorem Reads.induct {motive : ∀ t u, Reads t u → Prop}
    (bound : ∀ i, motive _ _ (.bound i)) (free : ∀ x, motive _ _ (.free x))
    (lit : ∀ n, motive _ _ (.lit n)) (builtin : ∀ op, motive _ _ (.builtin op))
    (fn : ∀ {b c} (body : Reads b c), motive _ _ body → motive _ _ (.fn body))
    (app : ∀ {t ts f as} (head : Reads t f) (args : List.Forall₂ Reads ts as), motive _ _ head →
      List.Forall₂ (fun t a => ∃ h, motive t a h) ts as → motive _ _ (.app head args))
    (call : ∀ {op : Builtin} {values : List Int64} {value : Int64} {as : List Curried}
      (args : List.Forall₂ Reads (values.map Nameless.lit) as) (yields : op.Yields values value),
      List.Forall₂ (fun t a => ∃ h, motive t a h) (values.map Nameless.lit) as →
      motive _ _ (.call args yields))
    {t : Nameless} {u : Curried} (h : Reads t u) : motive t u h :=
  Reads.rec (motive_1 := motive)
    (motive_2 := fun ts as _ => List.Forall₂ (fun t a => ∃ h, motive t a h) ts as)
    bound free lit builtin fn app call .nil (fun head _ ih ihs => .cons ⟨head, ih⟩ ihs) h

theorem Reads.application {t : Nameless} {f : Curried} {ts : List Nameless} {as : List Curried}
    (head : Reads t f) (args : List.Forall₂ Reads ts as) :
    Reads (t.application ts) (f.spine as) := by
  cases args with
  | nil => exact head
  | cons arg args => exact .app head (.cons arg args)

theorem Reads.rename {t : Nameless} {u : Curried} (h : Reads t u) (ρ : Nat → Nat) :
    Reads (t.rename ρ) (u.rename ρ) := by
  induction h using Reads.induct generalizing ρ with
  | bound i => exact .bound (ρ i)
  | free x => exact .free x
  | lit n => exact .lit n
  | builtin op => exact .builtin op
  | fn _ ih => exact .fn (ih (under ρ))
  | @app t ts f as _ _ ih ihs =>
      rw [rename_app, List.map_cons, Curried.rename_spine]
      refine .app (ih ρ) ?_
      rw [List.forall₂_map_left_iff, List.forall₂_map_right_iff]
      exact ihs.imp fun t a ⟨_, h⟩ => h ρ
  | @call op values value as _ yields ihs =>
      rw [Curried.rename_spine]
      refine .call ?_ yields
      rw [List.forall₂_map_left_iff] at ihs ⊢
      rw [List.forall₂_map_right_iff]
      exact ihs.imp fun n a ⟨_, h⟩ => h ρ

theorem Reads.lift {σ : Nat → Nameless} {τ : Nat → Curried} (h : ∀ i, Reads (σ i) (τ i))
    (i : Nat) : Reads (lift σ i) (Curried.lift τ i) := by
  cases i with
  | zero => exact .bound 0
  | succ i => exact (h i).rename Nat.succ

theorem Reads.subst {t : Nameless} {u : Curried} (h : Reads t u) {σ : Nat → Nameless}
    {τ : Nat → Curried} (hσ : ∀ i, Reads (σ i) (τ i)) : Reads (t.subst σ) (u.subst τ) := by
  induction h using Reads.induct generalizing σ τ with
  | bound i => exact hσ i
  | free x => exact .free x
  | lit n => exact .lit n
  | builtin op => exact .builtin op
  | fn _ ih => exact .fn (ih (Reads.lift hσ))
  | @app t ts f as _ _ ih ihs =>
      rw [subst_app, List.map_cons, Curried.subst_spine]
      refine .app (ih hσ) ?_
      rw [List.forall₂_map_left_iff, List.forall₂_map_right_iff]
      exact ihs.imp fun t a ⟨_, h⟩ => h hσ
  | @call op values value as _ yields ihs =>
      rw [Curried.subst_spine]
      refine .call ?_ yields
      rw [List.forall₂_map_left_iff] at ihs ⊢
      rw [List.forall₂_map_right_iff]
      exact ihs.imp fun n a ⟨_, h⟩ => h hσ

theorem Reads.instantiate {b a : Nameless} {c d : Curried} (hb : Reads b c) (ha : Reads a d) :
    Reads (b.instantiate a) (c.instantiate d) := by
  rw [instantiate_eq_subst]
  apply hb.subst
  intro i
  cases i with
  | zero => exact ha
  | succ i => exact .bound i

/-- One member of a row can be exchanged together with what it reads. -/
theorem Reads.exchange {before after : List Nameless} {t : Nameless} {as : List Curried}
    (h : List.Forall₂ Reads (before ++ t :: after) as) :
    ∃ bs a cs, as = bs ++ a :: cs ∧ Reads t a ∧ ∀ {t' a'}, Reads t' a' →
      List.Forall₂ Reads (before ++ t' :: after) (bs ++ a' :: cs) := by
  induction before generalizing as with
  | nil =>
      cases h with
      | @cons _ a _ cs head rest => exact ⟨[], a, cs, rfl, head, fun h' => .cons h' rest⟩
  | cons s before ih =>
      cases h with
      | @cons _ b _ _ head rest =>
          obtain ⟨bs, a, cs, rfl, ha, hexchange⟩ := ih rest
          exact ⟨b :: bs, a, cs, rfl, ha, fun h' => .cons head (hexchange h')⟩

mutual

def size : Nameless → Nat
  | bound _ | free _ | lit _ | builtin _ => 1
  | fn b => size b + 1
  | app ts => sizeAll ts + 1

def sizeAll : List Nameless → Nat
  | [] => 0
  | t :: ts => size t + sizeAll ts

end

theorem sizeAll_append (ts us : List Nameless) :
    sizeAll (ts ++ us) = sizeAll ts + sizeAll us := by
  induction ts with
  | nil => exact (Nat.zero_add _).symm
  | cons t ts ih =>
      rw [List.cons_append, sizeAll, ih, sizeAll]
      omega

theorem Reads.step {t t' : Nameless} (step : Step t t') {u : Curried} (h : Reads t u) :
    (∃ u', Curried.Step u u' ∧ Reads t' u') ∨ Reads t' u ∧ t'.size < t.size := by
  induction step generalizing u with
  | beta body arg args =>
      cases h with
      | app head args =>
          cases head with
          | fn hbody =>
              cases args with
              | cons harg hargs =>
                  refine .inl ⟨_, Curried.Step.spine (.beta _ _) _, ?_⟩
                  exact (hbody.instantiate harg).application hargs
  | delta yields =>
      cases h with
      | app head args =>
          cases head with
          | builtin op =>
              refine .inr ⟨.call args yields, ?_⟩
              rw [size, size, sizeAll, size]
              omega
  | merge terms args =>
      cases h with
      | app head hargs =>
          cases head with
          | @app t ts f as hhead hfirst =>
              rw [← Curried.spine_append]
              refine .inr ⟨.app hhead (List.rel_append hfirst hargs), ?_⟩
              rw [size, size, sizeAll, size, sizeAll_append]
              omega
  | body _ ih =>
      cases h with
      | fn hbody =>
          obtain ⟨u', step, hreads⟩ | ⟨hreads, hsize⟩ := ih hbody
          · exact .inl ⟨_, .fn step, .fn hreads⟩
          · exact .inr ⟨.fn hreads, Nat.succ_lt_succ hsize⟩
  | @member before after t t' _ ih =>
      cases before with
      | nil =>
          cases h with
          | app head args =>
              obtain ⟨u', step, hreads⟩ | ⟨hreads, hsize⟩ := ih head
              · exact .inl ⟨_, step.spine _, .app hreads args⟩
              · refine .inr ⟨.app hreads args, ?_⟩
                simp only [size, sizeAll, List.nil_append]
                omega
      | cons s before =>
          cases h with
          | app head args =>
              obtain ⟨bs, a, cs, rfl, ha, hexchange⟩ := Reads.exchange args
              obtain ⟨u', step, hreads⟩ | ⟨hreads, hsize⟩ := ih ha
              · exact .inl ⟨_, Curried.Step.spine_arg _ bs cs step, .app head (hexchange hreads)⟩
              · refine .inr ⟨.app head (hexchange hreads), ?_⟩
                simp only [size, sizeAll, sizeAll_append, List.cons_append]
                omega

theorem Reads.steps {t t' : Nameless} (steps : Steps t t') {u : Curried} (h : Reads t u) :
    ∃ u', Curried.Steps u u' ∧ Reads t' u' := by
  induction steps with
  | refl => exact ⟨u, .refl, h⟩
  | tail _ step ih =>
      obtain ⟨v, hsteps, hreads⟩ := ih
      obtain ⟨w, hstep, hreads⟩ | ⟨hreads, _⟩ := hreads.step step
      · exact ⟨w, hsteps.tail hstep, hreads⟩
      · exact ⟨v, hsteps, hreads⟩

theorem Reads.terminates {t : Nameless} {u : Curried} (h : Reads t u) (hu : u.Terminates) :
    t.Terminates := by
  induction hu generalizing t with
  | intro u _ ihu =>
      induction hsize : t.size using Nat.strongRecOn generalizing t with
      | ind n ihn =>
          apply Acc.intro t
          intro t' step
          obtain ⟨u', hstep, hreads⟩ | ⟨hreads, hlt⟩ := h.step step
          · exact ihu u' hstep hreads
          · exact ihn t'.size (hsize ▸ hlt) hreads rfl

end Nameless
end LambdaInt
