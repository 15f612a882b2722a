import LambdaInt.Proofs.AppliedLiterals

/-!
What a named term says about the curried term that it means: whether functions use their
parameters, whether builtins occur, and that a normal form means one.
-/

namespace LambdaInt

namespace Curried

theorem weigh_spine_pos {f : Curried} {as : List Curried} {w : Nat → Nat}
    (h : 0 < f.weigh w ∨ ∃ a ∈ as, 0 < a.weigh w) : 0 < (f.spine as).weigh w := by
  induction as generalizing f with
  | nil =>
      obtain hf | ⟨a, ha, _⟩ := h
      · exact hf
      · exact (List.not_mem_nil ha).elim
  | cons a as ih =>
      refine ih ?_
      rw [weigh]
      obtain hf | ⟨c, hc, hpos⟩ := h
      · exact .inl (by omega)
      · obtain rfl | hc := List.mem_cons.1 hc
        · exact .inl (by omega)
        · exact .inr ⟨c, hc, hpos⟩

theorem relevant_spine {f : Curried} {as : List Curried} :
    Relevant (f.spine as) ↔ Relevant f ∧ ∀ a ∈ as, Relevant a := by
  induction as generalizing f with
  | nil => simp
  | cons a as ih => simp [ih, Relevant, and_assoc]

end Curried

namespace Term
open Nameless (Reads)

mutual

/-- Every function uses its parameter, so none discards its argument. -/
def UsesParameters : Term → Prop
  | var _ | lit _ | builtin _ => True
  | fn p b => p ∈ b.freeVars ∧ UsesParameters b
  | app ts => UsesParametersAll ts

def UsesParametersAll : List Term → Prop
  | [] => True
  | t :: ts => UsesParameters t ∧ UsesParametersAll ts

end

theorem usesParameters_app {ts : List Term} :
    (app ts).UsesParameters ↔ ∀ t ∈ ts, t.UsesParameters := by
  rw [UsesParameters]
  induction ts with
  | nil => simp [UsesParametersAll]
  | cons t ts ih => simp [UsesParametersAll, ih]

theorem curry_resolve_app_cons (σ : String → Nameless) (t : Term) (ts : List Term) :
    ((app (t :: ts)).resolve σ).curry =
      (t.resolve σ).curry.spine (ts.map fun t => (t.resolve σ).curry) := by
  rw [resolve_app, List.map_cons, Nameless.curry_app_cons, List.map_map]
  rfl

/-- What the curried form of every name has, it has below a function as well. -/
theorem forall_curry_bind {P : Curried → Prop} {σ : String → Nameless} (h : ∀ x, P (σ x).curry)
    (hzero : P (.bound 0)) (hsucc : ∀ u, P u → P (u.rename Nat.succ)) (p x : String) :
    P (bind σ p x).curry := by
  refine forall_bind (P := fun t => P t.curry) h hzero (fun t ht => ?_) p x
  rw [Nameless.curry_rename]
  exact hsucc _ ht

theorem reads_bind {σ : String → Nameless} (h : ∀ x, Reads (σ x) (σ x).curry) (p x : String) :
    Reads (bind σ p x) (bind σ p x).curry := by
  refine forall_bind (P := fun t => Reads t t.curry) h (.bound 0) (fun t ht => ?_) p x
  rw [Nameless.curry_rename]
  exact ht.rename Nat.succ

theorem reads_resolve {t : Term} (ht : t.WellFormed) {σ : String → Nameless}
    (h : ∀ x, Reads (σ x) (σ x).curry) : Reads (t.resolve σ) (t.resolve σ).curry := by
  induction t generalizing σ with
  | var x => exact h x
  | lit n => exact .lit n
  | builtin op => exact .builtin op
  | fn p b ih => exact .fn (ih ht (reads_bind h p))
  | app ts ih =>
      obtain ⟨hlen, hts⟩ := wellFormed_app.1 ht
      cases ts with
      | nil => exact absurd hlen (by decide)
      | cons t ts =>
          rw [curry_resolve_app_cons, resolve_app, List.map_cons]
          refine .app (ih t List.mem_cons_self (hts t List.mem_cons_self) h) ?_
          rw [List.forall₂_map_left_iff, List.forall₂_map_right_iff, List.forall₂_same]
          intro u hu
          have hmem := List.mem_cons_of_mem t hu
          exact ih u hmem (hts u hmem) h

/-- A variable that the meaning of a free name mentions is mentioned by the whole. -/
theorem weigh_resolve {t : Term} {x : String} (hx : x ∈ t.freeVars) {σ : String → Nameless}
    {w : Nat → Nat} (hw : 0 < (σ x).curry.weigh w) : 0 < (t.resolve σ).curry.weigh w := by
  induction t generalizing σ w with
  | var y =>
      obtain rfl := List.mem_singleton.1 hx
      exact hw
  | lit _ | builtin _ => cases hx
  | fn p b ih =>
      obtain ⟨hx, hxp⟩ := mem_freeVars_fn.1 hx
      refine ih hx ?_
      rw [bind_of_ne hxp, Nameless.curry_rename, Curried.weigh_rename]
      exact hw
  | app ts ih =>
      cases ts with
      | nil => cases hx
      | cons t ts =>
          rw [curry_resolve_app_cons]
          obtain ⟨u, hu, hx⟩ := mem_freeVars_app.1 hx
          have hpos := ih u hu hx hw
          refine Curried.weigh_spine_pos ?_
          obtain rfl | hu := List.mem_cons.1 hu
          · exact .inl hpos
          · exact .inr ⟨_, List.mem_map_of_mem hu, hpos⟩

theorem relevant_resolve {t : Term} (ht : t.UsesParameters) {σ : String → Nameless}
    (h : ∀ x, (σ x).curry.Relevant) : (t.resolve σ).curry.Relevant := by
  induction t generalizing σ with
  | var x => exact h x
  | lit _ | builtin _ => trivial
  | fn p b ih =>
      constructor
      · refine weigh_resolve ht.1 ?_
        rw [bind_self]
        exact Nat.one_pos
      · exact ih ht.2 (forall_curry_bind h trivial (fun u hu => hu.rename Nat.succ) p)
  | app ts ih =>
      cases ts with
      | nil => trivial
      | cons t ts =>
          have hts := usesParameters_app.1 ht
          rw [curry_resolve_app_cons, Curried.relevant_spine]
          refine ⟨ih t List.mem_cons_self (hts t List.mem_cons_self) h, ?_⟩
          intro a ha
          obtain ⟨u, hu, rfl⟩ := List.mem_map.1 ha
          have hmem := List.mem_cons_of_mem t hu
          exact ih u hmem (hts u hmem) h

theorem builtinFree_resolve {t : Term} (ht : t.BuiltinFree) {σ : String → Nameless}
    (h : ∀ x, (σ x).curry.BuiltinFree) : (t.resolve σ).curry.BuiltinFree := by
  induction t generalizing σ with
  | var x => exact h x
  | lit _ => nofun
  | builtin _ => exact ht.elim
  | fn p b ih => exact ih ht (forall_curry_bind h trivial (fun u hu => hu.rename Nat.succ) p)
  | app ts ih =>
      cases ts with
      | nil => nofun
      | cons t ts =>
          have hts := builtinFree_app.1 ht
          rw [curry_resolve_app_cons, Curried.builtinFree_spine]
          refine ⟨ih t List.mem_cons_self (hts t List.mem_cons_self) h, ?_⟩
          intro a ha
          obtain ⟨u, hu, rfl⟩ := List.mem_map.1 ha
          have hmem := List.mem_cons_of_mem t hu
          exact ih u hmem (hts u hmem) h

/-- The meanings that names have in normal forms. -/
def IsVariable : Nameless → Prop
  | .bound _ | .free _ => True
  | _ => False

theorem IsVariable.rename {t : Nameless} (h : IsVariable t) : IsVariable (t.rename Nat.succ) := by
  cases t <;> trivial

theorem isVariable_free (x : String) : IsVariable (.free x) :=
  trivial

theorem resolve_ne_lit {t : Term} (ht : t.freeVars ≠ []) {σ : String → Nameless}
    (h : ∀ x, IsVariable (σ x)) (n : Int64) : t.resolve σ ≠ .lit n := by
  intro heq
  cases t with
  | var x =>
      have hvar := h x
      rw [show σ x = .lit n from heq] at hvar
      exact hvar
  | lit _ => exact ht rfl
  | _ => cases heq

theorem Waits.resolve {head : Term} {args : List Term} (hwaits : Waits head args)
    {σ : String → Nameless} (h : ∀ x, IsVariable (σ x)) :
    Nameless.Waits (head.resolve σ) (args.map (Term.resolve σ)) := by
  cases head with
  | var x =>
      have hvar := h x
      have hne : args.map (Term.resolve σ) ≠ [] := mt List.map_eq_nil_iff.1 hwaits
      show Nameless.Waits (σ x) _
      cases hσ : σ x <;> rw [hσ] at hvar <;> first | exact hne | exact hvar.elim
  | builtin op =>
      obtain ⟨arg, harg, hfree⟩ := hwaits
      exact ⟨_, List.mem_map_of_mem harg, resolve_ne_lit hfree h⟩
  | _ => exact hwaits.elim

theorem normal_resolve {t : Term} (ht : t.Normal) {σ : String → Nameless}
    (h : ∀ x, IsVariable (σ x)) : (t.resolve σ).Normal := by
  induction t generalizing σ with
  | var x =>
      have hvar := h x
      show (σ x).Normal
      cases hσ : σ x <;> rw [hσ] at hvar <;> trivial
  | lit _ | builtin _ => trivial
  | fn p b ih => exact ih ht (forall_bind h trivial (fun _ ht => ht.rename) p)
  | app ts ih =>
      obtain ⟨head, args, rfl, hwaits, hargs⟩ := ht.exists_waits
      rw [resolve_app, List.map_cons, Nameless.normal_app_cons]
      refine ⟨hwaits.resolve h, ?_⟩
      intro u hu
      obtain ⟨t, hmem, rfl⟩ := List.mem_map.1 hu
      exact ih t (List.mem_cons_of_mem head hmem) (hargs t hmem) h

end Term
end LambdaInt
