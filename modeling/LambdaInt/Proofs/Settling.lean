import LambdaInt.Proofs.DepthGuard
import LambdaInt.Proofs.Soundness
import Mathlib.Logic.Relation

/-!
Reduction of a term that terminates has enough depth somewhere. Each recursive call of reduction is
on a part of the nameless term or on a part of something it steps to, except that values are
reduced again, and those are normal forms. So the induction is on steps and parts together.
-/

namespace LambdaInt

namespace Nameless

/-- What a term steps to, and its immediate parts. -/
inductive Below : Nameless → Nameless → Prop
  | step {t u : Nameless} (step : Step t u) : Below u t
  | body (b : Nameless) : Below b (fn b)
  | member {t : Nameless} {ts : List Nameless} (mem : t ∈ ts) : Below t (app ts)

/-- A step of a part is a step of the whole, so parts come for free. -/
theorem acc_below_of_steps (t : Nameless) (h : ∀ u, Step t u → Acc Below u) : Acc Below t := by
  induction t with
  | bound _ | free _ | lit _ | builtin _ =>
      apply Acc.intro
      intro u hu
      cases hu with
      | step step => exact h u step
  | fn b ih =>
      apply Acc.intro
      intro u hu
      cases hu with
      | step step => exact h u step
      | body => exact ih fun c step => (h _ (.body step)).inv (.body c)
  | app ts ih =>
      apply Acc.intro
      intro u hu
      cases hu with
      | step step => exact h u step
      | member mem =>
          obtain ⟨before, after, rfl⟩ := List.append_of_mem mem
          refine ih u mem fun u' step => (h _ (.member before after step)).inv (.member ?_)
          exact List.mem_append_right before List.mem_cons_self

theorem Terminates.acc_below {t : Nameless} (h : Terminates t) : Acc Below t := by
  induction h with
  | intro t _ ih => exact acc_below_of_steps t ih

theorem below_of_steps {t u : Nameless} (h : Steps t u) : Relation.ReflTransGen Below u t := by
  induction h with
  | refl => exact .refl
  | tail _ step ih => exact ih.head (.step step)

theorem below_application (t : Nameless) (args : List Nameless) :
    Relation.ReflTransGen Below t (t.application args) := by
  cases args with
  | nil => exact .refl
  | cons arg args => exact .single (.member List.mem_cons_self)

end Nameless

theorem Builtin.apply_ne_depthExceeded (op : Builtin) (args : List Term) :
    op.apply args ≠ .error .depthExceeded := by
  unfold Builtin.apply
  cases Term.literals? args with
  | none => nofun
  | some values =>
      by_cases htakes : op.takes values.length = true
      · cases hvalue : op.value? values <;> simp [htakes, hvalue]
      · simp [htakes]

namespace Term
open Nameless (Steps Step Below)

/-- A normal form that may be the value of a name where the given names are used. -/
structure Value (used : List String) (t : Term) : Prop where
  normal : t.Normal
  inScope : ∀ x ∈ t.freeVars, x ∈ used

theorem Value.covered {used : List String} {t : Term} (h : Value used t) : Covered used t :=
  ⟨h.normal.wellFormed, h.inScope⟩

theorem Value.cons {used : List String} {t : Term} (h : Value used t) (q : String) :
    Value (q :: used) t :=
  ⟨h.normal, fun x hx => List.mem_cons_of_mem q (h.inScope x hx)⟩

/-- Some depth is enough for the term. -/
def Settles (used : List String) (scope : Scope) (t : Term) : Prop :=
  ∃ depth, t.reduce depth used scope ≠ .error .depthExceeded

section
variable {used : List String} {scope : Scope}

theorem Settles.eventually {t : Term} (h : Settles used scope t) :
    ∃ depth, ∀ m, depth ≤ m → t.reduce m used scope ≠ .error .depthExceeded := by
  obtain ⟨depth, hdepth⟩ := h
  refine ⟨depth, fun m hm => ?_⟩
  rw [reduce_of_le hm hdepth]
  exact hdepth

theorem covered_of_values (h : scope.All (Value used)) : scope.All (Covered used) :=
  fun x w hw => (h x w hw).covered

theorem value_of_reduce {depth : Nat} {t v : Term} (h : t.reduce depth used scope = .ok v)
    (ht : t.WellFormed) (hscope : scope.All (Value used)) : Value used v :=
  ⟨normal_of_reduce h ht fun x w hw => (hscope x w hw).normal.wellFormed,
    (tidy_of_reduce h).inScope⟩

theorem value_args {depth : Nat} {args args' : List Term} (hscope : scope.All (Value used))
    (hwf : ∀ t ∈ args, t.WellFormed)
    (hargs : List.Forall₂ (fun t u => reduce depth used scope t = .ok u) args args') :
    ∀ a ∈ args', Value used a := by
  intro a ha
  obtain ⟨t, ht, hred⟩ := exists_mem_of_forall₂ hargs ha
  exact value_of_reduce hred (hwf t ht) hscope

theorem Value.settles {t : Term} (h : Value used t) (scope : Scope) : Settles used scope t := by
  obtain ⟨v, hv, _⟩ := h.normal.exists_reduce h.inScope (Nat.le_refl _) scope
  exact ⟨t.height, fun herror => by rw [hv] at herror; cases herror⟩

/-- Terms that settle do so at one depth. -/
theorem settles_all {ts : List Term} (h : ∀ t ∈ ts, Settles used scope t) :
    ∃ depth, ∀ t ∈ ts, t.reduce depth used scope ≠ .error .depthExceeded := by
  induction ts with
  | nil => exact ⟨0, fun t ht => (List.not_mem_nil ht).elim⟩
  | cons t ts ih =>
      obtain ⟨⟨m, hm⟩, hts⟩ := List.forall_mem_cons.1 h
      obtain ⟨n, hn⟩ := ih hts
      refine ⟨max m n, List.forall_mem_cons.2 ⟨?_, fun u hu => ?_⟩⟩
      · rw [reduce_of_le (Nat.le_max_left m n) hm]
        exact hm
      · rw [reduce_of_le (Nat.le_max_right m n) (hn u hu)]
        exact hn u hu

/-- Taking an argument settles, if the body does and, after that, taking the others. -/
theorem settles_beta {p q : String} {a b c : Term} {args : List Term}
    (hqc : renameApart used p b = (q, c)) (hbody : Settles used (scope.child.set q a) c)
    (hrest : ∀ {depth u}, c.reduce depth used (scope.child.set q a) = .ok u →
      ∃ depth', applyTo (betaBy (reduce depth' used) used scope) u args ≠
        .error .depthExceeded) :
    ∃ depth, applyTo (betaBy (reduce depth used) used scope) (fn p b) (a :: args) ≠
      .error .depthExceeded := by
  obtain ⟨depth, hdepth⟩ := hbody
  cases hbody : c.reduce depth used (scope.child.set q a) with
  | error e =>
      refine ⟨depth, ?_⟩
      rw [applyTo_fn, betaBy_of_renameApart hqc, hbody]
      rwa [hbody] at hdepth
  | ok u =>
      obtain ⟨depth', hdepth'⟩ := hrest hbody
      refine ⟨max depth depth', ?_⟩
      rw [applyTo_fn, betaBy_of_renameApart hqc, reduce_of_le (Nat.le_max_left _ _) hdepth, hbody]
      have hlater := applyTo_of_le (Nat.le_max_right depth depth') hdepth'
      exact fun herror => hdepth' (hlater ▸ herror)

/-- Taking arguments settles, if the bodies do that are reduced on the way. -/
theorem settles_applyTo {m : Nameless} {σ : String → Nameless}
    (ih : ∀ {scope : Scope} {t : Term},
      Relation.TransGen Below (t.resolve (scope.meaning used σ)) m → t.WellFormed →
        scope.All (Value used) → Settles used scope t)
    (hscope : scope.All (Value used)) {head : Term} {args : List Term} (hhead : Value used head)
    (hargs : ∀ a ∈ args, Value used a)
    (hsteps : Steps m ((head.resolve σ).application (args.map (resolve σ)))) :
    ∃ depth, applyTo (betaBy (reduce depth used) used scope) head args ≠
      .error .depthExceeded := by
  induction args generalizing head with
  | nil =>
      refine ⟨0, ?_⟩
      rw [applyTo_nil]
      nofun
  | cons a args ihargs =>
      have ne : a :: args ≠ [] := List.cons_ne_nil a args
      cases head with
      | var x => exact ⟨0, nofun⟩
      | lit n => exact ⟨0, nofun⟩
      | app terms =>
          refine ⟨0, ?_⟩
          rw [applyTo_app terms ne]
          nofun
      | builtin op =>
          refine ⟨0, ?_⟩
          rw [applyTo_builtin op ne]
          split
          · exact op.apply_ne_depthExceeded _
          · nofun
      | fn p b =>
          obtain ⟨ha, hargs⟩ := List.forall_mem_cons.1 hargs
          cases hqc : renameApart used p b with
          | mk q c =>
              have hc : c.WellFormed := (hhead.covered.renameApart hqc).wellFormed
              have hset : (scope.child.set q a).All (Value used) := hscope.set ha
              have hstep : Step (((fn p b).resolve σ).application ((a :: args).map (resolve σ)))
                  (((b.resolve (bind σ p)).instantiate (a.resolve σ)).application
                    (args.map (resolve σ))) := .beta _ _ _
              have hbelow := Relation.TransGen.trans_right (Nameless.below_application _ _)
                (Relation.TransGen.head' (.step hstep) (Nameless.below_of_steps hsteps))
              rw [← resolve_argument hhead.covered hqc a σ] at hbelow
              refine settles_beta hqc (ih hbelow hc hset) fun {depth u} hbody => ?_
              have hsound := soundAt depth hbody hc (covered_of_values hset) σ
              rw [resolve_argument hhead.covered hqc] at hsound
              have hnext := (hsteps.trans (.single hstep)).trans (hsound.application _)
              exact ihargs (value_of_reduce hbody hc hset) hargs hnext

theorem settles_fn {p q : String} {b c : Term} (hqc : renameApart used p b = (q, c))
    (h : Settles (q :: used) (scope.child.set q (var q)) c) : Settles used scope (fn p b) := by
  obtain ⟨depth, hdepth⟩ := h
  refine ⟨depth + 1, ?_⟩
  rw [reduce_fn_of_renameApart hqc]
  cases hbody : c.reduce depth (q :: used) (scope.child.set q (var q)) with
  | ok r => nofun
  | error e =>
      rw [hbody] at hdepth
      exact fun herror => hdepth (by cases herror; rfl)

theorem settles_app {head : Term} {args : List Term}
    (hmembers : ∀ t ∈ head :: args, Settles used scope t)
    (happly : ∀ {depth head' args'}, head.reduce depth used scope = .ok head' →
      List.Forall₂ (fun t u => reduce depth used scope t = .ok u) args args' →
      ∃ depth', applyTo (betaBy (reduce depth' used) used scope) head' args' ≠
        .error .depthExceeded) : Settles used scope (app (head :: args)) := by
  obtain ⟨depth, hdepth⟩ := settles_all hmembers
  obtain ⟨hheadd, hargsd⟩ := List.forall_mem_cons.1 hdepth
  cases hhead : head.reduce depth used scope with
  | error e =>
      refine ⟨depth + 1, ?_⟩
      rw [reduce_app_cons, hhead]
      rwa [hhead] at hheadd
  | ok head' =>
      cases hargs : args.mapM (reduce depth used scope) with
      | error e =>
          obtain ⟨a, ha, herror⟩ := Except.mapM_eq_error hargs
          refine ⟨depth + 1, ?_⟩
          rw [reduce_app_cons, hhead, hargs]
          exact fun h => hargsd a ha (herror.trans h)
      | ok args' =>
          have hne : args.mapM (reduce depth used scope) ≠ .error .depthExceeded := by
            rw [hargs]
            nofun
          obtain ⟨depth', hdepth'⟩ := happly hhead (Except.mapM_eq_ok_iff.1 hargs)
          refine ⟨max depth depth' + 1, ?_⟩
          rw [reduce_app_cons, reduce_of_le (Nat.le_max_left _ _) hheadd, hhead,
            mapM_reduce_of_le (Nat.le_max_left _ _) hne, hargs]
          have hlater := applyTo_of_le (Nat.le_max_right depth depth') hdepth'
          exact fun herror => hdepth' (hlater ▸ herror)

theorem settles_var (hscope : scope.All (Value used)) (x : String) :
    Settles used scope (var x) := by
  by_cases hx : x ∈ used
  · refine ⟨1, ?_⟩
    rw [reduce_var_of_mem hx]
    nofun
  · cases hfind : scope.find? x with
    | none =>
        refine ⟨1, ?_⟩
        rw [reduce_var_of_unbound hx hfind]
        nofun
    | some value =>
        obtain ⟨depth, hdepth⟩ := (hscope x value hfind).settles scope
        refine ⟨depth + 1, ?_⟩
        rw [reduce_var_of_find? hx hfind]
        exact hdepth

theorem settles_of_acc {m : Nameless} (h : Acc (Relation.TransGen Below) m) {t : Term}
    {σ : String → Nameless} (hm : t.resolve (scope.meaning used σ) = m) (ht : t.WellFormed)
    (hscope : scope.All (Value used)) : Settles used scope t := by
  induction h generalizing used scope t σ with
  | intro m _ ih =>
      cases t with
      | lit _ | builtin _ => exact ⟨1, nofun⟩
      | var x => exact settles_var hscope x
      | fn p b =>
          cases hqc : renameApart used p b with
          | mk q c =>
              have hbelow : Below (b.resolve (bind (scope.meaning used σ) p)) m := by
                rw [← hm]
                exact .body _
              have hset : (scope.child.set q (var q)).All (Value (q :: used)) :=
                Scope.All.set (fun x w hw => (hscope x w hw).cons q)
                  ⟨trivial, (covered_var List.mem_cons_self).inScope⟩
              have hbody := resolve_body (covered_of_values hscope) hqc σ
              have hc := wellFormed_renameApart hqc ht
              exact settles_fn hqc (ih _ (.single hbelow) hbody hc hset)
      | app ts =>
          cases ts with
          | nil => exact ⟨1, nofun⟩
          | cons head args =>
              obtain ⟨_, hts⟩ := wellFormed_app.1 ht
              obtain ⟨hheadt, hargst⟩ := List.forall_mem_cons.1 hts
              refine settles_app (fun t hmem => ?_) fun {depth head' args'} hhead hargs => ?_
              · have hbelow : Below (t.resolve (scope.meaning used σ)) m := by
                  rw [← hm, resolve_app]
                  exact .member (List.mem_map_of_mem hmem)
                exact ih _ (.single hbelow) rfl (hts t hmem) hscope
              · have hsteps := SoundAt.members (soundAt depth) (covered_of_values hscope) ht hhead
                  hargs σ
                rw [hm] at hsteps
                exact settles_applyTo (fun hbelow ht hscope => ih _ hbelow rfl ht hscope) hscope
                  (value_of_reduce hhead hheadt hscope) (value_args hscope hargst hargs) hsteps

theorem settles_of_terminates {t : Term} {σ : String → Nameless}
    (h : (t.resolve (scope.meaning used σ)).Terminates) (ht : t.WellFormed)
    (hscope : scope.All (Value used)) : Settles used scope t :=
  settles_of_acc (Acc.transGen h.acc_below) rfl ht hscope

end
end Term
end LambdaInt
