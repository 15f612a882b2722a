import LambdaInt.Proofs.Computation
import LambdaInt.Proofs.Undefined
import Mathlib

/-!
Applying a function compared with binding its parameter. The first reduces the body while the
parameter stands for itself, and only then takes the argument; the second reduces the body once,
with the argument at hand. Where both give a value it is the same one, since both values are the
normal form of the redex. Whether they give one can differ, for two reasons. Arguments are reduced
before they are discarded, and which are still there to be discarded depends on the order; and a
call of a builtin that waits for the parameter takes further arguments in. Without functions that
discard, both ways terminate together, though one may end in a failed call or an applied literal,
and without builtins as well they succeed together.
-/

namespace LambdaInt

namespace Term
open Nameless (Reads Steps)

/-- A body, a name for which an argument is to be put, and the argument, in a frame of values. -/
structure Application (frame : Frame) (x : String) (b a : Term) : Prop where
  values : ∀ y v, frame.find? y = some v → v.Normal ∧ v.freeVars = []
  wellFormed : b.WellFormed
  known : ∀ y ∈ b.freeVars, y = x ∨ ∃ v, frame.find? y = some v
  normal : a.Normal
  closed : a.freeVars = []

/-- The function is applied to the argument. -/
def byCall (frame : Frame) (x : String) (b a : Term) (depth : Nat) : Except RuntimeError Term :=
  (app [fn x b, a]).reduce depth [] (.root frame)

/-- The body is reduced with its parameter set to the argument. -/
def byName (frame : Frame) (x : String) (b a : Term) (depth : Nat) : Except RuntimeError Term :=
  b.reduce depth [] (.root (frame.set x a))

/-- The redex has the property, and so has every value of a name that its body mentions. -/
def Throughout (P : Term → Prop) (frame : Frame) (x : String) (b a : Term) : Prop :=
  P (app [fn x b, a]) ∧ ∀ y ∈ (fn x b).freeVars, ∀ v, frame.find? y = some v → P v

/-- What is left when every name is known and the depth is enough: a value, a literal that is
applied or a call of a builtin that fails. -/
inductive Conclusive : Except RuntimeError Term → Prop
  | value (v : Term) : Conclusive (.ok v)
  | appliedLiteral : Conclusive (.error .appliedLiteral)
  | builtinMisuse (op : Builtin) : Conclusive (.error (.builtinMisuse op))
  | integerOverflow (op : Builtin) : Conclusive (.error (.integerOverflow op))

theorem conclusive_of_reduce {depth : Nat} {scope : Scope} {t : Term}
    (hscope : scope.All (Value []))
    (known : ∀ x ∈ t.freeVars, ∃ v, scope.find? x = some v)
    (hdepth : t.reduce depth [] scope ≠ .error .depthExceeded) :
    Conclusive (t.reduce depth [] scope) := by
  have hnone : t.firstUnknown [] scope = none :=
    firstUnknown_eq_none_iff.2 fun x hx => .inr (known x hx)
  have hreports := reportsAt depth t fun x v hfind => (hscope x v hfind).inScope
  rw [hnone] at hreports
  cases hreduce : t.reduce depth [] scope with
  | ok v => exact .value v
  | error e =>
      rw [hreduce] at hreports hdepth
      cases e with
      | undefinedVariable x => cases hreports
      | appliedLiteral => exact .appliedLiteral
      | builtinMisuse op => exact .builtinMisuse op
      | integerOverflow op => exact .integerOverflow op
      | depthExceeded => exact absurd rfl hdepth

/-- There is a value at some depth. -/
def Succeeds (outcome : Nat → Except RuntimeError Term) : Prop :=
  ∃ depth v, outcome depth = .ok v

namespace Evaluation
variable {scope : Scope} {t : Term} {u : Curried}

theorem fails {depth : Nat} {e : RuntimeError} (h : Evaluation scope t u)
    (he : t.reduce depth [] scope = .error e) (hne : e ≠ .depthExceeded)
    (known : Known [] scope t) (hu : u.BuiltinFree) :
    ∃ n, Curried.Steps u n ∧ n.AppliesLiteral := by
  obtain ⟨m, hsteps, happlies⟩ :=
    failsAt depth he hne known (covered_of_values h.values) Nameless.free
  obtain ⟨n, hun, hn⟩ := h.reads.steps hsteps
  exact ⟨n, hun, happlies.reads hn (hu.steps hun)⟩

end Evaluation

/-- Without builtins and functions that discard, a term with a normal form has a value: what else
it could come to is a literal that is applied, and that would be found in the normal form. -/
theorem Evaluation.succeeds {scope : Scope} {t : Term} {s u n : Curried} {v : Nameless}
    (h : Evaluation scope t u) (known : Known [] scope t) (hsu : Curried.Steps s u)
    (relevant : s.Relevant) (builtinFree : s.BuiltinFree) (hsn : Curried.Steps s n)
    (reads : Reads v n) (normal : v.Normal) :
    Succeeds fun depth => t.reduce depth [] scope := by
  have hirreducible : n.Irreducible := reads.irreducible normal
  have hterminates : s.Terminates := hirreducible.terminates.expand hsn relevant
  obtain ⟨depth, hdepth⟩ := h.settles (hterminates.steps hsu)
  cases hreduce : t.reduce depth [] scope with
  | ok w => exact ⟨depth, w, hreduce⟩
  | error e =>
      have hne : e ≠ .depthExceeded := by
        rintro rfl
        exact hdepth depth (Nat.le_refl depth) hreduce
      obtain ⟨m, hum, happlies⟩ := h.fails hreduce hne known (builtinFree.steps hsu)
      have hmn : Curried.Steps m n := hirreducible.unique (hsu.trans hum) hsn
      have happlies := happlies.steps hmn (relevant.steps (hsu.trans hum))
      exact absurd happlies (reads.not_appliesLiteral normal)

/-- The curried term that the body means, below its parameter. -/
def curriedBody (frame : Frame) (x : String) (b : Term) : Curried :=
  (b.resolve (bind ((Scope.root frame).meaning [] Nameless.free) x)).curry

def curriedArg (a : Term) : Curried :=
  (a.resolve Nameless.free).curry

/-- What names mean in the frame, as far as the body mentions them. -/
def mentioned (frame : Frame) (x : String) (b : Term) (y : String) : Nameless :=
  if y ∈ (fn x b).freeVars then (Scope.root frame).meaning [] Nameless.free y else .free y

theorem forall_mentioned {P : Curried → Prop} {frame : Frame} {x : String} {b : Term}
    (hvalue : ∀ y ∈ (fn x b).freeVars, ∀ v, frame.find? y = some v →
      P (v.resolve Nameless.free).curry)
    (hfree : ∀ y, P (.atom (.free y))) (y : String) : P (mentioned frame x b y).curry := by
  unfold mentioned
  split
  · rename_i hy
    exact meaning_of_frame (P := fun t => P t.curry) (hvalue y hy) (hfree y)
  · exact hfree y

section
variable {frame : Frame} {x : String} {b a : Term}

theorem resolve_closed (h : a.freeVars = []) (σ τ : String → Nameless) :
    a.resolve σ = a.resolve τ :=
  resolve_congr fun _ hy => absurd (h ▸ hy) List.not_mem_nil

theorem resolve_byName (frame : Frame) (x : String) (b a : Term) :
    b.resolve ((Scope.root (frame.set x a)).meaning [] Nameless.free) =
      (b.resolve (bind ((Scope.root frame).meaning [] Nameless.free) x)).instantiate
        (a.resolve Nameless.free) := by
  rw [instantiate_resolve]
  apply resolve_congr
  intro y _
  by_cases hyx : y = x
  · have hfind : (Scope.root (frame.set x a)).find? y = some a := by simp [hyx]
    rw [Scope.meaning_of_find? List.not_mem_nil hfind, hyx, Function.update_self]
  · have hfind : (Scope.root (frame.set x a)).find? y = (Scope.root frame).find? y := by simp [hyx]
    rw [Function.update_of_ne hyx, Scope.meaning, Scope.meaning, hfind]

namespace Application

theorem frame_values (h : Application frame x b a) : (Scope.root frame).All (Value []) :=
  all_values_root h.values

theorem set_values (h : Application frame x b a) :
    (Scope.root (frame.set x a)).All (Value []) := by
  intro y v hfind
  rw [Scope.find?_root, Frame.find?_set] at hfind
  split at hfind
  · cases hfind
    exact ⟨h.normal, fun z hz => h.closed ▸ hz⟩
  · obtain ⟨hnormal, hclosed⟩ := h.values y v hfind
    exact ⟨hnormal, fun z hz => hclosed ▸ hz⟩

theorem reads_body (h : Application frame x b a) :
    Reads (b.resolve (bind ((Scope.root frame).meaning [] Nameless.free) x))
      (curriedBody frame x b) :=
  reads_resolve h.wellFormed (reads_bind (reads_meaning_root h.values) x)

theorem reads_arg (h : Application frame x b a) :
    Reads (a.resolve Nameless.free) (curriedArg a) :=
  reads_resolve h.normal.wellFormed Reads.free

theorem call (h : Application frame x b a) :
    Evaluation (.root frame) (app [fn x b, a])
      (.app (.fn (curriedBody frame x b)) (curriedArg a)) where
  wellFormed := by
    refine wellFormed_app.2 ⟨Nat.le_refl 2, fun t ht => ?_⟩
    obtain rfl | ht := List.mem_cons.1 ht
    · exact h.wellFormed
    · exact List.mem_singleton.1 ht ▸ h.normal.wellFormed
  values := h.frame_values
  reads := by
    rw [resolve_app, List.map_cons, List.map_cons, List.map_nil, resolve_closed h.closed _ .free]
    exact .app (.fn h.reads_body) (.cons h.reads_arg .nil)

theorem name (h : Application frame x b a) :
    Evaluation (.root (frame.set x a)) b ((curriedBody frame x b).instantiate (curriedArg a)) where
  wellFormed := h.wellFormed
  values := h.set_values
  reads := by
    rw [resolve_byName]
    exact h.reads_body.instantiate h.reads_arg

theorem freeVars_call (h : Application frame x b a) {y : String}
    (hy : y ∈ (app [fn x b, a]).freeVars) : y ∈ (fn x b).freeVars := by
  obtain ⟨t, ht, hmem⟩ := mem_freeVars_app.1 hy
  obtain rfl | ht := List.mem_cons.1 ht
  · exact hmem
  · rw [List.mem_singleton.1 ht, h.closed] at hmem
    exact absurd hmem List.not_mem_nil

theorem curry_call (h : Application frame x b a) :
    ((app [fn x b, a]).resolve (mentioned frame x b)).curry =
      .app (.fn (curriedBody frame x b)) (curriedArg a) := by
  have hsame : (app [fn x b, a]).resolve (mentioned frame x b) =
      (app [fn x b, a]).resolve ((Scope.root frame).meaning [] Nameless.free) :=
    resolve_congr fun y hy => if_pos (h.freeVars_call hy)
  rw [hsame, curry_resolve_app_cons, List.map_cons, List.map_nil, resolve_closed h.closed _ .free]
  rfl

theorem relevant (h : Application frame x b a) (uses : Throughout UsesParameters frame x b a) :
    (Curried.app (.fn (curriedBody frame x b)) (curriedArg a)).Relevant := by
  rw [← h.curry_call]
  refine relevant_resolve uses.1 (forall_mentioned (fun y hy v hfind => ?_) fun _ => trivial)
  exact relevant_resolve (uses.2 y hy v hfind) fun _ => trivial

theorem builtinFree (h : Application frame x b a) (free : Throughout BuiltinFree frame x b a) :
    (Curried.app (.fn (curriedBody frame x b)) (curriedArg a)).BuiltinFree := by
  rw [← h.curry_call]
  refine builtinFree_resolve free.1 (forall_mentioned (fun y hy v hfind => ?_) fun _ => nofun)
  exact builtinFree_resolve (free.2 y hy v hfind) fun _ => nofun

theorem find?_call (h : Application frame x b a) (y : String)
    (hy : y ∈ (app [fn x b, a]).freeVars) : ∃ v, (Scope.root frame).find? y = some v := by
  obtain ⟨hyb, hyx⟩ := mem_freeVars_fn.1 (h.freeVars_call hy)
  rw [Scope.find?_root]
  exact (h.known y hyb).resolve_left hyx

theorem find?_name (h : Application frame x b a) (y : String) (hy : y ∈ b.freeVars) :
    ∃ v, (Scope.root (frame.set x a)).find? y = some v := by
  rw [Scope.find?_root, Frame.find?_set]
  obtain rfl | ⟨v, hfind⟩ := h.known y hy
  · exact ⟨a, if_pos rfl⟩
  · by_cases hyx : y = x
    · exact ⟨a, if_pos hyx⟩
    · exact ⟨v, by rw [if_neg hyx, hfind]⟩

theorem safe_value (h : Application frame x b a) (free : Throughout BuiltinFree frame x b a)
    {y : String} (hy : y ∈ (fn x b).freeVars) :
    ∃ v, frame.find? y = some v ∧ Safe [] v := by
  obtain ⟨hyb, hyx⟩ := mem_freeVars_fn.1 hy
  obtain ⟨v, hfind⟩ := (h.known y hyb).resolve_left hyx
  obtain ⟨hnormal, hclosed⟩ := h.values y v hfind
  exact ⟨v, hfind, ⟨hnormal.wellFormed, fun z hz => hclosed ▸ hz⟩, free.2 y hy v hfind⟩

theorem known_call (h : Application frame x b a) (free : Throughout BuiltinFree frame x b a) :
    Known [] (.root frame) (app [fn x b, a]) := by
  refine ⟨h.call.wellFormed, fun y hy => .inr ?_, free.1⟩
  rw [Scope.find?_root]
  exact h.safe_value free (h.freeVars_call hy)

theorem known_name (h : Application frame x b a) (free : Throughout BuiltinFree frame x b a) :
    Known [] (.root (frame.set x a)) b := by
  have hmembers := builtinFree_app.1 free.1
  refine ⟨h.wellFormed, fun y hy => .inr ?_, hmembers (fn x b) List.mem_cons_self⟩
  rw [Scope.find?_root, Frame.find?_set]
  by_cases hyx : y = x
  · have ha := hmembers a (List.mem_cons_of_mem _ List.mem_cons_self)
    exact ⟨a, if_pos hyx, ⟨h.normal.wellFormed, fun z hz => h.closed ▸ hz⟩, ha⟩
  · rw [if_neg hyx]
    exact h.safe_value free (mem_freeVars_fn.2 ⟨hy, hyx⟩)

/-- If there is a value either way, the redex has a normal form. -/
theorem normalizes (h : Application frame x b a)
    (succeeds : Succeeds (byCall frame x b a) ∨ Succeeds (byName frame x b a)) :
    ∃ n v, Curried.Steps (.app (.fn (curriedBody frame x b)) (curriedArg a)) n ∧ Reads v n ∧
      v.Normal := by
  obtain ⟨depth, v, hv⟩ | ⟨depth, w, hw⟩ := succeeds
  · obtain ⟨n, hsteps, hreads, hnormal⟩ := h.call.value hv
    exact ⟨n, _, hsteps, hreads, hnormal⟩
  · obtain ⟨n, hsteps, hreads, hnormal⟩ := h.name.value hw
    exact ⟨n, _, .head (.beta _ _) hsteps, hreads, hnormal⟩

end Application

/-- Applying a function means the same as binding its parameter, as far as both give a value. When
no function discards its argument, a value either way means that from some depth on neither way
exceeds the depth, and what may keep the other from a value is a literal that is applied, a misused
builtin or a sum that does not fit; and when no builtin occurs either, there is a value one way if
and only if there is one the other way. -/
theorem beta_law (h : Application frame x b a) :
    (∀ m n v w, byCall frame x b a m = .ok v → byName frame x b a n = .ok w →
      v.alphaEquivalent w = true) ∧
    (Throughout UsesParameters frame x b a →
      (Succeeds (byCall frame x b a) ∨ Succeeds (byName frame x b a) →
        ∃ depth, ∀ m, depth ≤ m →
          Conclusive (byCall frame x b a m) ∧ Conclusive (byName frame x b a m)) ∧
      (Throughout BuiltinFree frame x b a →
        (Succeeds (byCall frame x b a) ↔ Succeeds (byName frame x b a)))) := by
  have hbeta := Curried.Step.beta (curriedBody frame x b) (curriedArg a)
  refine ⟨?_, fun uses => ⟨?_, ?_⟩⟩
  · intro m n v w hv hw
    have hcall := soundAt m hv h.call.wellFormed (covered_of_values h.call.values) Nameless.free
    have hname := soundAt n hw h.name.wellFormed (covered_of_values h.name.values) Nameless.free
    have hnormalv := (value_of_reduce hv h.call.wellFormed h.call.values).normal
    have hnormalw := (value_of_reduce hw h.name.wellFormed h.name.values).normal
    rw [alphaEquivalent_iff, nameless_eq_resolve, nameless_eq_resolve]
    exact Nameless.normal_unique h.call.reads h.name.reads (.single hbeta) hcall hname
      (normal_resolve hnormalv isVariable_free) (normal_resolve hnormalw isVariable_free)
  · intro succeeds
    obtain ⟨n, v, hsteps, hreads, hnormal⟩ := h.normalizes succeeds
    have hterminates := (hreads.irreducible hnormal).terminates.expand hsteps (h.relevant uses)
    obtain ⟨depth, hdepth⟩ := h.call.settles hterminates
    obtain ⟨depth', hdepth'⟩ := h.name.settles (hterminates.steps (.single hbeta))
    refine ⟨max depth depth', ?_⟩
    intro m hm
    exact ⟨conclusive_of_reduce h.frame_values h.find?_call (hdepth m (by omega)),
      conclusive_of_reduce h.set_values h.find?_name (hdepth' m (by omega))⟩
  · intro free
    constructor
    · intro succeeds
      obtain ⟨n, v, hsteps, hreads, hnormal⟩ := h.normalizes (.inl succeeds)
      exact h.name.succeeds (h.known_name free) (.single hbeta) (h.relevant uses)
        (h.builtinFree free) hsteps hreads hnormal
    · intro succeeds
      obtain ⟨n, v, hsteps, hreads, hnormal⟩ := h.normalizes (.inr succeeds)
      exact h.call.succeeds (h.known_call free) .refl (h.relevant uses) (h.builtinFree free)
        hsteps hreads hnormal

end

def renamingFrame : Frame :=
  Frame.empty.set "f" (fn "y" (var "y"))

def renamingBody : Term :=
  app [var "x", var "f", fn "x" (var "x")]

def renamingArg : Term :=
  fn "z" (var "z")

/-- The body has a function whose parameter is the name, so it is renamed in the one value and not
in the other. -/
theorem beta_law_renamed :
    Application renamingFrame "x" renamingBody renamingArg ∧
      Throughout UsesParameters renamingFrame "x" renamingBody renamingArg ∧
      Throughout BuiltinFree renamingFrame "x" renamingBody renamingArg ∧
      byCall renamingFrame "x" renamingBody renamingArg 9 = .ok (fn "x'" (var "x'")) ∧
      (fn "x'" (var "x'")).alphaEquivalent (fn "x" (var "x")) = true ∧
      Succeeds (byName renamingFrame "x" renamingBody renamingArg) ∧
      ∃ depth, ∀ m, depth ≤ m →
        Conclusive (byCall renamingFrame "x" renamingBody renamingArg m) ∧
        Conclusive (byName renamingFrame "x" renamingBody renamingArg m) := by
  have values : ∀ y v, renamingFrame.find? y = some v → v = fn "y" (var "y") := by
    intro y v hfind
    rw [renamingFrame, Frame.find?_set] at hfind
    split at hfind
    · exact (Option.some.inj hfind).symm
    · cases hfind
  have h : Application renamingFrame "x" renamingBody renamingArg := by
    refine ⟨fun y v hfind => ?_, ?_, fun y hy => ?_, trivial, rfl⟩
    · rw [values y v hfind]
      exact ⟨trivial, rfl⟩
    · simp [renamingBody, WellFormed, WellFormedAll]
    · have hmem : y = "x" ∨ y = "f" := by simpa [renamingBody, freeVars, freeVarsAll] using hy
      obtain rfl | rfl := hmem
      · exact .inl rfl
      · exact .inr ⟨_, by rw [renamingFrame, Frame.find?_set, if_pos rfl]⟩
  have uses : Throughout UsesParameters renamingFrame "x" renamingBody renamingArg := by
    refine ⟨?_, fun y _ v hfind => ?_⟩
    · simp [renamingBody, renamingArg, UsesParameters, UsesParametersAll, freeVars, freeVarsAll]
    · rw [values y v hfind]
      exact ⟨List.mem_cons_self, trivial⟩
  have free : Throughout BuiltinFree renamingFrame "x" renamingBody renamingArg := by
    refine ⟨?_, fun y _ v hfind => ?_⟩
    · simp [renamingBody, renamingArg, BuiltinFree, BuiltinFreeAll]
    · rw [values y v hfind]
      trivial
  have hcall : byCall renamingFrame "x" renamingBody renamingArg 9 = .ok (fn "x'" (var "x'")) := by
    cbv
  have hname : byName renamingFrame "x" renamingBody renamingArg 9 = .ok (fn "x" (var "x")) := by
    cbv
  have succeeds := (beta_law h).2 uses
  exact ⟨h, uses, free, hcall, (beta_law h).1 9 9 _ _ hcall hname,
    (succeeds.2 free).1 ⟨9, _, hcall⟩, succeeds.1 (.inl ⟨9, _, hcall⟩)⟩

/-- A term that fails at enough depth has a value at no depth. -/
theorem not_succeeds_of_error {scope : Scope} {t : Term} {depth : Nat} {e : RuntimeError}
    (h : t.reduce depth [] scope = .error e) (he : e ≠ .depthExceeded) :
    ¬ Succeeds fun depth => t.reduce depth [] scope := by
  rintro ⟨depth', v, hv⟩
  change t.reduce depth' [] scope = .ok v at hv
  have hleft : t.reduce (max depth depth') [] scope = .error e := by
    rw [← h]
    refine reduce_of_le (Nat.le_max_left depth depth') ?_
    rw [h]
    exact fun herror => he (Except.error.inj herror)
  have hright : t.reduce (max depth depth') [] scope = .ok v := by
    rw [← hv]
    refine reduce_of_le (Nat.le_max_right depth depth') ?_
    rw [hv]
    nofun
  rw [hleft] at hright
  cases hright

section
variable {x : String} {b a : Term}

theorem Application.of_empty (wellFormed : b.WellFormed) (known : ∀ y ∈ b.freeVars, y = x)
    (normal : a.Normal) (closed : a.freeVars = []) : Application .empty x b a :=
  ⟨nofun, wellFormed, fun y hy => .inl (known y hy), normal, closed⟩

theorem Throughout.of_empty {P : Term → Prop} (h : P (app [fn x b, a])) :
    Throughout P .empty x b a :=
  ⟨h, nofun⟩

end

/-- There is a value when the function is applied, and none when its parameter is bound. -/
def OnlyByCall (frame : Frame) (x : String) (b a : Term) : Prop :=
  Application frame x b a ∧ Succeeds (byCall frame x b a) ∧ ¬ Succeeds (byName frame x b a)

/-- There is a value when the parameter is bound, and none when the function is applied. -/
def OnlyByName (frame : Frame) (x : String) (b a : Term) : Prop :=
  Application frame x b a ∧ ¬ Succeeds (byCall frame x b a) ∧ Succeeds (byName frame x b a)

/-- Either way may have a value alone: when an argument is discarded, and also when none is but a
call that waits takes another argument in. -/
theorem values_one_way_only :
    OnlyByCall .empty "x" (app [fn "z" (lit 3), app [var "x", lit 1]]) (lit 5) ∧
      OnlyByName .empty "x" (app [fn "y" (app [var "x", app [var "y", lit 1]]), lit 5])
        (fn "z" (lit 3)) ∧
      (Throughout UsesParameters .empty "x" (app [app [builtin .plus, var "x", lit 1], lit 2])
          (lit 5) ∧
        OnlyByCall .empty "x" (app [app [builtin .plus, var "x", lit 1], lit 2]) (lit 5)) ∧
      Throughout UsesParameters .empty "x" (app [fn "y" (app [var "x", var "y", lit 2]), lit 5])
          (fn "z" (app [builtin .plus, var "z", lit 1])) ∧
        OnlyByName .empty "x" (app [fn "y" (app [var "x", var "y", lit 2]), lit 5])
          (fn "z" (app [builtin .plus, var "z", lit 1])) := by
  refine ⟨⟨?_, ⟨9, lit 3, by cbv⟩, ?_⟩, ⟨?_, ?_, ⟨9, lit 3, by cbv⟩⟩,
    ⟨.of_empty ?_, ?_, ⟨9, lit 8, by cbv⟩, ?_⟩, .of_empty ?_, ?_, ?_, ⟨9, lit 8, by cbv⟩⟩
  · exact .of_empty (by simp [WellFormed, WellFormedAll]) (by decide) trivial rfl
  · have h : byName .empty "x" (app [fn "z" (lit 3), app [var "x", lit 1]]) (lit 5) 9 =
        .error .appliedLiteral := by cbv
    exact not_succeeds_of_error h (by simp)
  · exact .of_empty (by simp [WellFormed, WellFormedAll]) (by decide) trivial rfl
  · have h : byCall .empty "x" (app [fn "y" (app [var "x", app [var "y", lit 1]]), lit 5])
        (fn "z" (lit 3)) 9 = .error .appliedLiteral := by cbv
    exact not_succeeds_of_error h (by simp)
  · simp [UsesParameters, UsesParametersAll, freeVars, freeVarsAll]
  · exact .of_empty (by simp [WellFormed, WellFormedAll]) (by decide) trivial rfl
  · have h : byName .empty "x" (app [app [builtin .plus, var "x", lit 1], lit 2]) (lit 5) 9 =
        .error .appliedLiteral := by cbv
    exact not_succeeds_of_error h (by simp)
  · simp [UsesParameters, UsesParametersAll, freeVars, freeVarsAll]
  · refine .of_empty (by simp [WellFormed, WellFormedAll]) (by decide) ?_ rfl
    exact ⟨⟨var "z", List.mem_cons_self, by simp [freeVars]⟩, trivial, trivial, trivial⟩
  · have h : byCall .empty "x" (app [fn "y" (app [var "x", var "y", lit 2]), lit 5])
        (fn "z" (app [builtin .plus, var "z", lit 1])) 9 = .error .appliedLiteral := by cbv
    exact not_succeeds_of_error h (by simp)

end Term
end LambdaInt
