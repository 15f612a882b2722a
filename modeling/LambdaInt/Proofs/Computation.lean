import LambdaInt.Proofs.Alpha
import LambdaInt.Proofs.Readings
import Mathlib

/-!
What a term comes to in a frame of definitions. The two are read as one nameless term, with values
in place of the names that have them. If every row of steps from there ends, some depth is enough
for evaluation; and terms that are convertible there have the same value, as far as they have one.
-/

namespace LambdaInt

theorem Nameless.terminates_iff {t : Nameless} :
    t.Terminates ↔ ¬ ∃ row : Nat → Nameless, row 0 = t ∧ ∀ n, Step (row n) (row (n + 1)) := by
  have hrow := not_acc_iff_exists_descending_chain (r := fun u t => Nameless.Step t u) (x := t)
  exact (not_iff_comm.1 hrow).symm

namespace Term
open Nameless (Reads)

/-- The nameless form of a term, with the values of the frame in place of their names. -/
def namelessIn (frame : Frame) (t : Term) : Nameless :=
  (t.nameless []).replace fun x => (frame.find? x).map (nameless [])

theorem namelessIn_eq_resolve (frame : Frame) (t : Term) :
    t.namelessIn frame = t.resolve ((Scope.root frame).meaning [] Nameless.free) := by
  rw [namelessIn, replace_nameless, named_nil]
  refine resolve_congr fun x _ => ?_
  cases hfind : frame.find? x with
  | none =>
      rw [Scope.meaning_of_unbound List.not_mem_nil (by simpa using hfind), Nameless.replace, hfind]
      rfl
  | some v =>
      rw [Scope.meaning_of_find? List.not_mem_nil (by simpa using hfind), Nameless.replace, hfind,
        Option.map_some, Option.getD_some, nameless_eq_resolve, named_nil]

theorem meaning_of_frame {P : Nameless → Prop} {frame : Frame} {y : String}
    (hvalue : ∀ v, frame.find? y = some v → P (v.resolve Nameless.free)) (hfree : P (.free y)) :
    P ((Scope.root frame).meaning [] Nameless.free y) := by
  cases hfind : (Scope.root frame).find? y with
  | none =>
      rw [Scope.meaning_of_unbound List.not_mem_nil hfind]
      exact hfree
  | some v =>
      rw [Scope.meaning_of_find? List.not_mem_nil hfind]
      rw [Scope.find?_root] at hfind
      exact hvalue v hfind

/-- A frame of values and a term in it, with a curried term that both together read. -/
structure Evaluation (scope : Scope) (t : Term) (u : Curried) : Prop where
  wellFormed : t.WellFormed
  values : scope.All (Value [])
  reads : Reads (t.resolve (scope.meaning [] Nameless.free)) u

namespace Evaluation
variable {scope : Scope} {t : Term} {u : Curried}

theorem steps {depth : Nat} {v : Term} (h : Evaluation scope t u)
    (hv : t.reduce depth [] scope = .ok v) :
    Nameless.Steps (t.resolve (scope.meaning [] Nameless.free)) (v.resolve Nameless.free) :=
  soundAt depth hv h.wellFormed (covered_of_values h.values) Nameless.free

theorem normal {depth : Nat} {v : Term} (h : Evaluation scope t u)
    (hv : t.reduce depth [] scope = .ok v) : (v.resolve Nameless.free).Normal :=
  normal_resolve (value_of_reduce hv h.wellFormed h.values).normal isVariable_free

theorem value {depth : Nat} {v : Term} (h : Evaluation scope t u)
    (hv : t.reduce depth [] scope = .ok v) :
    ∃ n, Curried.Steps u n ∧ Reads (v.resolve Nameless.free) n ∧
      (v.resolve Nameless.free).Normal := by
  obtain ⟨n, hun, hn⟩ := h.reads.steps (h.steps hv)
  exact ⟨n, hun, hn, h.normal hv⟩

theorem settles (h : Evaluation scope t u) (hu : u.Terminates) :
    ∃ depth, ∀ m, depth ≤ m → t.reduce m [] scope ≠ .error .depthExceeded :=
  (settles_of_terminates (h.reads.terminates hu) h.wellFormed h.values).eventually

/-- Both values are normal forms of convertible terms. -/
theorem same_value {scope' : Scope} {t' : Term} {u' : Curried} (h : Evaluation scope t u)
    (h' : Evaluation scope' t' u') (convertible : Curried.Convertible u u') {m n : Nat} {v w : Term}
    (hv : t.reduce m [] scope = .ok v) (hw : t'.reduce n [] scope' = .ok w) :
    v.alphaEquivalent w = true := by
  rw [alphaEquivalent_iff, nameless_eq_resolve, nameless_eq_resolve]
  exact Nameless.normal_unique_of_convertible h.reads h'.reads convertible (h.steps hv)
    (h'.steps hw) (h.normal hv) (h'.normal hw)

end Evaluation

section
variable {frame : Frame} (hframe : ∀ x v, frame.find? x = some v → v.Normal ∧ v.freeVars = [])
include hframe

theorem all_values_root : (Scope.root frame).All (Value []) := by
  intro x v hfind
  rw [Scope.find?_root] at hfind
  obtain ⟨hnormal, hclosed⟩ := hframe x v hfind
  exact ⟨hnormal, fun y hy => hclosed ▸ hy⟩

theorem reads_meaning_root (x : String) :
    Reads ((Scope.root frame).meaning [] Nameless.free x)
      ((Scope.root frame).meaning [] Nameless.free x).curry := by
  refine meaning_of_frame (P := fun t => Reads t t.curry) (fun v hfind => ?_) (.free x)
  exact reads_resolve (hframe x v hfind).1.wellFormed Reads.free

theorem evaluation_root {t : Term} (ht : t.WellFormed) :
    Evaluation (.root frame) t (t.namelessIn frame).curry where
  wellFormed := ht
  values := all_values_root hframe
  reads := by
    rw [namelessIn_eq_resolve]
    exact reads_resolve ht (reads_meaning_root hframe)

end

/-- A term whose reduction terminates is not cut off for good: when no infinite row of steps begins
at it, with the values in place of their names, there is a depth from which on evaluation has a
value or another error. -/
theorem depth_suffices_of_terminates (frame : Frame) (t : Term) (ht : t.WellFormed)
    (hframe : ∀ x v, frame.find? x = some v → v.Normal ∧ v.freeVars = [])
    (h : ¬ ∃ row : Nat → Nameless, row 0 = t.namelessIn frame ∧
      ∀ n, Nameless.Step (row n) (row (n + 1))) :
    ∃ depth, ∀ m, depth ≤ m → t.reduce m [] (.root frame) ≠ .error .depthExceeded := by
  have hterminates : (t.namelessIn frame).Terminates := Nameless.terminates_iff.2 h
  rw [namelessIn_eq_resolve] at hterminates
  exact (settles_of_terminates hterminates ht (all_values_root hframe)).eventually

def doublingFrame : Frame :=
  Frame.empty.set "double" (fn "n" (app [builtin .plus, var "n", var "n"]))

def doublingTerm : Term :=
  app [app [fn "x" (var "x"), var "double"], lit 4]

/-- Steps of every kind lead to the value: two functions are applied, the head is an application
itself, and a builtin is called. -/
theorem depth_suffices_of_terminates_doubled :
    doublingTerm.WellFormed ∧
      (∀ x v, doublingFrame.find? x = some v → v.Normal ∧ v.freeVars = []) ∧
      (¬ ∃ row : Nat → Nameless,
        row 0 = doublingTerm.namelessIn doublingFrame ∧
        ∀ n, Nameless.Step (row n) (row (n + 1))) ∧
      ∃ depth, ∀ m, depth ≤ m →
        doublingTerm.reduce m [] (.root doublingFrame) ≠ .error .depthExceeded := by
  have ht : doublingTerm.WellFormed := by simp [doublingTerm, WellFormed, WellFormedAll]
  have hframe : ∀ x v, doublingFrame.find? x = some v → v.Normal ∧ v.freeVars = [] := by
    intro x v hfind
    rw [doublingFrame, Frame.find?_set] at hfind
    split at hfind
    · cases hfind
      exact ⟨⟨⟨var "n", List.mem_cons_self, by decide⟩, trivial, trivial, trivial⟩, by decide⟩
    · cases hfind
  have hterm : doublingTerm.namelessIn doublingFrame =
      .app [.app [.fn (.bound 0), .fn (.app [.builtin .plus, .bound 0, .bound 0])], .lit 4] := by
    cbv
  have hreads := (evaluation_root hframe ht).reads
  rw [← namelessIn_eq_resolve, hterm] at hreads
  -- No function discards its argument, so every row of steps ends if one does.
  have hrelevant : Curried.Relevant (.app (.app (.fn (.bound 0)) (.fn
      (.app (.app (.atom (.builtin .plus)) (.bound 0)) (.bound 0)))) (.atom (.lit 4))) := by
    simp [Curried.Relevant, Curried.weigh, Curried.first]
  have hsteps : Curried.Steps (.app (.app (.fn (.bound 0)) (.fn
      (.app (.app (.atom (.builtin .plus)) (.bound 0)) (.bound 0)))) (.atom (.lit 4)))
      (Curried.spine (.atom (.builtin .plus)) [.atom (.lit 4), .atom (.lit 4)]) :=
    .head (.left _ (.beta _ _)) (.single (.beta _ _))
  have hend : Curried.Irreducible
      (Curried.spine (.atom (.builtin .plus)) [.atom (.lit 4), .atom (.lit 4)]) := by
    apply Curried.IsLeaf.irreducible_spine (by trivial)
    intro a ha u step
    simp only [List.mem_cons, List.not_mem_nil, or_false, or_self] at ha
    rw [ha] at step
    cases step
  have hterminates := hreads.terminates (hend.terminates.expand hsteps hrelevant)
  have hrow := Nameless.terminates_iff.1 (hterm ▸ hterminates)
  exact ⟨ht, hframe, hrow, depth_suffices_of_terminates _ _ ht hframe hrow⟩

/-- The value is the normal form, and equal programs have the same: when two terms are convertible,
each with the values of its frame in place of their names and with application taken one argument
at a time, their values differ at most in the names of parameters, whatever the depths. Builtins may
occur; conversion leaves them alone. -/
theorem value_of_convertible (frame frame' : Frame) (t t' : Term) (ht : t.WellFormed)
    (ht' : t'.WellFormed)
    (hframe : ∀ x v, frame.find? x = some v → v.Normal ∧ v.freeVars = [])
    (hframe' : ∀ x v, frame'.find? x = some v → v.Normal ∧ v.freeVars = [])
    (h : Curried.Convertible (t.namelessIn frame).curry (t'.namelessIn frame').curry)
    (depth depth' : Nat) (v v' : Term) (hv : t.reduce depth [] (.root frame) = .ok v)
    (hv' : t'.reduce depth' [] (.root frame') = .ok v') : v.alphaEquivalent v' = true :=
  (evaluation_root hframe ht).same_value (evaluation_root hframe' ht') h hv hv'

def stagedFrame : Frame :=
  Frame.empty.set "k" (fn "x" (fn "y" (var "x")))

def stagedTerm : Term :=
  app [app [var "k", fn "a" (var "a")], var "k"]

def gatheredTerm : Term :=
  app [fn "x" (fn "y" (var "x")), app [fn "z" (var "z"), fn "b" (var "b")],
    fn "c" (app [var "c", var "c"])]

/-- The first program gives its arguments in two stages to a function of its frame; the second has
all in one application, and reduces the argument that is kept. -/
theorem value_of_convertible_staged :
    stagedTerm.WellFormed ∧ gatheredTerm.WellFormed ∧
      (∀ x v, stagedFrame.find? x = some v → v.Normal ∧ v.freeVars = []) ∧
      (∀ x v, Frame.empty.find? x = some v → v.Normal ∧ v.freeVars = []) ∧
      Curried.Convertible (stagedTerm.namelessIn stagedFrame).curry
        (gatheredTerm.namelessIn .empty).curry ∧
      stagedTerm.reduce 9 [] (.root stagedFrame) = .ok (fn "a" (var "a")) ∧
      gatheredTerm.reduce 7 [] (.root .empty) = .ok (fn "b" (var "b")) ∧
      (fn "a" (var "a")).alphaEquivalent (fn "b" (var "b")) = true := by
  have ht : stagedTerm.WellFormed := by simp [stagedTerm, WellFormed, WellFormedAll]
  have ht' : gatheredTerm.WellFormed := by simp [gatheredTerm, WellFormed, WellFormedAll]
  have hframe : ∀ x v, stagedFrame.find? x = some v → v.Normal ∧ v.freeVars = [] := by
    intro x v hfind
    rw [stagedFrame, Frame.find?_set] at hfind
    split at hfind
    · cases hfind
      exact ⟨trivial, by decide⟩
    · cases hfind
  have hframe' : ∀ x v, Frame.empty.find? x = some v → v.Normal ∧ v.freeVars = [] := by
    intro x v hfind
    cases hfind
  have hterm : stagedTerm.namelessIn stagedFrame =
      .app [.app [.fn (.fn (.bound 1)), .fn (.bound 0)], .fn (.fn (.bound 1))] := by cbv
  have hterm' : gatheredTerm.namelessIn .empty =
      .app [.fn (.fn (.bound 1)), .app [.fn (.bound 0), .fn (.bound 0)],
        .fn (.app [.bound 0, .bound 0])] := by cbv
  -- Both go to the identity, each in its own way.
  have hsteps : Curried.Steps (.app (.app (.fn (.fn (.bound 1))) (.fn (.bound 0)))
      (.fn (.fn (.bound 1)))) (.fn (.bound 0)) :=
    .head (.left _ (.beta _ _)) (.single (.beta _ _))
  have hsteps' : Curried.Steps (.app (.app (.fn (.fn (.bound 1)))
      (.app (.fn (.bound 0)) (.fn (.bound 0)))) (.fn (.app (.bound 0) (.bound 0))))
      (.fn (.bound 0)) :=
    .head (.left _ (.right _ (.beta _ _))) (.head (.left _ (.beta _ _)) (.single (.beta _ _)))
  have h : Curried.Convertible (stagedTerm.namelessIn stagedFrame).curry
      (gatheredTerm.namelessIn .empty).curry := by
    rw [hterm, hterm']
    exact .trans _ _ _ hsteps.convertible (.symm _ _ hsteps'.convertible)
  have hv : stagedTerm.reduce 9 [] (.root stagedFrame) = .ok (fn "a" (var "a")) := by cbv
  have hv' : gatheredTerm.reduce 7 [] (.root .empty) = .ok (fn "b" (var "b")) := by cbv
  exact ⟨ht, ht', hframe, hframe', h, hv, hv',
    value_of_convertible _ _ _ _ ht ht' hframe hframe' h 9 7 _ _ hv hv'⟩

end Term
end LambdaInt
