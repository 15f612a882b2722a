import LambdaInt.Step
import LambdaInt.Proofs.NormalForm
import LambdaInt.Proofs.Resolution

/-!
Soundness of reduction. A reduction that succeeds is a row of steps of the nameless term, from the
term with the values of its names filled in to the value. What reduction relies on is stated as a
condition on the scope: the free names of every value that is found are used, so that they stand
for themselves where the value is reduced again.
-/

namespace LambdaInt

namespace Nameless

theorem Steps.of_forall₂ {ts us : List Nameless} (h : List.Forall₂ Steps ts us) :
    Steps (app ts) (app us) := by
  have main (before : List Nameless) : Steps (app (before ++ ts)) (app (before ++ us)) := by
    induction h generalizing before with
    | nil => exact .refl
    | @cons t u ts us htu _ ih =>
        have hrest := ih (before ++ [u])
        rw [List.append_assoc, List.append_assoc] at hrest
        exact (Steps.member before ts htu).trans hrest
  exact main []

theorem Steps.application {t u : Nameless} (h : Steps t u) (args : List Nameless) :
    Steps (t.application args) (u.application args) := by
  cases args with
  | nil => exact h
  | cons arg args => exact Steps.member [] (arg :: args) h

end Nameless

namespace Term

/-- A term that may be the value of a name where the given names are used. -/
structure Covered (used : List String) (t : Term) : Prop where
  wellFormed : t.WellFormed
  inScope : ∀ x ∈ t.freeVars, x ∈ used

theorem Covered.cons {used : List String} {t : Term} (h : Covered used t) (q : String) :
    Covered (q :: used) t :=
  ⟨h.wellFormed, fun x hx => List.mem_cons_of_mem q (h.inScope x hx)⟩

theorem covered_var {used : List String} {x : String} (h : x ∈ used) : Covered used (var x) :=
  ⟨trivial, fun _ hy => List.mem_singleton.1 hy ▸ h⟩

end Term

namespace Scope
open Term

/-- What names mean to a reduction in the scope: those that are used are not looked up. -/
def meaning (scope : Scope) (used : List String) (σ : String → Nameless) (x : String) :
    Nameless :=
  if x ∈ used then σ x
  else
    match scope.find? x with
    | some value => value.resolve σ
    | none => .free x

variable {scope : Scope} {used : List String}

theorem meaning_of_mem {x : String} (h : x ∈ used) (σ : String → Nameless) :
    scope.meaning used σ x = σ x :=
  if_pos h

theorem meaning_of_find? {x : String} {v : Term} (h : x ∉ used) (hfind : scope.find? x = some v)
    (σ : String → Nameless) : scope.meaning used σ x = v.resolve σ := by
  rw [meaning, if_neg h, hfind]

theorem meaning_of_unbound {x : String} (h : x ∉ used) (hfind : scope.find? x = none)
    (σ : String → Nameless) : scope.meaning used σ x = .free x := by
  rw [meaning, if_neg h, hfind]

/-- Entering a function moves the meaning of every name below it. -/
theorem meaning_body (hscope : scope.All (Covered used)) {q : String} (hq : q ∉ used)
    (σ : String → Nameless) :
    (scope.child.set q (var q)).meaning (q :: used) (bind σ q) =
      bind (scope.meaning used σ) q := by
  funext x
  by_cases hxq : x = q
  · rw [hxq, meaning_of_mem List.mem_cons_self, bind_self, bind_self]
  · rw [bind_of_ne hxq]
    by_cases hx : x ∈ used
    · rw [meaning_of_mem (List.mem_cons_of_mem q hx), meaning_of_mem hx, bind_of_ne hxq]
    · have hx' : x ∉ q :: used := fun h => (List.mem_cons.1 h).elim hxq hx
      have hfind : (scope.child.set q (var q)).find? x = scope.find? x := by simp [hxq]
      cases hvalue : scope.find? x with
      | none =>
          rw [hvalue] at hfind
          rw [meaning_of_unbound hx' hfind, meaning_of_unbound hx hvalue]
          rfl
      | some v =>
          rw [hvalue] at hfind
          rw [meaning_of_find? hx' hfind, meaning_of_find? hx hvalue, rename_resolve]
          refine resolve_congr fun y hy => bind_of_ne ?_ σ
          intro hyq
          exact hq (hyq ▸ (hscope x v hvalue).inScope y hy)

/-- Applying a function gives its parameter the meaning of the argument. -/
theorem meaning_argument {q x : String} (hq : q ∉ used) (hx : x ∈ q :: used) (a : Term)
    (σ : String → Nameless) :
    (scope.child.set q a).meaning used σ x = Function.update σ q (a.resolve σ) x := by
  by_cases hxq : x = q
  · have hfind : (scope.child.set q a).find? x = some a := by simp [hxq]
    rw [meaning_of_find? (hxq ▸ hq) hfind, hxq, Function.update_self]
  · have hused : x ∈ used := (List.mem_cons.1 hx).resolve_left hxq
    rw [meaning_of_mem hused, Function.update_of_ne hxq]

end Scope

namespace Term
open Nameless (Steps Step)

theorem Covered.renameApart {used : List String} {p q : String} {b c : Term}
    (h : Covered used (fn p b)) (hqc : renameApart used p b = (q, c)) :
    Covered (q :: used) c :=
  ⟨wellFormed_renameApart hqc h.wellFormed, inScope_renameApart hqc h.inScope⟩

theorem covered_of_reduce {depth : Nat} {used : List String} {scope : Scope} {t v : Term}
    (h : t.reduce depth used scope = .ok v) (ht : t.WellFormed)
    (hscope : scope.All (Covered used)) : Covered used v :=
  ⟨(normal_of_reduce h ht fun x w hw => (hscope x w hw).wellFormed).wellFormed,
    (tidy_of_reduce h).inScope⟩

section
variable {depth : Nat} {used : List String} {scope : Scope}

/-- The body of a function means the same below its parameter, renamed apart or not. -/
theorem resolve_body (hscope : scope.All (Covered used)) {p q : String} {b c : Term}
    (hqc : renameApart used p b = (q, c)) (σ : String → Nameless) :
    c.resolve ((scope.child.set q (var q)).meaning (q :: used) (bind σ q)) =
      b.resolve (bind (scope.meaning used σ) p) := by
  rw [Scope.meaning_body hscope (not_mem_of_renameApart hqc)]
  exact resolve_renameApart hqc _ _

/-- The body of a value means in the frame of its argument what applying the value gives. -/
theorem resolve_argument {p q : String} {b c : Term} (hf : Covered used (fn p b))
    (hqc : renameApart used p b = (q, c)) (a : Term) (σ : String → Nameless) :
    c.resolve ((scope.child.set q a).meaning used σ) =
      (b.resolve (bind σ p)).instantiate (a.resolve σ) := by
  rw [instantiate_resolve, ← resolve_renameApart hqc]
  apply resolve_congr
  intro x hx
  exact Scope.meaning_argument (not_mem_of_renameApart hqc) ((hf.renameApart hqc).inScope x hx) a σ

/-- A value mentions used names only, so it means the same in every scope. -/
theorem Covered.resolve_meaning {t : Term} (h : Covered used t) (scope : Scope)
    (σ : String → Nameless) : t.resolve (scope.meaning used σ) = t.resolve σ :=
  resolve_congr fun x hx => Scope.meaning_of_mem (h.inScope x hx) σ

theorem all_body (hscope : scope.All (Covered used)) (q : String) :
    (scope.child.set q (var q)).All (Covered (q :: used)) :=
  Scope.All.set (fun x w hw => (hscope x w hw).cons q) (covered_var List.mem_cons_self)

/-- Reduction to this depth makes steps only. -/
def SoundAt (depth : Nat) : Prop :=
  ∀ {used : List String} {scope : Scope} {t v : Term}, t.reduce depth used scope = .ok v →
    t.WellFormed → scope.All (Covered used) →
      ∀ σ, Steps (t.resolve (scope.meaning used σ)) (v.resolve σ)

/-- The arguments are taken by steps at the head. -/
theorem SoundAt.applies (sound : SoundAt depth) (hscope : scope.All (Covered used))
    {head v : Term} {args : List Term}
    (h : Applies (betaBy (reduce depth used) used scope) head args v)
    (hhead : Covered used head) (hargs : ∀ a ∈ args, Covered used a) (σ : String → Nameless) :
    Steps ((head.resolve σ).application (args.map (resolve σ))) (v.resolve σ) := by
  induction h with
  | done head => exact .refl
  | @beta p b a u v args body _ ih =>
      obtain ⟨ha, hargs⟩ := List.forall_mem_cons.1 hargs
      cases hqc : renameApart used p b with
      | mk q c =>
          rw [betaBy_of_renameApart hqc] at body
          have hc : c.WellFormed := (hhead.renameApart hqc).wellFormed
          have hset : (scope.child.set q a).All (Covered used) := hscope.set ha
          have hbody := sound body hc hset σ
          rw [resolve_argument hhead hqc] at hbody
          refine .head (Step.beta _ _ _) ((hbody.application _).trans ?_)
          exact ih (covered_of_reduce body hc hset) hargs
  | @call op args v ne _ result =>
      obtain ⟨values, value, hliterals, yields, rfl⟩ := Builtin.apply_eq_ok_iff.1 result
      rw [literals?_eq_some_iff.1 hliterals] at ne ⊢
      rw [List.map_map, Nameless.application_of_ne_nil _ (by simpa using ne)]
      exact .single (Step.delta yields)
  | @wait head args waits =>
      rw [Nameless.application_of_ne_nil _ (by simpa using waits.ne_nil), resolve_app]
      exact .refl
  | @extend terms args ne =>
      rw [Nameless.application_of_ne_nil _ (by simpa using ne), resolve_app, resolve_app,
        List.map_append]
      exact .single (Step.merge _ _)

/-- The head and the arguments of an application are reduced where they stand. -/
theorem SoundAt.members (sound : SoundAt depth) (hscope : scope.All (Covered used))
    {head head' : Term} {args args' : List Term} (ht : (app (head :: args)).WellFormed)
    (hhead : head.reduce depth used scope = .ok head')
    (hargs : List.Forall₂ (fun t u => reduce depth used scope t = .ok u) args args')
    (σ : String → Nameless) :
    Steps ((app (head :: args)).resolve (scope.meaning used σ))
      ((head'.resolve σ).application (args'.map (resolve σ))) := by
  obtain ⟨hlen, hts⟩ := wellFormed_app.1 ht
  obtain ⟨hheadt, hargst⟩ := List.forall_mem_cons.1 hts
  have hne : args'.map (resolve σ) ≠ [] := by
    intro hnil
    rw [← List.length_eq_zero_iff, List.length_map, ← hargs.length_eq] at hnil
    rw [List.length_cons] at hlen
    omega
  rw [Nameless.application_of_ne_nil _ hne, resolve_app, List.map_cons]
  refine Steps.of_forall₂ (.cons (sound hhead hheadt hscope σ) ?_)
  rw [List.forall₂_map_left_iff, List.forall₂_map_right_iff]
  refine ((List.forall₂_and_left _ _).2 ⟨hargst, hargs⟩).imp ?_
  intro t u htu
  exact sound htu.2 htu.1 hscope σ

theorem covered_args {args args' : List Term} (hscope : scope.All (Covered used))
    (hwf : ∀ t ∈ args, t.WellFormed)
    (hargs : List.Forall₂ (fun t u => reduce depth used scope t = .ok u) args args') :
    ∀ a ∈ args', Covered used a := by
  intro a ha
  obtain ⟨t, ht, hred⟩ := exists_mem_of_forall₂ hargs ha
  exact covered_of_reduce hred (hwf t ht) hscope

end

theorem soundAt (depth : Nat) : SoundAt depth := by
  induction depth with
  | zero =>
      intro used scope t v h
      cases h
  | succ depth ih =>
      intro used scope t v h ht hscope σ
      cases t with
      | var x =>
          obtain ⟨hx, rfl⟩ | ⟨hx, value, hfind, hvalue⟩ := reduce_var_eq_ok h
          · rw [resolve, resolve, Scope.meaning_of_mem hx]
          · have hcovered := hscope x value hfind
            have hsteps := ih hvalue hcovered.wellFormed hscope σ
            rwa [hcovered.resolve_meaning, ← Scope.meaning_of_find? hx hfind] at hsteps
      | lit _ | builtin _ =>
          cases h
          exact .refl
      | fn p b =>
          cases hqc : renameApart used p b with
          | mk q c =>
              obtain ⟨r, hr, rfl⟩ := reduce_fn_eq_ok hqc h
              have hbody := ih hr (wellFormed_renameApart hqc ht) (all_body hscope q) (bind σ q)
              rw [resolve_body hscope hqc] at hbody
              exact hbody.body
      | app ts =>
          cases ts with
          | nil =>
              cases h
              exact .refl
          | cons head args =>
              obtain ⟨head', args', hhead, hargs, happ⟩ := reduce_app_eq_ok h
              obtain ⟨hheadt, hargst⟩ := List.forall_mem_cons.1 (wellFormed_app.1 ht).2
              refine (ih.members hscope ht hhead hargs σ).trans ?_
              exact ih.applies hscope happ (covered_of_reduce hhead hheadt hscope)
                (covered_args hscope hargst hargs) σ

/-- A reduction that succeeds makes steps only: in the term, every free name that is not used is
first replaced by its value. -/
theorem reduce_sound (depth : Nat) (used : List String) (scope : Scope) (t v : Term)
    (ht : t.WellFormed)
    (hscope : ∀ x w, scope.find? x = some w → w.WellFormed ∧ ∀ y ∈ w.freeVars, y ∈ used)
    (h : t.reduce depth used scope = .ok v) :
    Steps
      ((t.nameless []).replace fun x =>
        if x ∈ used then none else (scope.find? x).map (nameless []))
      (v.nameless []) := by
  have hcovered : scope.All (Covered used) := by
    intro x w hw
    obtain ⟨hwf, hfree⟩ := hscope x w hw
    exact ⟨hwf, hfree⟩
  have hsteps := soundAt depth h ht hcovered Nameless.free
  have hvalue : (fun x => if x ∈ used then none else (scope.find? x).map (nameless [])) =
      fun x => (if x ∈ used then none else scope.find? x).map (nameless []) := by
    funext x
    split <;> rfl
  rw [hvalue, replace_nameless, nameless_eq_resolve v, named_nil]
  refine Eq.subst (motive := fun u => Steps u (v.resolve Nameless.free))
    (resolve_congr fun x _ => ?_) hsteps
  by_cases hx : x ∈ used
  · simp [Scope.meaning_of_mem hx, Nameless.replace, hx]
  · cases hfind : scope.find? x with
    | none => simp [Scope.meaning_of_unbound hx hfind, Nameless.replace, hx, hfind]
    | some w =>
        simp [Scope.meaning_of_find? hx hfind, Nameless.replace, hx, hfind, nameless_eq_resolve,
          named_nil]

/-- The name `f` stands for a function that mentions a used name. -/
def waitingScope : Scope :=
  .root (Frame.empty.set "f" (fn "x" (var "y")))

/-- An application that waits for ever, with a call among its arguments and one more argument to
follow. -/
def waitingTerm : Term :=
  app [app [var "y", app [builtin .plus, lit 1, lit 2]], fn "y" (app [var "f", var "y"])]

/-- Steps of every kind are made: the builtin is called, the argument that follows is joined to the
application, and `f` is applied below a parameter `y`, which is renamed first. -/
theorem reduce_sound_renamed :
    waitingTerm.WellFormed ∧
      (∀ x w, waitingScope.find? x = some w → w.WellFormed ∧ ∀ y ∈ w.freeVars, y ∈ ["y"]) ∧
      waitingTerm.reduce 7 ["y"] waitingScope = .ok (app [var "y", lit 3, fn "y'" (var "y")]) ∧
      Steps
        (.app [.app [.free "y", .app [.builtin .plus, .lit 1, .lit 2]],
          .fn (.app [.fn (.free "y"), .bound 0])])
        (.app [.free "y", .lit 3, .fn (.free "y")]) := by
  have ht : waitingTerm.WellFormed := by simp [waitingTerm, WellFormed, WellFormedAll]
  have hscope (x : String) (w : Term) (hw : waitingScope.find? x = some w) :
      w.WellFormed ∧ ∀ y ∈ w.freeVars, y ∈ ["y"] := by
    rw [waitingScope, Scope.find?_root, Frame.find?_set] at hw
    split at hw
    · cases hw
      exact ⟨trivial, by decide⟩
    · cases hw
  have h : waitingTerm.reduce 7 ["y"] waitingScope =
      .ok (app [var "y", lit 3, fn "y'" (var "y")]) := by cbv
  have hstart : (waitingTerm.nameless []).replace
      (fun x => if x ∈ ["y"] then none else (waitingScope.find? x).map (nameless [])) =
      .app [.app [.free "y", .app [.builtin .plus, .lit 1, .lit 2]],
        .fn (.app [.fn (.free "y"), .bound 0])] := by cbv
  have hsteps := reduce_sound 7 ["y"] waitingScope _ _ ht hscope h
  rw [hstart] at hsteps
  exact ⟨ht, hscope, h, hsteps⟩

end Term
end LambdaInt
