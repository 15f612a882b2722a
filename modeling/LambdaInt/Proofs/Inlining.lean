import LambdaInt.Proofs.AlphaInvariance
import LambdaInt.Proofs.DepthGuard
import Mathlib

/-!
A definition is interchangeable with its value. A name is looked up one level deeper than a value
put in its place is reduced, so the run of the term with the value lies between two runs of the
term with the name: it has an outcome if the first has, and the second has one if it has, and these
outcomes agree. The three runs are followed side by side, as parameters are renamed differently
once the value has brought its own names along.
-/

namespace LambdaInt
open Term

/-- The outcomes agree, unless the first is that the depth was exceeded. -/
def CutOffBy {α β : Type} (R : α → β → Prop) (x : Except RuntimeError α)
    (y : Except RuntimeError β) : Prop :=
  x = .error .depthExceeded ∨ AgreeBy R x y

namespace CutOffBy
variable {α β γ δ : Type} {R : α → β → Prop} {S : γ → δ → Prop} {x : Except RuntimeError α}
  {y : Except RuntimeError β}

theorem bind {f : α → Except RuntimeError γ} {g : β → Except RuntimeError δ}
    (h : CutOffBy R x y) (hfg : ∀ a b, R a b → CutOffBy S (f a) (g b)) :
    CutOffBy S (x.bind f) (y.bind g) := by
  obtain rfl | hxy := h
  · exact .inl rfl
  · cases hxy with
    | error e => exact .inr (.error e)
    | ok values => exact hfg _ _ values

theorem map {f : α → γ} {g : β → δ} (h : CutOffBy R x y) (hfg : ∀ a b, R a b → S (f a) (g b)) :
    CutOffBy S (x.map f) (y.map g) := by
  obtain rfl | hxy := h
  · exact .inl rfl
  · exact .inr (hxy.map hfg)

end CutOffBy

/-- The second outcome lies between the others: unless the depth was exceeded, the first agrees with
the second, and the second with the third. -/
structure Enclosed {α β : Type} (R : α → β → Prop) (x : Except RuntimeError α)
    (y : Except RuntimeError β) (x' : Except RuntimeError α) : Prop where
  before : CutOffBy R x y
  after : CutOffBy (flip R) y x'

namespace Enclosed
variable {α β γ δ : Type} {R : α → β → Prop} {S : γ → δ → Prop} {x x' : Except RuntimeError α}
  {y : Except RuntimeError β}

/-- The second outcome is reached with the depth of the first one. -/
theorem of_first (h : AgreeBy R x y) (hcut : CutOff x x') : Enclosed R x y x' where
  before := .inr h
  after := by
    obtain rfl | rfl := hcut
    · cases h
      exact .inl rfl
    · exact .inr h.flip

/-- The second outcome is reached with the depth of the third one. -/
theorem of_third (h : AgreeBy R x' y) (hcut : CutOff x x') : Enclosed R x y x' where
  before := by
    obtain rfl | rfl := hcut
    · exact .inl rfl
    · exact .inr h
  after := .inr h.flip

theorem bind {f f' : α → Except RuntimeError γ} {g : β → Except RuntimeError δ}
    (h : Enclosed R x y x') (hfg : ∀ a b, R a b → Enclosed S (f a) (g b) (f' a)) :
    Enclosed S (x.bind f) (y.bind g) (x'.bind f') where
  before := h.before.bind fun a b hab => (hfg a b hab).before
  after := h.after.bind fun b a hab => (hfg a b hab).after

theorem map {f : α → γ} {g : β → δ} (h : Enclosed R x y x') (hfg : ∀ a b, R a b → S (f a) (g b)) :
    Enclosed S (x.map f) (y.map g) (x'.map f) where
  before := h.before.map hfg
  after := h.after.map fun b a hab => hfg a b hab

theorem mapM {f f' : α → Except RuntimeError γ} {g : β → Except RuntimeError δ} {as : List α}
    {bs : List β} (h : List.Forall₂ (fun a b => Enclosed S (f a) (g b) (f' a)) as bs) :
    Enclosed (List.Forall₂ S) (as.mapM f) (bs.mapM g) (as.mapM f') := by
  induction h with
  | nil => exact of_first (.ok .nil) (.refl _)
  | cons hhead _ ih =>
      rw [Except.mapM_cons, Except.mapM_cons, Except.mapM_cons]
      apply hhead.bind
      intro c d hcd
      apply ih.bind
      intro cs ds hrest
      exact of_first (.ok (.cons hcd hrest)) (.refl _)

/-- Outcomes for every depth that enclose each other in turn are reached together, and agree. -/
theorem settle {x : Nat → Except RuntimeError α} {y : Nat → Except RuntimeError β}
    (h : ∀ depth, Enclosed R (x depth) (y depth) (x (depth + 1)))
    (hx : ∀ depth, CutOff (x depth) (x (depth + 1)))
    (hy : ∀ depth, CutOff (y depth) (y (depth + 1))) :
    ((∃ depth, x depth ≠ .error .depthExceeded) ↔ ∃ depth, y depth ≠ .error .depthExceeded) ∧
      ∀ depth depth', x depth ≠ .error .depthExceeded → y depth' ≠ .error .depthExceeded →
        AgreeBy R (x depth) (y depth') := by
  refine ⟨⟨?_, ?_⟩, ?_⟩
  · rintro ⟨depth, hne⟩
    have hagree := (h depth).before.resolve_left hne
    exact ⟨depth, fun hcut => hne (hagree.error_iff.2 hcut)⟩
  · rintro ⟨depth, hne⟩
    have hagree := (h depth).after.resolve_left hne
    exact ⟨depth + 1, fun hcut => hne (hagree.error_iff.2 hcut)⟩
  · intro depth depth' hne hne'
    have hleft := CutOff.of_le hx (Nat.le_max_left depth depth') hne
    have hright := CutOff.of_le hy (Nat.le_max_right depth depth') hne'
    rw [← hleft, ← hright]
    exact (h _).before.resolve_left (hleft ▸ hne)

end Enclosed

namespace Term

mutual

/-- Puts the term in the place of the free occurrences of the name. It is meant for a term without
free variables, of which none can be captured. -/
def fill (x : String) (v : Term) : Term → Term
  | var y => if y = x then v else var y
  | lit n => lit n
  | builtin op => builtin op
  | fn p b => if p = x then fn p b else fn p (fill x v b)
  | app ts => app (fillAll x v ts)

def fillAll (x : String) (v : Term) : List Term → List Term
  | [] => []
  | t :: ts => fill x v t :: fillAll x v ts

end

theorem fillAll_eq_map (x : String) (v : Term) (ts : List Term) :
    fillAll x v ts = ts.map (fill x v) := by
  induction ts with
  | nil => rfl
  | cons t ts ih => rw [fillAll, ih, List.map_cons]

/-- The name now means what the term in its place does. -/
theorem resolve_fill {x : String} {v : Term} (hv : v.freeVars = []) (t : Term)
    (σ : String → Nameless) :
    (fill x v t).resolve σ = t.resolve (Function.update σ x (v.resolve σ)) := by
  induction t generalizing σ with
  | var y =>
      by_cases hy : y = x
      · rw [fill, if_pos hy, resolve, hy, Function.update_self]
      · rw [fill, if_neg hy, resolve, resolve, Function.update_of_ne hy]
  | lit _ | builtin _ => rfl
  | fn p b ih =>
      by_cases hp : p = x
      · rw [fill, if_pos hp]
        apply resolve_congr
        intro y hy
        have hne : y ≠ x := hp ▸ (mem_freeVars_fn.1 hy).2
        rw [Function.update_of_ne hne]
      · have hclosed : p ∉ v.freeVars := hv ▸ List.not_mem_nil
        rw [fill, if_neg hp, resolve, resolve, ih, resolve_bind_of_not_mem hclosed,
          update_bind (Ne.symm hp)]
  | app ts ih =>
      rw [fill, fillAll_eq_map, resolve_app, resolve_app, List.map_map]
      exact congrArg Nameless.app (List.map_congr_left fun t ht => ih t ht σ)

/-- Every name means what it does at the place, or is found there to have the value and means what
that does. -/
def Place.Fills (P : Place) (v : Term) (μ : String → Nameless) : Prop :=
  ∀ x, μ x = P.meaning x ∨
    μ x = v.resolve P.meaning ∧ x ∉ P.used ∧ P.scope.find? x = some v

theorem Place.Fills.body {P : Place} {v : Term} {μ : String → Nameless} (h : P.Fills v μ)
    (hv : v.freeVars = []) (q : String) : (P.body q).Fills v (bind μ q) := by
  intro x
  by_cases hx : x = q
  · rw [hx, bind_self]
    exact .inl (bind_self _ q).symm
  · rw [bind_of_ne hx]
    obtain hsame | ⟨hvalue, hused, hfind⟩ := h x
    · rw [hsame]
      exact .inl (bind_of_ne hx _).symm
    · refine .inr ⟨?_, ?_, ?_⟩
      · have hclosed : q ∉ v.freeVars := hv ▸ List.not_mem_nil
        rw [hvalue]
        exact (resolve_bind_of_not_mem hclosed _).symm
      · exact fun hmem => (List.mem_cons.1 hmem).elim hx hused
      · simpa [Place.body, hx] using hfind

/-- Between the outcomes of a term at this depth and the next lies that of every term that means the
same once the names that are found to have the value mean what it does. -/
def EnclosesAt (v : Term) (depth : Nat) : Prop :=
  ∀ {P Q : Place} {μ : String → Nameless} {t u : Term}, P.Matches Q → P.Fills v μ →
    t.resolve μ = u.resolve Q.meaning →
      Enclosed (SameValue P Q) (t.reduce depth P.used P.scope) (u.reduce depth Q.used Q.scope)
        (t.reduce (depth + 1) P.used P.scope)

section
variable {v : Term} {depth : Nat} {P Q : Place} {μ : String → Nameless}

theorem var_enclosed {x : String} {u : Term} (h : P.Matches Q) (hμ : P.Fills v μ)
    (hxu : μ x = u.resolve Q.meaning) :
    Enclosed (SameValue P Q) ((var x).reduce depth P.used P.scope) (u.reduce depth Q.used Q.scope)
      ((var x).reduce (depth + 1) P.used P.scope) := by
  have hcut := reduce_cutOff depth P.used P.scope (var x)
  obtain hsame | ⟨hvalue, hused, hfind⟩ := hμ x
  · exact .of_first (agreesAt depth h (hsame.symm.trans hxu)) hcut
  · apply Enclosed.of_third ?_ hcut
    rw [reduce_var_of_find? hused hfind]
    exact agreesAt depth h (hvalue.symm.trans hxu)

variable (ih : EnclosesAt v depth) (h : P.Matches Q) (hμ : P.Fills v μ)
include ih h hμ

theorem fn_enclosed (hv : v.freeVars = []) {p q : String} {b c : Term}
    (hbody : b.resolve (bind μ p) = c.resolve (bind Q.meaning q)) :
    Enclosed (SameValue P Q) ((fn p b).reduce (depth + 1) P.used P.scope)
      ((fn q c).reduce (depth + 1) Q.used Q.scope)
      ((fn p b).reduce (depth + 1 + 1) P.used P.scope) := by
  cases hp : renameApart P.used p b with
  | mk p' b' =>
      cases hq : renameApart Q.used q c with
      | mk q' c' =>
          rw [reduce_fn_of_renameApart hp, reduce_fn_of_renameApart hp,
            reduce_fn_of_renameApart hq]
          have hplaces := h.body (not_mem_of_renameApart hp) (not_mem_of_renameApart hq)
          rw [← resolve_bind_renameApart hp, ← resolve_bind_renameApart hq] at hbody
          exact (ih hplaces (hμ.body hv p') hbody).map fun _ _ => SameValue.fn

theorem app_enclosed {ts us : List Term}
    (hmembers : List.Forall₂ (fun t u => t.resolve μ = u.resolve Q.meaning) ts us) :
    Enclosed (SameValue P Q) ((app ts).reduce (depth + 1) P.used P.scope)
      ((app us).reduce (depth + 1) Q.used Q.scope)
      ((app ts).reduce (depth + 1 + 1) P.used P.scope) := by
  cases hmembers with
  | nil => exact .of_first (.ok (sameValue_app.2 .nil)) (.refl _)
  | cons hhead hargs =>
      rw [reduce_app_cons, reduce_app_cons, reduce_app_cons]
      apply (ih h hμ hhead).bind
      intro head head' hheads
      apply (Enclosed.mapM (hargs.imp fun _ _ => ih h hμ)).bind
      intro args args' hargs
      -- Nothing is left to fill in values, which agree at the same depth.
      apply Enclosed.of_first (applyTo_agrees (agreesAt depth) h hheads hargs)
      exact applyTo_cutOff (fun p b a => reduce_cutOff depth P.used _ _) head args

end

theorem enclosesAt {v : Term} (hv : v.freeVars = []) (depth : Nat) : EnclosesAt v depth := by
  induction depth with
  | zero =>
      intro P Q μ t u _ _ _
      exact ⟨.inl rfl, .inl rfl⟩
  | succ depth ih =>
      intro P Q μ t u h hμ htu
      cases t with
      | var x => exact var_enclosed h hμ htu
      | lit _ | builtin _ =>
          exact .of_first (agreesAt (depth + 1) h htu) (reduce_cutOff (depth + 1) _ _ _)
      | fn p b =>
          obtain ⟨q, c, rfl, hbody⟩ := exists_fn_of_resolve_eq Q.isVariable htu
          exact fn_enclosed ih h hμ hv hbody
      | app ts =>
          obtain ⟨us, rfl, hmembers⟩ := exists_app_of_resolve_eq Q.isVariable htu
          exact app_enclosed ih h hμ hmembers

theorem fills_outside {scope : Scope} {x : String} {v : Term} (hfind : scope.find? x = some v) :
    (Place.outside [] scope).Fills v
      (Function.update Nameless.free x (v.resolve Nameless.free)) := by
  intro y
  by_cases hy : y = x
  · rw [hy, Function.update_self]
    exact .inr ⟨rfl, List.not_mem_nil, hfind⟩
  · rw [Function.update_of_ne hy]
    exact .inl rfl

end Term

/-- A name that a session has defined can be replaced by its value wherever it occurs free in a
term. If one of the terms has an outcome at some depth other than that the depth was exceeded, then
so has the other; and any such outcomes of them are values that differ at most in the names of
parameters, or the same error. -/
theorem defined_name_interchangeable (session : Session) (reachable : session.Reachable)
    (x : String) (v : Term) (hfind : session.bindings.find? x = some v) (t : Term) :
    ((∃ depth, t.reduce depth [] (.root session.bindings) ≠ .error .depthExceeded) ↔
      ∃ depth, (fill x v t).reduce depth [] (.root session.bindings) ≠ .error .depthExceeded) ∧
    ∀ depth depth', t.reduce depth [] (.root session.bindings) ≠ .error .depthExceeded →
      (fill x v t).reduce depth' [] (.root session.bindings) ≠ .error .depthExceeded →
        AgreeBy (fun r s => r.alphaEquivalent s = true)
          (t.reduce depth [] (.root session.bindings))
          ((fill x v t).reduce depth' [] (.root session.bindings)) := by
  have hv : v.freeVars = [] := reachable.closed x v hfind
  have hroot : (Scope.root session.bindings).find? x = some v := by
    rw [Scope.find?_root]
    exact hfind
  have hplaces := matches_outside reachable.closed.alike.bindings
  have henclosed (depth : Nat) :=
    enclosesAt hv depth hplaces (fills_outside hroot) (resolve_fill hv t _).symm
  obtain ⟨hboth, hagree⟩ := Enclosed.settle henclosed (fun depth => reduce_cutOff depth _ _ t)
    (fun depth => reduce_cutOff depth _ _ (fill x v t))
  refine ⟨hboth, fun depth depth' hne hne' => ?_⟩
  have hvalues := hagree depth depth' hne hne'
  exact hvalues.imp fun _ _ same => alphaEquivalent_iff_resolve.2 same.meaning

def primedSession : Session :=
  ((Session.start 9).runLines ["let k = λx.λy'.x"]).2

def callingName : Term :=
  fn "y" (fn "y" (app [var "k", var "y"]))

def callingValue : Term :=
  fn "y" (fn "y" (app [fn "x" (fn "y'" (var "x")), var "y"]))

/-- The value has a parameter of the name that the inner function gets otherwise, so the function
gets another one; and one level of depth less is enough for it. -/
theorem defined_name_interchangeable_renamed :
    primedSession.Reachable ∧
      primedSession.bindings.find? "k" = some (fn "x" (fn "y'" (var "x"))) ∧
      fill "k" (fn "x" (fn "y'" (var "x"))) callingName = callingValue ∧
      callingName.reduce 7 [] (.root primedSession.bindings) =
        .ok (fn "y" (fn "y'" (fn "y''" (var "y'")))) ∧
      callingValue.reduce 6 [] (.root primedSession.bindings) =
        .ok (fn "y" (fn "y''" (fn "y'" (var "y''")))) ∧
      (fn "y" (fn "y'" (fn "y''" (var "y'")))).alphaEquivalent
        (fn "y" (fn "y''" (fn "y'" (var "y''")))) = true := by
  have reachable : primedSession.Reachable := Session.Reachable.runLines (.start 9) _
  have hfind : primedSession.bindings.find? "k" = some (fn "x" (fn "y'" (var "x"))) := by
    cbv
  have hfill : fill "k" (fn "x" (fn "y'" (var "x"))) callingName = callingValue := by cbv
  have hname : callingName.reduce 7 [] (.root primedSession.bindings) =
      .ok (fn "y" (fn "y'" (fn "y''" (var "y'")))) := by cbv
  have hvalue : callingValue.reduce 6 [] (.root primedSession.bindings) =
      .ok (fn "y" (fn "y''" (fn "y'" (var "y''")))) := by cbv
  have hagree := (defined_name_interchangeable _ reachable "k" _ hfind callingName).2 7 6
  rw [hfill, hname, hvalue] at hagree
  refine ⟨reachable, hfind, hfill, hname, hvalue, ?_⟩
  cases hagree (by simp) (by simp) with
  | ok values => exact values

end LambdaInt
