import LambdaInt.Proofs.Evaluation

/-!
The depth only cuts reduction off. Once the outcome at some depth is another than that the depth
was exceeded, it is the outcome at every larger depth as well.
-/

namespace LambdaInt

/-- The outcomes agree, unless the first is that the depth was exceeded. -/
def CutOff {α : Type} (x y : Except RuntimeError α) : Prop :=
  x = .error .depthExceeded ∨ x = y

namespace CutOff
variable {α β : Type}

theorem refl (x : Except RuntimeError α) : CutOff x x :=
  .inr rfl

theorem bind {x y : Except RuntimeError α} {f g : α → Except RuntimeError β} (h : CutOff x y)
    (hfg : ∀ a, CutOff (f a) (g a)) : CutOff (x.bind f) (y.bind g) := by
  obtain rfl | rfl := h
  · exact .inl rfl
  · cases x with
    | error e => exact refl _
    | ok a => exact hfg a

theorem map {x y : Except RuntimeError α} (f : α → β) (h : CutOff x y) :
    CutOff (x.map f) (y.map f) := by
  obtain rfl | rfl := h
  · exact .inl rfl
  · exact refl _

theorem mapM {f g : α → Except RuntimeError β} {as : List α} (h : ∀ a ∈ as, CutOff (f a) (g a)) :
    CutOff (as.mapM f) (as.mapM g) := by
  induction as with
  | nil => exact refl _
  | cons a as ih =>
      obtain ⟨ha, has⟩ := List.forall_mem_cons.1 h
      rw [Except.mapM_cons, Except.mapM_cons]
      exact ha.bind fun b => (ih has).bind fun bs => refl _

/-- Outcomes for every depth, each cut off at most, settle once and for all. -/
theorem of_le {x : Nat → Except RuntimeError α} (h : ∀ depth, CutOff (x depth) (x (depth + 1)))
    {depth depth' : Nat} (hle : depth ≤ depth') (hx : x depth ≠ .error .depthExceeded) :
    x depth' = x depth := by
  induction hle with
  | refl => rfl
  | step _ ih =>
      obtain hcut | hsame := h _
      · rw [ih] at hcut
        exact absurd hcut hx
      · rw [← hsame, ih]

end CutOff

namespace Term

theorem applyTo_cutOff {beta beta' : String → Term → Term → Except RuntimeError Term}
    (h : ∀ p b a, CutOff (beta p b a) (beta' p b a)) (head : Term) (args : List Term) :
    CutOff (applyTo beta head args) (applyTo beta' head args) := by
  induction args generalizing head with
  | nil =>
      rw [applyTo_nil, applyTo_nil]
      exact .refl _
  | cons a args ih =>
      cases head with
      | fn p b => exact (h p b a).bind ih
      | _ => exact .refl _

theorem reduce_cutOff (depth : Nat) (used : List String) (scope : Scope) (t : Term) :
    CutOff (reduce depth used scope t) (reduce (depth + 1) used scope t) := by
  induction depth generalizing used scope t with
  | zero => exact .inl rfl
  | succ depth ih =>
      cases t with
      | var x =>
          by_cases hx : x ∈ used
          · rw [reduce_var_of_mem hx, reduce_var_of_mem hx]
            exact .refl _
          · cases hfind : scope.find? x with
            | none =>
                rw [reduce_var_of_unbound hx hfind, reduce_var_of_unbound hx hfind]
                exact .refl _
            | some value =>
                rw [reduce_var_of_find? hx hfind, reduce_var_of_find? hx hfind]
                exact ih used scope value
      | lit _ | builtin _ => exact .refl _
      | fn p b =>
          rw [reduce_fn, reduce_fn]
          exact (ih _ _ _).map _
      | app ts =>
          cases ts with
          | nil => exact .refl _
          | cons head args =>
              rw [reduce_app_cons, reduce_app_cons]
              apply (ih used scope head).bind
              intro head'
              apply (CutOff.mapM fun t _ => ih used scope t).bind
              intro args'
              exact applyTo_cutOff (fun p b a => ih used _ _) head' args'

/-- An outcome that the depth did not force stays the same at every larger depth. -/
theorem reduce_of_le {depth depth' : Nat} {used : List String} {scope : Scope} {t : Term}
    (hle : depth ≤ depth') (h : reduce depth used scope t ≠ .error .depthExceeded) :
    reduce depth' used scope t = reduce depth used scope t :=
  CutOff.of_le (x := (reduce · used scope t)) (fun depth => reduce_cutOff depth used scope t) hle h

theorem mapM_reduce_of_le {depth depth' : Nat} {used : List String} {scope : Scope}
    {ts : List Term} (hle : depth ≤ depth')
    (h : ts.mapM (reduce depth used scope) ≠ .error .depthExceeded) :
    ts.mapM (reduce depth' used scope) = ts.mapM (reduce depth used scope) := by
  have hcut (depth : Nat) :
      CutOff (ts.mapM (reduce depth used scope)) (ts.mapM (reduce (depth + 1) used scope)) :=
    CutOff.mapM fun t _ => reduce_cutOff depth used scope t
  exact CutOff.of_le hcut hle h

theorem applyTo_of_le {depth depth' : Nat} {used : List String} {scope : Scope} {head : Term}
    {args : List Term} (hle : depth ≤ depth')
    (h : applyTo (betaBy (reduce depth used) used scope) head args ≠ .error .depthExceeded) :
    applyTo (betaBy (reduce depth' used) used scope) head args =
      applyTo (betaBy (reduce depth used) used scope) head args := by
  have hcut (depth : Nat) : CutOff (applyTo (betaBy (reduce depth used) used scope) head args)
      (applyTo (betaBy (reduce (depth + 1) used) used scope) head args) :=
    applyTo_cutOff (fun p b a => reduce_cutOff depth used _ _) head args
  exact CutOff.of_le hcut hle h

section
variable {depth depth' : Nat} {used : List String} {scope : Scope} (hle : depth ≤ depth')
include hle

theorem reduce_eq_ok_of_le {t r : Term} (h : t.reduce depth used scope = .ok r) :
    t.reduce depth' used scope = .ok r := by
  rw [reduce_of_le hle (by rw [h]; nofun), h]

theorem mapM_reduce_eq_ok_of_le {ts rs : List Term}
    (h : ts.mapM (reduce depth used scope) = .ok rs) :
    ts.mapM (reduce depth' used scope) = .ok rs := by
  rw [mapM_reduce_of_le hle (by rw [h]; nofun), h]

theorem applyTo_eq_ok_of_le {head r : Term} {args : List Term}
    (h : applyTo (betaBy (reduce depth used) used scope) head args = .ok r) :
    applyTo (betaBy (reduce depth' used) used scope) head args = .ok r := by
  rw [applyTo_of_le hle (by rw [h]; nofun), h]

end

end Term
end LambdaInt
