import LambdaInt.Term.Alpha
import LambdaInt.Proofs.Resolution

/-!
Two terms differ at most in the names of parameters if and only if their nameless forms are equal.
Below functions the pairs of parameters passed give the parameters of either term.
-/

namespace LambdaInt.Term

theorem named_cons_self (binders : List String) (p : String) :
    named (p :: binders) p = .bound 0 := by
  rw [← bind_named, bind_self]

theorem named_cons_of_ne (binders : List String) {p x : String} (h : x ≠ p) :
    named (p :: binders) x = (named binders x).rename Nat.succ := by
  rw [← bind_named, bind_of_ne h]

theorem named_cases (binders : List String) (x : String) :
    (∃ i, named binders x = .bound i) ∨ named binders x = .free x := by
  unfold named
  cases binders.idxOf? x with
  | some i => exact .inl ⟨i, rfl⟩
  | none => exact .inr rfl

theorem rename_succ_ne_bound_zero (t : Nameless) : t.rename Nat.succ ≠ .bound 0 := by
  cases t <;> simp [Nameless.rename]

theorem rename_succ_named_inj {as bs : List String} {x y : String} :
    (named as x).rename Nat.succ = (named bs y).rename Nat.succ ↔ named as x = named bs y := by
  obtain ⟨i, hi⟩ | hx := named_cases as x <;> obtain ⟨j, hj⟩ | hy := named_cases bs y
  · rw [hi, hj]
    simp
  · rw [hi, hy]
    simp
  · rw [hx, hj]
    simp
  · rw [hx, hy]
    simp

theorem namesAgree_iff (binders : List (String × String)) (x y : String) :
    namesAgree binders x y = true ↔
      named (binders.map Prod.fst) x = named (binders.map Prod.snd) y := by
  induction binders with
  | nil => simp [namesAgree, named_nil]
  | cons pair binders ih =>
      obtain ⟨p, q⟩ := pair
      rw [namesAgree, List.map_cons, List.map_cons]
      by_cases hx : x = p
      · by_cases hy : y = q
        · simp [hx, hy, named_cons_self]
        · rw [hx, named_cons_self, named_cons_of_ne _ hy]
          simpa [hy] using (rename_succ_ne_bound_zero _).symm
      · by_cases hy : y = q
        · rw [hy, named_cons_self, named_cons_of_ne _ hx]
          simpa [hx] using rename_succ_ne_bound_zero _
        · rw [named_cons_of_ne _ hx, named_cons_of_ne _ hy, rename_succ_named_inj, ← ih]
          simp [hx, hy]

theorem alphaUnderAll_iff {binders : List (String × String)} {ts : List Term}
    (h : ∀ t ∈ ts, ∀ u, alphaUnder binders t u = true ↔
      t.nameless (binders.map Prod.fst) = u.nameless (binders.map Prod.snd)) (us : List Term) :
    alphaUnderAll binders ts us = true ↔
      ts.map (nameless (binders.map Prod.fst)) = us.map (nameless (binders.map Prod.snd)) := by
  induction ts generalizing us with
  | nil => cases us <;> simp [alphaUnderAll]
  | cons t ts ih =>
      obtain ⟨ht, hts⟩ := List.forall_mem_cons.1 h
      cases us with
      | nil => simp [alphaUnderAll]
      | cons u us => simp [alphaUnderAll, ht u, ih hts us]

theorem nameless_ne_named {t : Term} (h : ∀ x, t ≠ var x) (as bs : List String) (y : String) :
    t.nameless as ≠ named bs y := by
  intro heq
  obtain ⟨i, hi⟩ | hy := named_cases bs y
  · rw [hi] at heq
    cases t <;> first | exact h _ rfl | cases heq
  · rw [hy] at heq
    cases t <;> first | exact h _ rfl | cases heq

theorem alphaUnder_iff (t u : Term) (binders : List (String × String)) :
    alphaUnder binders t u = true ↔
      t.nameless (binders.map Prod.fst) = u.nameless (binders.map Prod.snd) := by
  induction t generalizing u binders with
  | var x =>
      cases u with
      | var y => exact namesAgree_iff binders x y
      | _ => exact iff_of_false (by simp [alphaUnder]) (nameless_ne_named (by simp) _ _ x).symm
  | lit m =>
      cases u with
      | var y => exact iff_of_false (by simp [alphaUnder]) (nameless_ne_named (by simp) _ _ y)
      | _ => simp [alphaUnder, nameless]
  | builtin f =>
      cases u with
      | var y => exact iff_of_false (by simp [alphaUnder]) (nameless_ne_named (by simp) _ _ y)
      | _ => simp [alphaUnder, nameless]
  | fn p b ih =>
      cases u with
      | var y => exact iff_of_false (by simp [alphaUnder]) (nameless_ne_named (by simp) _ _ y)
      | fn q c => simpa [alphaUnder, nameless] using ih c ((p, q) :: binders)
      | _ => simp [alphaUnder, nameless]
  | app ts ih =>
      cases u with
      | var y => exact iff_of_false (by simp [alphaUnder]) (nameless_ne_named (by simp) _ _ y)
      | app us =>
          rw [alphaUnder, nameless, nameless, namelessAll_eq_map, namelessAll_eq_map,
            Nameless.app.injEq]
          exact alphaUnderAll_iff (fun t ht u => ih t ht u binders) us
      | _ => simp [alphaUnder, nameless]

theorem alphaEquivalent_iff {t u : Term} :
    t.alphaEquivalent u = true ↔ t.nameless [] = u.nameless [] :=
  alphaUnder_iff t u []

end LambdaInt.Term
