import LambdaInt.Proofs.AlphaInvariance

/-!
The choice of new names for parameters. Primes are appended one at a time, so the first name that
need not be avoided is taken; that comes after at most as many primes as there are names to avoid. A
function renamed apart differs from the function at most in the names of parameters.
-/

namespace LambdaInt

/-- The name with so many primes. -/
def primed (name : String) : Nat → String
  | 0 => name
  | k + 1 => primed name k ++ "'"

theorem primed_append_prime (name : String) (k : Nat) :
    primed (name ++ "'") k = primed name (k + 1) := by
  induction k with
  | zero => rfl
  | succ k ih => exact congrArg (· ++ "'") ih

/-- Every name with fewer primes was tried, and each of them had to be avoided. -/
theorem exists_freshen_eq_primed (avoid : List String) (name : String) :
    ∃ k ≤ avoid.length, freshen avoid name = primed name k ∧ ∀ j < k, primed name j ∈ avoid := by
  fun_induction freshen avoid name with
  | case1 avoid name h ih =>
      obtain ⟨k, hk, hfresh, htried⟩ := ih
      have hpos : 0 < avoid.length := List.length_pos_of_mem h
      rw [List.length_erase_of_mem h] at hk
      refine ⟨k + 1, by omega, by rw [hfresh, primed_append_prime], fun j hj => ?_⟩
      cases j with
      | zero => exact h
      | succ j =>
          rw [← primed_append_prime]
          exact List.mem_of_mem_erase (htried j (Nat.lt_of_succ_lt_succ hj))
  | case2 avoid name h =>
      exact ⟨0, Nat.zero_le _, rfl, fun j hj => absurd hj (Nat.not_lt_zero j)⟩

theorem exists_isLeast_freshen (avoid : List String) (name : String) :
    ∃ k ≤ avoid.length, freshen avoid name = primed name k ∧
      IsLeast {j | primed name j ∉ avoid} k := by
  obtain ⟨k, hk, hfresh, htried⟩ := exists_freshen_eq_primed avoid name
  have hfree : primed name k ∉ avoid := hfresh ▸ freshen_not_mem avoid name
  exact ⟨k, hk, hfresh, hfree, fun j hj => Nat.le_of_not_lt fun hlt => hj (htried j hlt)⟩

namespace Term

theorem alphaEquivalent_renameApart {used : List String} {p q : String} {b c : Term}
    (h : renameApart used p b = (q, c)) : (fn q c).alphaEquivalent (fn p b) = true :=
  alphaEquivalent_iff_resolve.2 (congrArg Nameless.fn (resolve_bind_renameApart h _))

/-- Priming ends, at the first of the primed names that is neither used nor occurs in the body; and
renaming a parameter apart gives a function with a parameter that is not used, which differs from the
function at most in the names of parameters. -/
theorem renaming_apart_correct (used : List String) (p : String) (b : Term) :
    (∃ k ≤ (used ++ b.allVars).length, freshen (used ++ b.allVars) p = primed p k ∧
      IsLeast {j | primed p j ∉ used ∧ primed p j ∉ b.allVars} k) ∧
    ∃ q c, renameApart used p b = (q, c) ∧ q ∉ used ∧
      (p ∈ used → q = freshen (used ++ b.allVars) p) ∧
      (fn q c).alphaEquivalent (fn p b) = true ∧
      (p ∉ used → fn q c = fn p b) ∧
      ∀ x ∈ c.freeVars, x = q ∨ x ∈ b.freeVars := by
  constructor
  · have hleast := exists_isLeast_freshen (used ++ b.allVars) p
    simpa only [List.mem_append, not_or] using hleast
  · cases h : renameApart used p b with
    | mk q c =>
        refine ⟨q, c, rfl, not_mem_of_renameApart h, ?_, alphaEquivalent_renameApart h, ?_, ?_⟩
        · intro hp
          rw [renameApart, if_pos hp] at h
          exact (congrArg Prod.fst h).symm
        · intro hp
          rw [renameApart_of_not_mem b hp] at h
          cases h
          rfl
        · intro x hx
          exact (eq_or_mem_of_renameApart h hx).imp_right fun hmem => (mem_freeVars_fn.1 hmem).1

/-- One prime is used and two belong to a parameter of the body, so the new name has three. -/
theorem renaming_apart_correct_thrice :
    "x" ∈ ["x", "x'"] ∧
      freshen ["x", "x'", "x''", "x", "x''"] "x" = "x'''" ∧
      (∃ k ≤ 5, "x'''" = primed "x" k ∧
        IsLeast {j | primed "x" j ∉ ["x", "x'"] ∧ primed "x" j ∉ ["x''", "x", "x''"]} k) ∧
      (∃ q c, renameApart ["x", "x'"] "x" (fn "x''" (app [var "x", var "x''"])) = (q, c) ∧
        q ∉ ["x", "x'"] ∧ q = "x'''" ∧
        (fn q c).alphaEquivalent (fn "x" (fn "x''" (app [var "x", var "x''"]))) = true) ∧
      ∃ q c, renameApart ["x'"] "x" (var "x") = (q, c) ∧ fn q c = fn "x" (var "x") := by
  have hused : "x" ∈ ["x", "x'"] := List.mem_cons_self
  have hfresh : freshen ["x", "x'", "x''", "x", "x''"] "x" = "x'''" := by cbv
  obtain ⟨hleast, q, c, hapart, hq, hname, hsame, _⟩ :=
    renaming_apart_correct ["x", "x'"] "x" (fn "x''" (app [var "x", var "x''"]))
  obtain ⟨_, q', c', hapart', _, _, _, hkept, _⟩ := renaming_apart_correct ["x'"] "x" (var "x")
  have hprimes : q = "x'''" := (hname hused).trans hfresh
  exact ⟨hused, hfresh, hfresh ▸ hleast, ⟨q, c, hapart, hq, hprimes, hsame⟩, q', c', hapart',
    hkept (by decide)⟩

end Term
end LambdaInt
