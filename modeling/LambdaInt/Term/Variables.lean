import LambdaInt.Term.Basic

/-!
The variables of a term. `freeVars` lists the free occurrences from left to right, so its first
member is the leftmost one; `params` lists the parameters of its functions, and `allVars` lists every
occurrence and every parameter.
-/

namespace LambdaInt.Term

mutual

/-- The names of the free occurrences of variables, from left to right. -/
def freeVars : Term → List String
  | var x => [x]
  | lit _ | builtin _ => []
  | fn p b => (freeVars b).filter fun x => x != p
  | app ts => freeVarsAll ts

def freeVarsAll : List Term → List String
  | [] => []
  | t :: ts => freeVars t ++ freeVarsAll ts

end

mutual

/-- The names that occur in the term at all, free, bound or as a parameter. -/
def allVars : Term → List String
  | var x => [x]
  | lit _ | builtin _ => []
  | fn p b => p :: allVars b
  | app ts => allVarsAll ts

def allVarsAll : List Term → List String
  | [] => []
  | t :: ts => allVars t ++ allVarsAll ts

end

mutual

/-- The parameters of the functions in the term. -/
def params : Term → List String
  | var _ | lit _ | builtin _ => []
  | fn p b => p :: params b
  | app ts => paramsAll ts

def paramsAll : List Term → List String
  | [] => []
  | t :: ts => params t ++ paramsAll ts

end

theorem freeVarsAll_eq_flatMap (ts : List Term) : freeVarsAll ts = ts.flatMap freeVars := by
  induction ts with
  | nil => rfl
  | cons t ts ih => simp [freeVarsAll, ih]

theorem allVarsAll_eq_flatMap (ts : List Term) : allVarsAll ts = ts.flatMap allVars := by
  induction ts with
  | nil => rfl
  | cons t ts ih => simp [allVarsAll, ih]

theorem paramsAll_eq_flatMap (ts : List Term) : paramsAll ts = ts.flatMap params := by
  induction ts with
  | nil => rfl
  | cons t ts ih => simp [paramsAll, ih]

theorem mem_freeVars_fn {x p : String} {b : Term} :
    x ∈ (fn p b).freeVars ↔ x ∈ b.freeVars ∧ x ≠ p := by
  simp [freeVars]

theorem mem_freeVars_app {x : String} {ts : List Term} :
    x ∈ (app ts).freeVars ↔ ∃ t ∈ ts, x ∈ t.freeVars := by
  simp [freeVars, freeVarsAll_eq_flatMap]

theorem mem_allVars_app {x : String} {ts : List Term} :
    x ∈ (app ts).allVars ↔ ∃ t ∈ ts, x ∈ t.allVars := by
  simp [allVars, allVarsAll_eq_flatMap]

theorem mem_params_app {x : String} {ts : List Term} :
    x ∈ (app ts).params ↔ ∃ t ∈ ts, x ∈ t.params := by
  simp [params, paramsAll_eq_flatMap]

theorem mem_allVars_of_mem_freeVars {x : String} {t : Term} (h : x ∈ t.freeVars) :
    x ∈ t.allVars := by
  induction t with
  | var y => exact h
  | lit _ | builtin _ => simp [freeVars] at h
  | fn p b ih =>
      rw [mem_freeVars_fn] at h
      exact List.mem_cons_of_mem p (ih h.1)
  | app ts ih =>
      obtain ⟨t, ht, hx⟩ := mem_freeVars_app.1 h
      exact mem_allVars_app.2 ⟨t, ht, ih t ht hx⟩

theorem mem_allVars_of_mem_params {x : String} {t : Term} (h : x ∈ t.params) : x ∈ t.allVars := by
  induction t with
  | var _ | lit _ | builtin _ => simp [params] at h
  | fn p b ih => exact List.mem_cons.2 ((List.mem_cons.1 h).imp_right ih)
  | app ts ih =>
      obtain ⟨t, ht, hx⟩ := mem_params_app.1 h
      exact mem_allVars_app.2 ⟨t, ht, ih t ht hx⟩

def isClosed (t : Term) : Bool :=
  t.freeVars.isEmpty

end LambdaInt.Term
