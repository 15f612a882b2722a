import LambdaInt.Term.Variables

/-!
Renaming, and the choice of names that clash with nothing. Renaming replaces the free occurrences
of one name and does not look out for capture: it is meant for a new name that is no parameter of
the term, and `renameApart` is the use that keeps to this.
-/

namespace LambdaInt

namespace Term

mutual

/-- Replaces the free occurrences of `old` by `new`. -/
def rename (old new : String) : Term → Term
  | var x => if x = old then var new else var x
  | lit n => lit n
  | builtin op => builtin op
  | fn p b => if p = old then fn p b else fn p (rename old new b)
  | app ts => app (renameAll old new ts)

def renameAll (old new : String) : List Term → List Term
  | [] => []
  | t :: ts => rename old new t :: renameAll old new ts

end

theorem renameAll_eq_map (old new : String) (ts : List Term) :
    renameAll old new ts = ts.map (rename old new) := by
  induction ts with
  | nil => rfl
  | cons t ts ih => simp [renameAll, ih]

end Term

/-- Appends primes to a name as long as it is one of those to avoid. Each prime makes the name
longer, so a name that was tried need not be avoided any more. -/
def freshen (avoid : List String) (name : String) : String :=
  if name ∈ avoid then freshen (avoid.erase name) (name ++ "'") else name
termination_by avoid.length
decreasing_by
  rename_i h
  rw [List.length_erase_of_mem h]
  exact Nat.sub_lt (List.length_pos_of_mem h) Nat.one_pos

theorem length_le_length_freshen (avoid : List String) (name : String) :
    name.length ≤ (freshen avoid name).length := by
  fun_induction freshen avoid name with
  | case1 avoid name _ ih =>
      rw [String.length_append] at ih
      omega
  | case2 => exact Nat.le_refl _

theorem freshen_not_mem (avoid : List String) (name : String) : freshen avoid name ∉ avoid := by
  fun_induction freshen avoid name with
  | case1 avoid name _ ih =>
      have hle := length_le_length_freshen (avoid.erase name) (name ++ "'")
      rw [String.length_append] at hle
      have hprime : "'".length = 1 := rfl
      have hne : freshen (avoid.erase name) (name ++ "'") ≠ name := by
        intro h
        rw [h] at hle
        omega
      exact fun hmem => ih ((List.mem_erase_of_ne hne).2 hmem)
  | case2 _ _ h => exact h

namespace Term

/-- The parameter and body of a function whose parameter is not in `used`. A parameter that is
used already gets a name that the body does not contain either. -/
def renameApart (used : List String) (param : String) (body : Term) : String × Term :=
  if param ∈ used then
    let fresh := freshen (used ++ body.allVars) param
    (fresh, body.rename param fresh)
  else (param, body)

theorem renameApart_of_not_mem {used : List String} {param : String} (body : Term)
    (h : param ∉ used) : renameApart used param body = (param, body) :=
  if_neg h

theorem fst_renameApart_not_mem (used : List String) (param : String) (body : Term) :
    (renameApart used param body).1 ∉ used := by
  rw [renameApart]
  split
  · exact fun hmem => freshen_not_mem _ param (List.mem_append_left body.allVars hmem)
  · assumption

end Term
end LambdaInt
