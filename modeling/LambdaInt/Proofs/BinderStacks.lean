import LambdaInt.Term.Alpha

/-!
Comparison of terms with two stacks of parameters, one for each term. Parameters are pushed before
the bodies of functions are compared and popped afterwards, and two variables mean the same if their
innermost binders stand at the same height. On stacks of one height this is the comparison under
the pairs of parameters, and the stacks are afterwards what they were.
-/

namespace LambdaInt.Term

/-- The parameters that enclose the place reached in each term, outermost first. -/
structure Binders where
  left : List String
  right : List String

namespace Binders

def push (p q : String) (binders : Binders) : Binders :=
  ⟨binders.left ++ [p], binders.right ++ [q]⟩

def pop (binders : Binders) : Binders :=
  ⟨binders.left.dropLast, binders.right.dropLast⟩

/-- How many binders lie below the innermost one of the name. -/
def height? (x : String) : List String → Option Nat
  | [] => none
  | p :: binders =>
      match height? x binders with
      | some height => some (height + 1)
      | none => if p = x then some 0 else none

/-- The names are bound at the same height, or both are free and equal. -/
def agree (binders : Binders) (x y : String) : Bool :=
  match height? x binders.left, height? y binders.right with
  | none, none => x == y
  | some i, some j => i == j
  | _, _ => false

/-- The two stacks that hold pairs of parameters, of which the innermost comes first. -/
def ofPairs (pairs : List (String × String)) : Binders :=
  ⟨(pairs.map Prod.fst).reverse, (pairs.map Prod.snd).reverse⟩

theorem pop_push (p q : String) (binders : Binders) : (binders.push p q).pop = binders := by
  simp [push, pop]

theorem ofPairs_cons (p q : String) (pairs : List (String × String)) :
    ofPairs ((p, q) :: pairs) = (ofPairs pairs).push p q := by
  simp [ofPairs, push]

theorem height?_concat (x p : String) (binders : List String) :
    height? x (binders ++ [p]) = if p = x then some binders.length else height? x binders := by
  induction binders with
  | nil => rfl
  | cons q binders ih =>
      rw [List.cons_append, height?, height?, ih]
      by_cases hp : p = x
      · rw [if_pos hp, if_pos hp, List.length_cons]
      · rw [if_neg hp, if_neg hp]

theorem height?_lt {x : String} {binders : List String} {height : Nat}
    (h : height? x binders = some height) : height < binders.length := by
  induction binders generalizing height with
  | nil => cases h
  | cons p binders ih =>
      rw [height?] at h
      cases hheight : height? x binders with
      | some below =>
          rw [hheight] at h
          cases h
          exact Nat.succ_lt_succ (ih hheight)
      | none =>
          rw [hheight] at h
          simp only at h
          split at h
          · cases h
            exact Nat.zero_lt_succ _
          · cases h

/-- A binder that is pushed stands higher than all others. -/
theorem agree_push {binders : Binders} (h : binders.left.length = binders.right.length)
    (p q x y : String) : (binders.push p q).agree x y =
      if x = p ∨ y = q then decide (x = p ∧ y = q) else binders.agree x y := by
  unfold agree push
  simp only [height?_concat, h]
  by_cases hx : p = x
  · by_cases hy : q = y
    · simp [hx, hy]
    · rw [if_pos hx, if_neg hy, if_pos (.inl hx.symm), decide_eq_false fun hxy => hy hxy.2.symm]
      cases hheight : height? y binders.right with
      | none => rfl
      | some height => exact beq_false_of_ne (Nat.ne_of_gt (height?_lt hheight))
  · by_cases hy : q = y
    · rw [if_neg hx, if_pos hy, if_pos (.inr hy.symm), decide_eq_false fun hxy => hx hxy.1.symm]
      cases hheight : height? x binders.left with
      | none => rfl
      | some height => exact beq_false_of_ne (Nat.ne_of_lt (h ▸ height?_lt hheight))
    · rw [if_neg hx, if_neg hy, if_neg (not_or.2 ⟨Ne.symm hx, Ne.symm hy⟩)]

theorem agree_ofPairs (pairs : List (String × String)) (x y : String) :
    (ofPairs pairs).agree x y = namesAgree pairs x y := by
  induction pairs with
  | nil => rfl
  | cons pair pairs ih =>
      rw [ofPairs_cons, agree_push (by simp [ofPairs]), ih]
      rfl

end Binders

mutual

def alphaOnStacks : Term → Term → StateM Binders Bool
  | var x, var y => do return (← get).agree x y
  | lit m, lit n => return m == n
  | builtin f, builtin g => return f == g
  | app ts, app us => if ts.length = us.length then alphaOnStacksAll ts us else return false
  | fn p b, fn q c => do
      modify (Binders.push p q)
      let same ← alphaOnStacks b c
      modify Binders.pop
      return same
  | _, _ => return false

/-- Compares two lists of terms as far as both go, up to the first two terms that differ. -/
def alphaOnStacksAll : List Term → List Term → StateM Binders Bool
  | t :: ts, u :: us => do
      if ← alphaOnStacks t u then alphaOnStacksAll ts us else return false
  | _, _ => return true

end

theorem alphaUnderAll_of_length_ne (pairs : List (String × String)) {ts us : List Term}
    (h : ts.length ≠ us.length) : alphaUnderAll pairs ts us = false := by
  induction ts generalizing us with
  | nil =>
      cases us with
      | nil => exact absurd rfl h
      | cons u us => rfl
  | cons t ts ih =>
      cases us with
      | nil => rfl
      | cons u us => rw [alphaUnderAll, ih (by simpa using h), Bool.and_false]

theorem alphaOnStacksAll_ofPairs {pairs : List (String × String)} {ts : List Term}
    (h : ∀ t ∈ ts, ∀ u,
      (alphaOnStacks t u).run (.ofPairs pairs) = (alphaUnder pairs t u, .ofPairs pairs))
    {us : List Term} (hlen : ts.length = us.length) :
    (alphaOnStacksAll ts us).run (.ofPairs pairs) =
      (alphaUnderAll pairs ts us, .ofPairs pairs) := by
  induction ts generalizing us with
  | nil =>
      cases us with
      | nil => rfl
      | cons u us => cases hlen
  | cons t ts ih =>
      obtain ⟨ht, hts⟩ := List.forall_mem_cons.1 h
      cases us with
      | nil => cases hlen
      | cons u us =>
          rw [alphaOnStacksAll, StateT.run_bind, ht, alphaUnderAll]
          cases alphaUnder pairs t u with
          | false => rfl
          | true => exact ih hts (Nat.succ.inj hlen)

/-- On two stacks that hold the pairs passed the result is that under the pairs, and the stacks are
left as they were found. -/
theorem alphaOnStacks_ofPairs (t u : Term) (pairs : List (String × String)) :
    (alphaOnStacks t u).run (.ofPairs pairs) = (alphaUnder pairs t u, .ofPairs pairs) := by
  induction t generalizing u pairs with
  | var x =>
      cases u with
      | var y =>
          rw [alphaUnder, ← Binders.agree_ofPairs]
          rfl
      | _ => rfl
  | lit m => cases u <;> rfl
  | builtin f => cases u <;> rfl
  | fn p b ih =>
      cases u with
      | fn q c =>
          have hbody := ih c ((p, q) :: pairs)
          rw [Binders.ofPairs_cons] at hbody
          rw [alphaOnStacks, StateT.run_bind]
          change Id.run (do
            let r ← (alphaOnStacks b c).run ((Binders.ofPairs pairs).push p q)
            return (r.1, r.2.pop)) = _
          rw [hbody]
          exact congrArg (Prod.mk _) (Binders.pop_push p q _)
      | _ => rfl
  | app ts ih =>
      cases u with
      | app us =>
          rw [alphaOnStacks, alphaUnder]
          split
          · rename_i hlen
            exact alphaOnStacksAll_ofPairs (fun t ht u => ih t ht u pairs) hlen
          · rename_i hlen
            rw [alphaUnderAll_of_length_ne pairs hlen]
            rfl
      | _ => rfl

/-- Two terms are alpha-equivalent as they are found to be with two stacks, empty at first. -/
theorem alphaEquivalent_eq_alphaOnStacks (t u : Term) :
    t.alphaEquivalent u = ((alphaOnStacks t u).run ⟨[], []⟩).1 :=
  (congrArg Prod.fst (alphaOnStacks_ofPairs t u [])).symm

end LambdaInt.Term
