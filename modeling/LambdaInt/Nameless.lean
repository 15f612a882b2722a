import LambdaInt.Term.Basic

/-!
Nameless terms: a bound variable is the number of functions between it and the one that binds it,
and a free variable keeps its name. Renaming and substitution act on all bound variables that the
term itself does not bind. `Term.nameless` forgets the names of parameters.
-/

namespace LambdaInt

inductive Nameless
  | bound (index : Nat)
  | free (name : String)
  | lit (value : Int64)
  | builtin (op : Builtin)
  | fn (body : Nameless)
  | app (terms : List Nameless)

namespace Nameless

@[elab_as_elim, induction_eliminator]
theorem induct {motive : Nameless → Prop} (bound : ∀ index, motive (bound index))
    (free : ∀ name, motive (free name)) (lit : ∀ value, motive (lit value))
    (builtin : ∀ op, motive (builtin op)) (fn : ∀ body, motive body → motive (fn body))
    (app : ∀ terms, (∀ t ∈ terms, motive t) → motive (app terms)) (t : Nameless) : motive t :=
  Nameless.rec (motive_2 := fun terms => ∀ t ∈ terms, motive t) bound free lit builtin fn app
    (by simp) (fun t terms ht hterms => by simpa using ⟨ht, hterms⟩) t

def application (head : Nameless) : List Nameless → Nameless
  | [] => head
  | args => app (head :: args)

/-- The renaming below one more function. -/
def under (ρ : Nat → Nat) : Nat → Nat
  | 0 => 0
  | i + 1 => ρ i + 1

mutual

def rename (ρ : Nat → Nat) : Nameless → Nameless
  | bound i => bound (ρ i)
  | free x => free x
  | lit n => lit n
  | builtin op => builtin op
  | fn b => fn (rename (under ρ) b)
  | app ts => app (renameAll ρ ts)

def renameAll (ρ : Nat → Nat) : List Nameless → List Nameless
  | [] => []
  | t :: ts => rename ρ t :: renameAll ρ ts

end

/-- The substitution below one more function. -/
def lift (σ : Nat → Nameless) : Nat → Nameless
  | 0 => bound 0
  | i + 1 => (σ i).rename Nat.succ

mutual

def subst (σ : Nat → Nameless) : Nameless → Nameless
  | bound i => σ i
  | free x => free x
  | lit n => lit n
  | builtin op => builtin op
  | fn b => fn (subst (lift σ) b)
  | app ts => app (substAll σ ts)

def substAll (σ : Nat → Nameless) : List Nameless → List Nameless
  | [] => []
  | t :: ts => subst σ t :: substAll σ ts

end

/-- The body of a function with the argument in place of its parameter. -/
def instantiate (body arg : Nameless) : Nameless :=
  body.subst fun
    | 0 => arg
    | i + 1 => bound i

mutual

/-- Replaces free names by terms in which no variable is bound from outside, so none is captured. -/
def replace (value : String → Option Nameless) : Nameless → Nameless
  | bound i => bound i
  | free x => (value x).getD (free x)
  | lit n => lit n
  | builtin op => builtin op
  | fn b => fn (replace value b)
  | app ts => app (replaceAll value ts)

def replaceAll (value : String → Option Nameless) : List Nameless → List Nameless
  | [] => []
  | t :: ts => replace value t :: replaceAll value ts

end

theorem renameAll_eq_map (ρ : Nat → Nat) (ts : List Nameless) :
    renameAll ρ ts = ts.map (rename ρ) := by
  induction ts with
  | nil => rfl
  | cons t ts ih => simp [renameAll, ih]

theorem substAll_eq_map (σ : Nat → Nameless) (ts : List Nameless) :
    substAll σ ts = ts.map (subst σ) := by
  induction ts with
  | nil => rfl
  | cons t ts ih => simp [substAll, ih]

theorem replaceAll_eq_map (value : String → Option Nameless) (ts : List Nameless) :
    replaceAll value ts = ts.map (replace value) := by
  induction ts with
  | nil => rfl
  | cons t ts ih => simp [replaceAll, ih]

end Nameless

namespace Term

mutual

/-- The nameless form of a term below functions with the given parameters, innermost first. -/
def nameless (binders : List String) : Term → Nameless
  | var x =>
      match binders.idxOf? x with
      | some i => .bound i
      | none => .free x
  | lit n => .lit n
  | builtin op => .builtin op
  | fn p b => .fn (nameless (p :: binders) b)
  | app ts => .app (namelessAll binders ts)

def namelessAll (binders : List String) : List Term → List Nameless
  | [] => []
  | t :: ts => nameless binders t :: namelessAll binders ts

end

theorem namelessAll_eq_map (binders : List String) (ts : List Term) :
    namelessAll binders ts = ts.map (nameless binders) := by
  induction ts with
  | nil => rfl
  | cons t ts ih => simp [namelessAll, ih]

end Term
end LambdaInt
