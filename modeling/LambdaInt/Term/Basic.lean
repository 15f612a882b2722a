import LambdaInt.Builtin

/-!
Terms of the λ-calculus with integers and builtins. Variables and parameters are named, and an
application holds its function and all the arguments given to it in one list. Terms nest through
that list, so structural induction is stated here once with a hypothesis for every member.
-/

namespace LambdaInt

inductive Term
  | var (name : String)
  | lit (value : Int64)
  | builtin (op : Builtin)
  | fn (param : String) (body : Term)
  | app (terms : List Term)

namespace Term

@[elab_as_elim, induction_eliminator]
theorem induct {motive : Term → Prop} (var : ∀ name, motive (var name))
    (lit : ∀ value, motive (lit value)) (builtin : ∀ op, motive (builtin op))
    (fn : ∀ param body, motive body → motive (fn param body))
    (app : ∀ terms, (∀ t ∈ terms, motive t) → motive (app terms)) (t : Term) : motive t :=
  Term.rec (motive_2 := fun terms => ∀ t ∈ terms, motive t) var lit builtin fn app
    (by simp) (fun t terms ht hterms => by simpa using ⟨ht, hterms⟩) t

mutual

def same : Term → Term → Bool
  | var x, var y => x == y
  | lit m, lit n => m == n
  | builtin f, builtin g => f == g
  | fn p b, fn q c => p == q && same b c
  | app ts, app us => sameAll ts us
  | _, _ => false

def sameAll : List Term → List Term → Bool
  | [], [] => true
  | t :: ts, u :: us => same t u && sameAll ts us
  | _, _ => false

end

theorem sameAll_eq_true_iff {ts : List Term}
    (h : ∀ t ∈ ts, ∀ u, same t u = true ↔ t = u) (us : List Term) :
    sameAll ts us = true ↔ ts = us := by
  induction ts generalizing us with
  | nil => cases us <;> simp [sameAll]
  | cons t ts ih =>
      cases us with
      | nil => simp [sameAll]
      | cons u us =>
          simp [sameAll, h t (by simp), ih fun t ht => h t (by simp [ht])]

theorem same_eq_true_iff (t u : Term) : same t u = true ↔ t = u := by
  induction t generalizing u with
  | var _ | lit _ | builtin _ => cases u <;> simp [same]
  | fn p b ih => cases u <;> simp [same, ih]
  | app ts ih =>
      cases u with
      | app us => simp [same, sameAll_eq_true_iff ih]
      | _ => simp [same]

instance : DecidableEq Term := fun t u => decidable_of_iff _ (same_eq_true_iff t u)

/-- The application of a head to arguments; without arguments it is the head itself. -/
def application (head : Term) : List Term → Term
  | [] => head
  | args => app (head :: args)

/-- Functions and applications are compound: inside an application they need parentheses. -/
def isCompound : Term → Bool
  | fn _ _ | app _ => true
  | _ => false

/-- The integers that the terms are, if all of them are literals. -/
def literals? : List Term → Option (List Int64)
  | [] => some []
  | lit n :: ts => (literals? ts).map (n :: ·)
  | _ :: _ => none

end Term
end LambdaInt
