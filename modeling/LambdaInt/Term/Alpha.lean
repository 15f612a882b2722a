import LambdaInt.Term.Basic

/-!
Equality of terms up to the names of their parameters. The comparison goes through both terms at
once with the pairs of parameters that enclose the place reached.
-/

namespace LambdaInt.Term

/-- Whether two names mean the same under pairs of parameters, innermost first: the innermost pair
that binds either name has to bind both, and names that no pair binds have to be equal. -/
def namesAgree : List (String × String) → String → String → Bool
  | [], x, y => x == y
  | (p, q) :: outer, x, y => if x = p ∨ y = q then x = p ∧ y = q else namesAgree outer x y

mutual

def alphaUnder (binders : List (String × String)) : Term → Term → Bool
  | var x, var y => namesAgree binders x y
  | lit m, lit n => m == n
  | builtin f, builtin g => f == g
  | fn p b, fn q c => alphaUnder ((p, q) :: binders) b c
  | app ts, app us => alphaUnderAll binders ts us
  | _, _ => false

def alphaUnderAll (binders : List (String × String)) : List Term → List Term → Bool
  | [], [] => true
  | t :: ts, u :: us => alphaUnder binders t u && alphaUnderAll binders ts us
  | _, _ => false

end

/-- The two terms differ at most in the names of their parameters. -/
def alphaEquivalent (t u : Term) : Bool :=
  alphaUnder [] t u

end LambdaInt.Term
