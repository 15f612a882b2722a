import LambdaInt.Numeral
import LambdaInt.Term.Basic

/-!
The text of a term. The members of an application are separated by single spaces, and those that
are compound stand in parentheses; the body of a function reaches as far as it can.
-/

namespace LambdaInt.Term

/-- The text of a member of an application. -/
def enclose (t : Term) (text : String) : String :=
  if t.isCompound then "(" ++ text ++ ")" else text

mutual

def render : Term → String
  | var x => x
  | lit n => Numeral.render n
  | builtin op => op.name
  | fn p b => "λ" ++ p ++ "." ++ render b
  | app ts => " ".intercalate (renderAll ts)

def renderAll : List Term → List String
  | [] => []
  | t :: ts => enclose t (render t) :: renderAll ts

end

end LambdaInt.Term
