import LambdaInt.Builtin

/-!
What can go wrong while a term is evaluated.
-/

namespace LambdaInt

inductive RuntimeError
  | undefinedVariable (name : String)
  | appliedLiteral
  | builtinMisuse (op : Builtin)
  | integerOverflow (op : Builtin)
  | depthExceeded
  deriving DecidableEq

def RuntimeError.message : RuntimeError → String
  | undefinedVariable name => "undefined variable " ++ name
  | appliedLiteral => "can't apply an atom"
  | builtinMisuse .plus => "+ takes two or more integers"
  | builtinMisuse .increment => "1+ takes only one integer"
  | integerOverflow op => "integer overflow in " ++ op.name
  | depthExceeded => "maximum recursion depth exceeded"

end LambdaInt
