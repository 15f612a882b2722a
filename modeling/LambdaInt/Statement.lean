import LambdaInt.Term.Render

/-!
Statements: what one line of input asks for, and its text.
-/

namespace LambdaInt

inductive Statement
  | define (name : String) (definition : Term)
  | evaluate (term : Term)
  deriving DecidableEq

namespace Statement

/-- The term that the statement has evaluated, whether or not it is then given a name. -/
def term : Statement → Term
  | define _ definition => definition
  | evaluate term => term

def render : Statement → String
  | define name definition => "let " ++ name ++ " = " ++ definition.render
  | evaluate term => term.render

end Statement
end LambdaInt
