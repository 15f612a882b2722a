/-!
What can be wrong with a line before it is evaluated. Each cause holds the texts that its message
names.
-/

namespace LambdaInt

/-- What a rule of the grammar was waiting for. -/
inductive Expectation
  | expression
  | parameter
  | dot
  | body (param : String)
  | definedName
  | equals (name : String)
  | definition (name : String)
  deriving DecidableEq

def Expectation.text : Expectation → String
  | expression => "expression"
  | parameter => "variable after λ"
  | dot => "dot"
  | body param => "body for λ" ++ param
  | definedName => "variable after let"
  | equals name => "equal sign after `" ++ name ++ "'"
  | definition name => "definition for variable `" ++ name ++ "'"

inductive SyntaxError
  | unexpectedClosingParen
  | missingClosingParen
  | emptyGroup
  | unexpectedToken (text : String)
  | expected (what : Expectation) (found : Option String)
  | invalidInteger (text : String)
  deriving DecidableEq

def SyntaxError.message : SyntaxError → String
  | unexpectedClosingParen => "Unexpected )"
  | missingClosingParen => "Missing )"
  | emptyGroup => "Parenthesis group nothing"
  | unexpectedToken text => "Unexpected token " ++ text
  | expected what none => "Expected " ++ what.text ++ "."
  | expected what (some found) => "Expected " ++ what.text ++ ". Instead got " ++ found
  | invalidInteger text => "Invalid integer literal " ++ text

end LambdaInt
