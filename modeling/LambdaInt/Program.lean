import LambdaInt.Session
import LambdaInt.Text.Blank

/-!
Programs: texts of many lines, run in one session.
-/

namespace LambdaInt.Program

/-- The lines of a program: trimmed, and without those in which nothing is left. -/
def lines (text : String) : List String :=
  ((Text.lines text).map Text.trim).filter fun line => line != ""

/-- Runs a program in a session. -/
def run (session : Session) (text : String) : List Answer × Session :=
  session.runLines (lines text)

/-- What a program prints in a new session: the answers, each on a line of its own. -/
def output (maxDepth : Nat) (text : String) : String :=
  "\n".intercalate ((run (.start maxDepth) text).1.map Answer.shown) ++ "\n"

end LambdaInt.Program
