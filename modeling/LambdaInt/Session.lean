import LambdaInt.Depth
import LambdaInt.Parser
import LambdaInt.Reduction

/-!
Sessions: the definitions made so far and the depth allowed. A line is read as a statement and
evaluated under the definitions; only a definition whose term has a value changes the session.
-/

namespace LambdaInt

/-- A line fails before it is evaluated or while it is. -/
inductive LineError
  | malformed (cause : SyntaxError)
  | failed (cause : RuntimeError)
  deriving DecidableEq

def LineError.message : LineError → String
  | malformed cause => "SyntaxError: " ++ cause.message
  | failed cause => "RuntimeError: " ++ cause.message

/-- What a line is answered with: the value of its term, or what went wrong. -/
abbrev Answer := Except LineError Term

/-- The answer as it is shown to the user. -/
def Answer.shown : Answer → String
  | .ok value => "=> " ++ value.render
  | .error cause => "*** " ++ cause.message

structure Session where
  bindings : Frame
  maxDepth : Nat

namespace Session

/-- A session without definitions. -/
def start (maxDepth : Nat) : Session :=
  ⟨.empty, maxDepth⟩

/-- The names that are defined, each with its value, in the order of the names. -/
def globalBindings (session : Session) : List (String × Term) :=
  session.bindings.names.filterMap fun name =>
    (session.bindings.find? name).map fun value => (name, value)

theorem globalBindings_eq (session : Session) : session.globalBindings = session.bindings.entries :=
  session.bindings.filterMap_names

/-- Evaluates the term of a statement, and keeps its value if the statement names it. -/
def evaluate (session : Session) (statement : Statement) : Except RuntimeError Term × Session :=
  match statement.term.reduce session.maxDepth [] (.root session.bindings) with
  | .error cause => (.error cause, session)
  | .ok value =>
      match statement with
      | .define name _ => (.ok value, { session with bindings := session.bindings.set name value })
      | .evaluate _ => (.ok value, session)

def runLine (session : Session) (line : String) : Answer × Session :=
  match Statement.ofText line with
  | .error cause => (.error (.malformed cause), session)
  | .ok statement =>
      let (result, session) := session.evaluate statement
      (result.mapError .failed, session)

/-- Runs the lines one after the other, each in the session that the one before it left. -/
def runLines (session : Session) : List String → List Answer × Session
  | [] => ([], session)
  | line :: lines =>
      let (answer, session) := session.runLine line
      let (answers, session) := session.runLines lines
      (answer :: answers, session)

theorem runLines_append (session : Session) (ls ms : List String) :
    session.runLines (ls ++ ms) =
      ((session.runLines ls).1 ++ ((session.runLines ls).2.runLines ms).1,
        ((session.runLines ls).2.runLines ms).2) := by
  induction ls generalizing session with
  | nil => rfl
  | cons l ls ih => simp only [List.cons_append, runLines, ih]

end Session
end LambdaInt
