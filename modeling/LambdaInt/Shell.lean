import LambdaInt.Session
import LambdaInt.Text.Backspace
import LambdaInt.Text.Blank

/-!
The shell: a session in which lines come one at a time and each is replied to at once. Lines that
begin with a colon are commands to the shell and never reach the session.
-/

namespace LambdaInt.Shell

inductive Command
  | quit
  | showBindings
  | unknown (line : String)
  deriving DecidableEq

/-- The command that a line is, if it is one. -/
def Command.ofLine? (line : String) : Option Command :=
  match line.toList with
  | ':' :: _ =>
      if line = ":q" ∨ line = ":quit" then some .quit
      else if line = ":env" then some .showBindings
      else some (.unknown line)
  | _ => none

/-- The definitions of a session, a line each, in the order of their names. -/
def bindingsText (session : Session) : String :=
  match session.globalBindings with
  | [] => "(no bindings)"
  | entries => "\n".intercalate (entries.map fun (name, value) => name ++ " = " ++ value.render)

/-- What becomes of a line: nothing, the end of the shell, or a reply and the session after it. -/
inductive Step
  | skip
  | quit
  | reply (text : String) (session : Session)

/-- The step for a line, which is trimmed first. -/
def step (session : Session) (line : String) : Step :=
  let line := Text.trim line
  if line = "" then .skip
  else
    match Command.ofLine? line with
    | some .quit => .quit
    | some .showBindings => .reply (bindingsText session) session
    | some (.unknown command) => .reply ("Unknown command " ++ command) session
    | none =>
        let (answer, session) := session.runLine line
        .reply answer.shown session

/-- Why there is no line in some bytes of the input: they are no text, or a backspace takes a
character apart. -/
inductive LineFault
  | notUtf8
  | tornCharacter
  deriving DecidableEq

/-- The line that the bytes before a line feed make up. -/
def readLine (bytes : ByteArray) : Except LineFault String :=
  match String.fromUTF8? bytes with
  | none => .error .notUtf8
  | some line =>
      match Text.applyBackspaces line with
      | none => .error .tornCharacter
      | some line => .ok line

/-- The lines of an input of bytes, each read by itself. -/
def readLines (input : ByteArray) : List (Except LineFault String) :=
  (input.toList.splitOn 10).map fun bytes => readLine ⟨bytes.toArray⟩

/-- How a shell came to its end: its input was over or it was told to quit, or it could not read a
line. -/
inductive Ending
  | left
  | broken (fault : LineFault)
  deriving DecidableEq

/-- The replies to the lines of an input. -/
def replies (session : Session) : List (Except LineFault String) → List String × Ending
  | [] => ([], .left)
  | .error fault :: _ => ([], .broken fault)
  | .ok line :: rest =>
      match step session line with
      | .skip => replies session rest
      | .quit => ([], .left)
      | .reply text session =>
          let (texts, ending) := replies session rest
          (text :: texts, ending)

/-- A reply as it is printed, with an empty line after it. -/
def block (reply : String) : String :=
  reply ++ "\n\n"

def Ending.text : Ending → String
  | left => "\n\nSee you soon!\n"
  | broken .notUtf8 => "Shell error: stream did not contain valid UTF-8\n"
  | broken .tornCharacter => ""

def Ending.exitCode : Ending → Nat
  | left => 0
  | broken .notUtf8 => 1
  | broken .tornCharacter => 101

/-- Everything that a shell with a new session prints on the input, and how it ends. -/
def run (maxDepth : Nat) (input : List (Except LineFault String)) : String × Ending :=
  let (texts, ending) := replies (.start maxDepth) input
  (String.join (texts.map block) ++ ending.text, ending)

/-- What the shell shows when it waits for a line from a terminal. -/
def prompt : String :=
  " λ > "

end LambdaInt.Shell
