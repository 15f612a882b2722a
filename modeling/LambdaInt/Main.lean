import LambdaInt.CommandLine

/-!
The program itself: it reads files and lines, prints, and leaves with an exit code. What it prints
is decided elsewhere.
-/

namespace LambdaInt

def readFile (path : String) : IO (Except CommandLine.FileError ByteArray) := do
  try
    return .ok (← IO.FS.readBinFile path)
  catch
    | .noFileOrDirectory .. => return .error .notFound
    | .inappropriateType _ 21 _ => return .error .isDirectory
    | error => return .error (.other (toString error))

/-- The bytes up to the next line feed, or nothing at the end of the input. -/
partial def readBytes (input : IO.FS.Stream) (line : ByteArray) : IO (Option ByteArray) := do
  let next ← input.read 1
  match next.toList with
  | [] => return if line.isEmpty then none else some line
  | byte :: _ => if byte = 10 then return some line else readBytes input (line.push byte)

def leave (output : IO.FS.Stream) (ending : Shell.Ending) : IO UInt32 := do
  output.putStr ending.text
  output.flush
  return ending.exitCode.toUInt32

/-- Runs the shell line by line, so that each reply is printed before the next line is read. -/
partial def interact (input output : IO.FS.Stream) (session : Session) : IO UInt32 := do
  if ← input.isTty then
    output.putStr Shell.prompt
    output.flush
  match ← readBytes input .empty with
  | none => leave output .left
  | some bytes =>
      match Shell.readLine bytes with
      | .error fault => leave output (.broken fault)
      | .ok line =>
          match Shell.step session line with
          | .skip => interact input output session
          | .quit => leave output .left
          | .reply text session =>
              output.putStr (Shell.block text)
              output.flush
              interact input output session

def execute (output : IO.FS.Stream) (request : CommandLine.Request) : IO UInt32 := do
  match request with
  | .version => output.putStr CommandLine.versionText
  | .help => output.putStr CommandLine.usageText
  | .run options =>
      let maxDepth := options.maxDepth.getD Depth.default
      match options.sourcePath with
      | none => return ← interact (← IO.getStdin) output (.start maxDepth)
      | some path =>
          let outcome := CommandLine.runFile maxDepth (← readFile path)
          output.putStr outcome.stdout
          output.flush
          return outcome.exitCode.toUInt32
  return 0

end LambdaInt

def main (args : List String) : IO UInt32 := do
  match LambdaInt.CommandLine.request? args with
  | some request => LambdaInt.execute (← IO.getStdout) request
  | none =>
      IO.eprintln "error: wrong arguments; --help tells how to call the program"
      return 2
