import LambdaInt.Numeral
import LambdaInt.Program
import LambdaInt.Shell

/-!
The command line: the options, how arguments spell them, and what the program prints on them.
Arguments are read from left to right, and the first that settles the matter wins: a mistake, or
a request for the version or the usage.
-/

namespace LambdaInt.CommandLine

/-- What has been asked for so far; each option may be given once. -/
structure Options where
  sourcePath : Option String
  maxDepth : Option Nat
  verbose : Bool
  deriving DecidableEq

def Options.initial : Options :=
  ⟨none, none, false⟩

/-- The options that take a value. -/
inductive Setting
  | sourcePath
  | maxDepth
  deriving DecidableEq

/-- The options that stand alone. -/
inductive Switch
  | verbose
  | version
  | help
  deriving DecidableEq

def Setting.letter : Setting → Char
  | sourcePath => 's'
  | maxDepth => 'm'

def Setting.word : Setting → String
  | sourcePath => "src-filepath"
  | maxDepth => "max-depth"

def Switch.letter : Switch → Char
  | verbose => 'v'
  | version => 'V'
  | help => 'h'

def Switch.word : Switch → String
  | verbose => "verbose"
  | version => "version"
  | help => "help"

/-- Every option. -/
def table : List (Setting ⊕ Switch) :=
  [.inl .sourcePath, .inl .maxDepth, .inr .verbose, .inr .version, .inr .help]

def ofLetter? (c : Char) : Option (Setting ⊕ Switch) :=
  table.find? fun option => option.elim Setting.letter Switch.letter == c

def ofWord? (word : String) : Option (Setting ⊕ Switch) :=
  table.find? fun option => option.elim Setting.word Switch.word == word

/-- What a command line asks for. -/
inductive Request
  | run (options : Options)
  | version
  | help
  deriving DecidableEq

namespace Options

/-- Gives an option its value, unless it has one or cannot have this one. -/
def assign? (options : Options) (setting : Setting) (value : String) : Option Options :=
  match setting with
  | .sourcePath =>
      if options.sourcePath.isNone then some { options with sourcePath := some value } else none
  | .maxDepth =>
      if options.maxDepth.isNone then
        (Numeral.word64? value).map fun depth => { options with maxDepth := some depth }
      else none

end Options

/-- Where the reading of an argument leads: on to the next, to an option that still needs its
value, to a request, or to a refusal. -/
inductive Reading
  | options (options : Options)
  | awaiting (setting : Setting) (options : Options)
  | request (request : Request)
  | refused

def Reading.ofOption : Option Options → Reading
  | some result => options result
  | none => refused

def Options.switch (options : Options) : Switch → Reading
  | .verbose => if options.verbose then .refused else .options { options with verbose := true }
  | .version => .request .version
  | .help => .request .help

/-- Reads the letters after a single hyphen. The rest after an option with a value is the value,
without one equals sign in front; if there is no rest, the value is the next argument. -/
def readLetters (options : Options) : List Char → Reading
  | [] => .options options
  | c :: rest =>
      match ofLetter? c with
      | none => .refused
      | some (.inl setting) =>
          match rest with
          | [] => .awaiting setting options
          | '=' :: value => .ofOption (options.assign? setting (String.ofList value))
          | value => .ofOption (options.assign? setting (String.ofList value))
      | some (.inr switch) =>
          match options.switch switch with
          | .options options => readLetters options rest
          | other => other

/-- Reads what follows two hyphens: a word, and perhaps a value after an equals sign. -/
def readWord (options : Options) (cs : List Char) : Reading :=
  let word := String.ofList (cs.takeWhile (· ≠ '='))
  match ofWord? word, cs.dropWhile (· ≠ '=') with
  | some (.inl setting), [] => .awaiting setting options
  | some (.inl setting), _ :: value => .ofOption (options.assign? setting (String.ofList value))
  | some (.inr switch), [] => options.switch switch
  | _, _ => .refused

/-- Whether an argument may be the value of the option before it. A hyphen followed by anything
begins an option. -/
def isValue (arg : String) : Bool :=
  match arg.toList with
  | '-' :: _ :: _ => false
  | _ => true

/-- Reads an argument that is no value. -/
def readOption (options : Options) (arg : String) : Reading :=
  match arg.toList with
  | '-' :: '-' :: cs => readWord options cs
  | '-' :: c :: cs => readLetters options (c :: cs)
  | _ => .refused

/-- Reads the remaining arguments, of which the first may be the value that a setting is waiting
for; `none` is a refusal. There are no arguments besides options and their values, so nothing may
follow two hyphens alone. -/
def read? : Option Setting → Options → List String → Option Request
  | none, options, [] => some (.run options)
  | some _, _, [] => none
  | some setting, options, value :: rest =>
      if isValue value then
        match options.assign? setting value with
        | some options => read? none options rest
        | none => none
      else none
  | none, options, arg :: rest =>
      if arg = "--" then
        if rest = [] then some (.run options) else none
      else
        match readOption options arg with
        | .options options => read? none options rest
        | .awaiting setting options => read? (some setting) options rest
        | .request request => some request
        | .refused => none

def request? (args : List String) : Option Request :=
  read? none .initial args

def versionText : String :=
  "lambda-calc-repl 0.1.0\n"

def usageText : String :=
  "Usage: lambda-calc-repl [OPTIONS]\n\n" ++
  "Options:\n" ++
  "  -s, --src-filepath <SRC_FILEPATH>  Evaluate every line of this file instead of starting the shell\n" ++
  "  -m, --max-depth <MAX_DEPTH>        How deep substitution may recurse before giving up on a term [default: 1000]\n" ++
  "  -v, --verbose                      Log parsing and reduction steps\n" ++
  "  -h, --help                         Print help\n" ++
  "  -V, --version                      Print version\n"

/-- Why the file of a program cannot be had. -/
inductive FileError
  | notFound
  | isDirectory
  | notUtf8
  | other (reason : String)
  deriving DecidableEq

def FileError.message : FileError → String
  | notFound => "No such file or directory (os error 2)"
  | isDirectory => "Is a directory (os error 21)"
  | notUtf8 => "stream did not contain valid UTF-8"
  | other reason => reason

/-- The end of a run of the program: its exit code and what it printed. -/
structure Outcome where
  exitCode : Nat
  stdout : String
  deriving DecidableEq

/-- The text of a file of bytes. -/
def decode (bytes : ByteArray) : Except FileError String :=
  match String.fromUTF8? bytes with
  | some text => .ok text
  | none => .error .notUtf8

/-- Runs the program of a file, or says why it cannot be read. -/
def runFile (maxDepth : Nat) (content : Except FileError ByteArray) : Outcome :=
  match content.bind decode with
  | .ok text => ⟨0, Program.output maxDepth text⟩
  | .error cause => ⟨1, "Input file error: " ++ cause.message ++ "\n"⟩

def runShell (maxDepth : Nat) (input : ByteArray) : Outcome :=
  let (text, ending) := Shell.run maxDepth (Shell.readLines input)
  ⟨ending.exitCode, text⟩

/-- What the program does on its arguments, the files that there are and its input. -/
def run (args : List String) (file : String → Except FileError ByteArray) (input : ByteArray) :
    Outcome :=
  match request? args with
  | none => ⟨2, ""⟩
  | some .version => ⟨0, versionText⟩
  | some .help => ⟨0, usageText⟩
  | some (.run options) =>
      let maxDepth := options.maxDepth.getD Depth.default
      match options.sourcePath with
      | some path => runFile maxDepth (file path)
      | none => runShell maxDepth input

end LambdaInt.CommandLine
