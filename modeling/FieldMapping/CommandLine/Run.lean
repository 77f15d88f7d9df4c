import FieldMapping.CommandLine.Host
import FieldMapping.CommandLine.Invocation

/-!
# Running the program

`run` does what the arguments ask for and gives what the program writes and its exit code: zero for
an answer, one for a failure and two for arguments that ask for nothing the program does. The answer
goes to the standard output; the log and the wording of a failure go to the standard error.

Some texts are not the program's own. How an event of the log is written, what is said for help and
what about arguments that cannot be followed is a `Wording`, which a run is given. Neither the exit
code nor what a command answers depends on it.
-/

namespace FieldMapping.CommandLine

/-- What a run of the program leaves behind. -/
structure Output where
  code : UInt32
  stdout : String := ""
  stderr : String := ""
  deriving DecidableEq

/-- The program's name and version. -/
def versionText : String := "simpleql 0.1.0\n"

/-- What the program can be asked to do, in short. -/
def usageText : String :=
  "Usage: simpleql [-v]... check [SOURCE] [-f PATH] [-p] [--syntax-only] [--max-depth N]\n" ++
    "       simpleql docs\n" ++
    "       simpleql doc CATEGORY\n" ++
    "       simpleql --version\n"

/-- The texts that a run is given. -/
structure Wording where
  /-- The text for an event of the log. -/
  logStyle : LogStyle
  /-- The text on a command, or on the whole program. -/
  help : Option CommandName → String
  /-- The text on arguments that ask for nothing the program does. -/
  usage : List String → String

/-- A log without the time, and one text on everything else. -/
def Wording.plain : Wording where
  logStyle := .plain
  help _ := usageText
  usage _ := usageText

namespace Output

/-- The output for an answer, behind the log. -/
def answer (log text : String) : Output :=
  ⟨0, text, log⟩

/-- The output for a failure, behind the log. -/
def failure (log : String) (f : Failure) : Output :=
  ⟨1, "", log ++ f.message ++ "\n"⟩

/-- The output for a usage error. -/
def usage (text : String) : Output :=
  ⟨2, "", text⟩

/-- The output for the result of a command, given how its answer is written. -/
def ofResult {α : Type} (log : String) (write : α → String) : Except Failure α → Output
  | .ok a => answer log (write a)
  | .error f => failure log f

end Output

/-- A report as the program writes it. -/
def reportText : CheckReport → String
  | .count statements => "Syntax is valid (" ++ toString statements ++ " statements)\n"
  | .json text => text ++ "\n"

/-- The output of a check of a text, if there is one. -/
def checkOutput (style : LogStyle) (verbosity : Verbosity) (options : CheckOptions)
    (source : Except Failure String) : Output :=
  match source with
  | .error f => .failure "" f
  | .ok text =>
    .ofResult (logText style verbosity (options.events text)) reportText (options.check text)

/-- The text in the bytes that were read. There are none behind a terminal. -/
def textOf (bytes : Option (Except ReadError ByteArray)) : Except Failure String :=
  match bytes with
  | some bytes => (bytes.bind decodeText).mapError .unreadable
  | none => .error .noInput

section

variable {m : Type → Type} [Monad m]

/-- The text to check. -/
def Source.read (host : Host m) : Source → m (Except Failure String)
  | .operand text => pure (.ok text)
  | .file path => do return textOf (some (← host.readFile path))
  | .standardInput => do return textOf (← host.standardInput)

/-- Carries out a command. -/
def Command.run (host : Host m) (style : LogStyle) (verbosity : Verbosity) : Command → m Output
  | .check options source => do
    return checkOutput style verbosity options (← source.read host)
  | .overview => pure (.answer "" Guide.overview)
  | .page topic => pure (.ofResult "" id (Guide.page topic))

/-- Does what the arguments ask for. -/
def run (host : Host m) (args : List String) (wording : Wording := .plain) : m Output :=
  match Invocation.ofArgs? args with
  | some .version => pure (.answer "" versionText)
  | some (.help name) => pure (.answer "" (wording.help name))
  | some (.command verbosity c) => c.run host wording.logStyle verbosity
  | none => pure (.usage (wording.usage args))

end

end FieldMapping.CommandLine
