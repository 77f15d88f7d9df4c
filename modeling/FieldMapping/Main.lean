import FieldMapping.CommandLine.Run

/-!
# The program

The command line program: `CommandLine.run` with the standard input and the files of the system.
-/

namespace FieldMapping

open CommandLine

/-- Whether the system means the error with a number. It gives the number or its negation. -/
def isSystemError (number given : UInt32) : Bool :=
  given = number || given = 0 - number

/-- Why a file could not be read, from the error of the system. -/
def readErrorOfSystem : IO.Error → ReadError
  | .noFileOrDirectory .. => .missing
  | .inappropriateType _ code _ => if isSystemError 20 code then .notDirectory else .directory
  | .permissionDenied .. => .other "Permission denied (os error 13)"
  | e@(.invalidArgument _ code _) =>
    if isSystemError 36 code then .nameTooLong else .other (toString e)
  | e => .other (toString e)

/-- All bytes that are left in a stream. -/
partial def readToEnd (stream : IO.FS.Stream) (bytes : ByteArray) : IO ByteArray := do
  let chunk ← stream.read 65536
  if chunk.isEmpty then return bytes else readToEnd stream (bytes ++ chunk)

/-- An action of the system, with its error as a value. -/
def attempt (action : IO ByteArray) : IO (Except ReadError ByteArray) := do
  match ← action.toBaseIO with
  | .ok bytes => return .ok bytes
  | .error e => return .error (readErrorOfSystem e)

/-- The host of the running program. -/
def systemHost : Host IO where
  standardInput := do
    let stdin ← IO.getStdin
    if ← stdin.isTty then return none else some <$> attempt (readToEnd stdin ByteArray.empty)
  readFile path := attempt (IO.FS.readBinFile path)

end FieldMapping

open FieldMapping in
/-- Runs the program on its arguments. -/
def main (args : List String) : IO UInt32 := do
  let output ← CommandLine.run systemHost args
  (← IO.getStderr).putStr output.stderr
  (← IO.getStdout).putStr output.stdout
  return output.code
