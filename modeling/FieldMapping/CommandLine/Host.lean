import FieldMapping.CommandLine.Directory

/-!
# Hosts

The program takes its input from a `Host`, which has a standard input and files. A standard input
that is a terminal gives nothing, and is not waited for. The host of the running program acts in
`IO`; `Host.ofFiles` is a host that is a value, for a working directory of known files, whose
standard input is no terminal.
-/

namespace FieldMapping.CommandLine

/-- The text whose UTF-8 form is `bytes`. -/
def decodeText (bytes : ByteArray) : Except ReadError String :=
  match String.fromUTF8? bytes with
  | some text => .ok text
  | none => .error .notUtf8

/-- Where the program takes its input from. -/
structure Host (m : Type → Type) where
  /-- All of the standard input, unless that is a terminal. -/
  standardInput : m (Option (Except ReadError ByteArray))
  /-- All of the file at a path. -/
  readFile : String → m (Except ReadError ByteArray)

/-- The host with the given standard input, whose working directory holds the given files. -/
def Host.ofFiles (standardInput : ByteArray) (files : List (String × String)) : Host Id where
  standardInput := some (.ok standardInput)
  readFile path := Directory.readFile (.root standardInput) (.ofFiles files) path

end FieldMapping.CommandLine
