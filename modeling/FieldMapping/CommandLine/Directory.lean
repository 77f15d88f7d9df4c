import FieldMapping.Check

/-!
# Directories

A path leads from a directory to a file, name by name. A path that begins with a slash starts at the
topmost directory, any other one at the working directory. A dot stays where it is, two dots lead to
the directory above, and any other name has to be there; where slashes meet, or one ends the path,
nothing is named, and the path stays where it is. Only directories can be gone through: behind a
file a path has to end, even a slash is too much there.

`Directory.readFile` says what is read at a path, or why nothing is.
-/

namespace FieldMapping.CommandLine

/-- The files below a directory, by the names that lead from there to each of them. -/
abbrev FileList := List (List String × ByteArray)

/-- The files below the entry of a directory with a given name. A file with that very name is listed
with no names left. -/
def FileList.below (files : FileList) (name : String) : FileList :=
  files.filterMap fun (names, bytes) =>
    match names with
    | [] => none
    | first :: rest => if first = name then some (rest, bytes) else none

/-- A directory. -/
structure Directory where
  files : FileList
  /-- The directories around it, the nearest first. The topmost directory is around itself. -/
  around : List FileList := []

/-- What a path leads to. -/
inductive Place where
  | directory (d : Directory)
  | file (bytes : ByteArray)

/-- The size in bytes that no name exceeds. -/
def maxNameSize : Nat := 255

/-- The size in bytes that every path stays below. -/
def maxPathSize : Nat := 4096

namespace Directory

/-- The directory above. -/
def parent (d : Directory) : Directory :=
  match d.around with
  | [] => d
  | files :: around => ⟨files, around⟩

/-- Where a name leads from a directory. -/
def enter (d : Directory) (name : String) : Except ReadError Place :=
  if name = "" ∨ name = "." then .ok (.directory d)
  else if name = ".." then .ok (.directory d.parent)
  else if maxNameSize < name.utf8ByteSize then .error .nameTooLong
  else
    let files := d.files.below name
    match files.find? (·.1.isEmpty) with
    | some (_, bytes) => .ok (.file bytes)
    | none =>
      if files.isEmpty then .error .missing else .ok (.directory ⟨files, d.files :: d.around⟩)

end Directory

/-- Where names lead from a place, one after the other. -/
def Place.follow : Place → List String → Except ReadError Place
  | p, [] => .ok p
  | .file _, _ :: _ => .error .notDirectory
  | .directory d, name :: names => (d.enter name).bind (·.follow names)

namespace Directory

/-- The topmost directory. Below it are the device files of every system, one that is always empty
and one that holds the standard input. -/
def root (standardInput : ByteArray) : Directory where
  files := [(["dev", "null"], ByteArray.empty), (["dev", "stdin"], standardInput)]

/-- A working directory with the given files, each under its path from there. Nothing is known of
what else there is in the directories around it. -/
def ofFiles (files : List (String × String)) : Directory where
  files := files.map fun (path, text) => (path.splitOn "/", text.toUTF8)
  around := [[]]

/-- The bytes of the file at a path, for a topmost and a working directory. -/
def readFile (top working : Directory) (path : String) : Except ReadError ByteArray :=
  if path = "" then .error .missing
  else if maxPathSize ≤ path.utf8ByteSize then .error .nameTooLong
  else
    let start := if path.startsWith "/" then top else working
    match (Place.directory start).follow (path.splitOn "/") with
    | .ok (.file bytes) => .ok bytes
    | .ok (.directory _) => .error .directory
    | .error e => .error e

end Directory

end FieldMapping.CommandLine
