import FieldMapping.Check
import FieldMapping.CommandLine.Item

/-!
# Invocations

What the program is asked to do: to say its version, to give help, to check a text, or to show the
guide or a page of it. `Invocation.ofArgs?` reads that off the arguments; arguments that ask for
nothing the program does are a usage error.

The verbose flag may stand before or behind the word that names the command; where it stands behind,
only those behind count. The help flag may stand there too, and nothing behind it is looked at. All
other flags and settings belong to `check`, and none may be repeated.
-/

namespace FieldMapping.CommandLine

/-- Where the text to check comes from. -/
inductive Source where
  /-- The text is an operand. -/
  | operand (text : String)
  /-- The text is in a file. -/
  | file (path : String)
  /-- The text is the standard input. -/
  | standardInput
  deriving DecidableEq, Repr

/-- The names of what the program can be asked for. -/
inductive CommandName where
  | check
  | docs
  | doc
  | help
  deriving DecidableEq, Repr

/-- The command that a word names. -/
def CommandName.ofWord? (word : String) : Option CommandName :=
  if word = "check" then some .check
  else if word = "docs" then some .docs
  else if word = "doc" then some .doc
  else if word = "help" then some .help
  else none

/-- What the program does. -/
inductive Command where
  | check (options : CheckOptions) (source : Source)
  | overview
  | page (topic : String)
  deriving DecidableEq, Repr

/-- What the program is asked to do. -/
inductive Invocation where
  | version
  /-- Help on a command, or on the whole program. -/
  | help (name : Option CommandName)
  | command (verbosity : Verbosity) (c : Command)
  deriving DecidableEq, Repr

/-! ### Limits -/

/-- The greatest limit on the nesting of blocks that can be asked for, the greatest number of
sixty-four bits. -/
def maxLimit : Nat := 18446744073709551615

/-- The number that a non-empty row of decimal digits stands for. -/
def ofDigits? (s : List Char) : Option Nat :=
  if s ≠ [] ∧ s.all Char.isDigit then
    some (s.foldl (fun n c => 10 * n + (c.toNat - '0'.toNat)) 0)
  else none

/-- The limit that a text stands for: decimal digits, which a plus sign may precede. -/
def limitOfText? (text : String) : Option Nat := do
  let n ← match text.toList with
    | '+' :: digits => ofDigits? digits
    | digits => ofDigits? digits
  if n ≤ maxLimit then some n else none

/-! ### Commands -/

/-- The arguments of `check`, as far as they have been read. -/
structure CheckArgs where
  verbose : Nat := 0
  pretty : Bool := false
  syntaxOnly : Bool := false
  file : Option String := none
  limit : Option Nat := none
  source : Option String := none
  deriving DecidableEq, Repr

namespace CheckArgs

/-- Takes one more item, unless it is out of place. -/
def add? (a : CheckArgs) : Item → Option CheckArgs
  | .flag .verbose => some { a with verbose := a.verbose + 1 }
  | .flag .pretty => if a.pretty then none else some { a with pretty := true }
  | .flag .syntaxOnly => if a.syntaxOnly then none else some { a with syntaxOnly := true }
  | .setting .file path =>
    if a.file.isSome || path.isEmpty then none else some { a with file := some path }
  | .setting .maxDepth text => do
    let n ← limitOfText? text
    if a.limit.isSome then none else some { a with limit := some n }
  | .operand text => if a.source.isSome then none else some { a with source := some text }
  | .endOfOptions => some a
  | .flag .version | .flag .help | .invalid => none

/-- Where the text comes from. An operand and a file exclude each other. -/
def textSource? (a : CheckArgs) : Option Source :=
  match a.source, a.file with
  | some text, none => some (.operand text)
  | none, some path => some (.file path)
  | none, none => some .standardInput
  | some _, some _ => none

/-- What `check` is to report. -/
def options (a : CheckArgs) : CheckOptions where
  pretty := a.pretty
  countOnly := a.syntaxOnly
  limit := a.limit

end CheckArgs

/-- The verbose flags and the operands among items that hold nothing else. -/
def operands? : List Item → Option (Nat × List String)
  | [] => some (0, [])
  | item :: rest => do
    let (verbose, texts) ← operands? rest
    match item with
    | .flag .verbose => some (verbose + 1, texts)
    | .operand text => some (verbose, text :: texts)
    | .endOfOptions => some (verbose, texts)
    | _ => none

/-- The command with a name and the items behind it, and how many of those are verbose flags. Help is
no command. -/
def Command.ofItems? (name : CommandName) (rest : List Item) : Option (Command × Nat) :=
  match name with
  | .check => do
    let a ← rest.foldlM CheckArgs.add? {}
    let source ← a.textSource?
    some (.check a.options source, a.verbose)
  | .docs =>
    match operands? rest with
    | some (verbose, []) => some (.overview, verbose)
    | _ => none
  | .doc =>
    match operands? rest with
    | some (verbose, [topic]) => some (.page topic, verbose)
    | _ => none
  | .help => none

/-- Whether the items behind the name of a command are in place, as far as they go. -/
def CommandName.takes (name : CommandName) (items : List Item) : Bool :=
  match name with
  | .check => (items.foldlM CheckArgs.add? {}).isSome
  | .docs => (operands? items).any (·.2.isEmpty)
  | .doc => (operands? items).any (·.2.length ≤ 1)
  | .help => false

namespace Invocation

/-- The invocation that the name of a command asks for, behind `verbose` verbose flags and in front
of the items `rest`. -/
def ofCommand? (verbose : Nat) (name : CommandName) (rest : List Item) : Option Invocation :=
  if name = .help then
    match rest with
    | [] => some (.help none)
    | [.operand word] => (CommandName.ofWord? word).map (.help ∘ some)
    | _ => none
  else if .flag .help ∈ rest then
    -- what is missing in front of the flag is not missed
    if name.takes (rest.takeWhile (· ≠ .flag .help)) then some (.help name) else none
  else do
    let (c, verboseBehind) ← Command.ofItems? name rest
    let count := if verboseBehind = 0 then verbose else verboseBehind
    some (.command (.ofCount count) c)

/-- The invocation that items behind `verbose` verbose flags ask for. -/
def ofItems? (verbose : Nat) : List Item → Option Invocation
  | .flag .verbose :: rest => ofItems? (verbose + 1) rest
  | .flag .version :: _ => some .version
  | .flag .help :: _ => some (.help none)
  | .operand word :: rest => do ofCommand? verbose (← CommandName.ofWord? word) rest
  | _ => none

/-- The invocation that the arguments ask for. -/
def ofArgs? (args : List String) : Option Invocation :=
  ofItems? 0 (items args)

end Invocation

end FieldMapping.CommandLine
