/-!
# Command line items

The arguments of the command line are cut into items: flags, options with their values, and
operands. A short flag or option is a letter behind a hyphen, and letters may be joined behind one
hyphen; a long one is a word behind two. The value of an option is joined to it, by an equals sign
if need be, or is the next argument. What follows `--` is an operand whatever it looks like.

Whether a command accepts an item, or accepts it twice, is not decided here. An argument that is no
item at all gives the item `invalid`.
-/

namespace FieldMapping.CommandLine

/-- An item that stands alone. -/
inductive Flag where
  | verbose
  | version
  | help
  | pretty
  | syntaxOnly
  deriving DecidableEq, Repr

/-- An item that takes a value. -/
inductive Setting where
  | file
  | maxDepth
  deriving DecidableEq, Repr

/-- A part of the command line. -/
inductive Item where
  | flag (f : Flag)
  | setting (s : Setting) (value : String)
  | operand (text : String)
  /-- The argument `--`. -/
  | endOfOptions
  /-- An argument, or a part of one, that is none of these. -/
  | invalid
  deriving DecidableEq, Repr

namespace Item

/-! ### Names -/

/-- The flag or setting with a letter. -/
def ofLetter? : Char → Option (Flag ⊕ Setting)
  | 'v' => some (.inl .verbose)
  | 'V' => some (.inl .version)
  | 'h' => some (.inl .help)
  | 'p' => some (.inl .pretty)
  | 'f' => some (.inr .file)
  | _ => none

/-- The flag or setting with a word. -/
def ofWord? (word : String) : Option (Flag ⊕ Setting) :=
  if word = "verbose" then some (.inl .verbose)
  else if word = "version" then some (.inl .version)
  else if word = "help" then some (.inl .help)
  else if word = "pretty" then some (.inl .pretty)
  else if word = "syntax-only" then some (.inl .syntaxOnly)
  else if word = "file" then some (.inr .file)
  else if word = "max-depth" then some (.inr .maxDepth)
  else none

/-! ### Single arguments -/

/-- The items of one argument, and the setting at its end whose value is the next argument. -/
structure Cut where
  items : List Item
  pending : Option Setting := none
  deriving DecidableEq, Repr

/-- The items of letters joined behind one hyphen. All that follows the letter of a setting is its
value, less an equals sign. -/
def ofLetters : List Char → Cut
  | [] => ⟨[], none⟩
  | c :: cs =>
    match ofLetter? c with
    | none => ⟨[.invalid], none⟩
    | some (.inl f) =>
      let tail := ofLetters cs
      ⟨.flag f :: tail.items, tail.pending⟩
    | some (.inr s) =>
      match cs with
      | [] => ⟨[], some s⟩
      | '=' :: value => ⟨[.setting s (String.ofList value)], none⟩
      | value => ⟨[.setting s (String.ofList value)], none⟩

/-- The items of a word behind two hyphens. A value behind an equals sign is for settings only. -/
def ofLong (text : List Char) : Cut :=
  let word := text.takeWhile (· != '=')
  match ofWord? (String.ofList word), text.drop word.length with
  | some (.inl f), [] => ⟨[.flag f], none⟩
  | some (.inr s), [] => ⟨[], some s⟩
  | some (.inr s), _ :: value => ⟨[.setting s (String.ofList value)], none⟩
  | _, _ => ⟨[.invalid], none⟩

/-- Whether an argument can be the value of the setting before it. -/
def isValue (arg : String) : Bool :=
  match arg.toList with
  | '-' :: _ :: _ => false
  | _ => true

/-! ### All arguments -/

/-- The items of the arguments behind the pending setting `pending`, if there is one. -/
def ofArgs (pending : Option Setting) : List String → List Item
  | [] => if pending.isSome then [.invalid] else []
  | arg :: args =>
    match pending with
    | some s =>
      -- nothing behind a setting that lacks its value matters
      if isValue arg then .setting s arg :: ofArgs none args else [.invalid]
    | none =>
      match arg.toList with
      | ['-', '-'] => .endOfOptions :: args.map .operand
      | '-' :: '-' :: text =>
        let cut := ofLong text
        cut.items ++ ofArgs cut.pending args
      | '-' :: c :: cs =>
        let cut := ofLetters (c :: cs)
        cut.items ++ ofArgs cut.pending args
      | _ => .operand arg :: ofArgs none args

end Item

/-- The items of a command line. -/
def items (args : List String) : List Item :=
  Item.ofArgs none args

/-- Behind `--` every argument is an operand. -/
theorem items_endOfOptions (args : List String) :
    items ("--" :: args) = .endOfOptions :: args.map .operand := rfl

end FieldMapping.CommandLine
