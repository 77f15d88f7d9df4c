import FieldMapping.Document
import FieldMapping.Proofs.Text.Trimming

/-!
# Reading one character at a time

A document is read from its start to its end, and no character is looked at before its turn. The
state between two characters (`State`) is the pass over the statements, as in `Walk`, and what is
being read of the statement that has started (`Mode`). `State.next` takes one character,
`State.ending` is what the end of the text leads to, and `read` takes all characters in turn.

The point of it is that a text has a state at every place: what stands before a place matters for
what follows only through the state there (`read_append`).
-/

namespace FieldMapping.Online

open Text

/-! ### What has been read of a statement -/

/-- A type reference as far as its pipeline goes, and the name of the statement it is read for. -/
structure Pipeline where
  statement : String
  type : String
  params : Option (List Param)
  processors : List Processor := []
  deriving DecidableEq

/-- The list that a value is an item of, with the items before it. -/
inductive Items where
  /-- The parameters of a type; the value belongs to `key`. -/
  | params (statement type : String) (before : List Param) (key : String)
  /-- The arguments of the processor `name`. -/
  | args (pipeline : Pipeline) (name : String) (before : List Value)
  deriving DecidableEq

/-- What an atom is read as. -/
inductive Role where
  /-- The name of a statement. -/
  | name
  /-- A field, or the name of a type. -/
  | origin (statement : String)
  /-- The key of a parameter. -/
  | key (statement type : String) (before : List Param)
  /-- A plain value, or the base of an indexed reference. -/
  | plain (items : Items)
  /-- The index of an indexed reference. -/
  | index (items : Items) (base : String)
  /-- The name of a processor. -/
  | processor (pipeline : Pipeline)
  deriving DecidableEq

/-- What is being read. -/
inductive Mode where
  /-- An atom is due; white space in front of it is skipped. -/
  | due (role : Role)
  /-- Within an atom, behind the characters `run` of it. -/
  | atom (role : Role) (run : List Char)
  /-- A value is due; blanks in front of it are skipped, and a quote opens a literal. -/
  | value (items : Items)
  /-- A value is due behind a comma; all white space in front of it is skipped. -/
  | item (items : Items)
  /-- Within a literal, behind its first quote and the characters `body`. -/
  | literal (items : Items) (quote : Char) (body : List Char)
  /-- Behind a value that can only be followed by the end of its item. -/
  | behindValue (items : Items) (v : Value)
  /-- Behind the parenthesis that closes a list. -/
  | behindList (pipeline : Pipeline)
  /-- Behind the end of a statement. -/
  | behind
  deriving DecidableEq

/-- The state of a reader between two characters. -/
structure State where
  /-- The pass over the statements before the one that has started. -/
  walk : Walk
  mode : Mode
  deriving DecidableEq

/-- The state at the start of a document. -/
def start : State :=
  ⟨{}, .due .name⟩

/-- The pipeline with one more processor. -/
def Pipeline.add (p : Pipeline) (processor : Processor) : Pipeline :=
  { p with processors := p.processors ++ [processor] }

/-- The type reference, if the pipeline ends here. -/
def Pipeline.origin (p : Pipeline) : Origin :=
  .type ⟨p.type, p.params, if p.processors = [] then none else some p.processors⟩

/-- What is due when another item follows the value `v`. -/
def Items.more (items : Items) (v : Value) : Mode :=
  match items with
  | .params statement type before key => .due (.key statement type (before ++ [⟨key, some v⟩]))
  | .args pipeline name before => .item (.args pipeline name (before ++ [v]))

/-- What has been read when the list ends behind the value `v`. -/
def Items.close (items : Items) (v : Value) : Pipeline :=
  match items with
  | .params statement type before key =>
    { statement, type, params := some (before ++ [⟨key, some v⟩]) }
  | .args pipeline name before => pipeline.add ⟨name, before ++ [v]⟩

/-! ### Taking a character -/

/-- The character does not fit. -/
def refuse (c : Char) : Except Cause State :=
  .error (.unexpected (Token.ofChar c).display)

/-- An atom starts with `c`, unless `c` is an operator. -/
def startAtom (w : Walk) (role : Role) (c : Char) : Except Cause State :=
  if isOperator c then refuse c else .ok ⟨w, .atom role [c]⟩

/-- A value starts with `c`. -/
def startValue (w : Walk) (items : Items) (c : Char) : Except Cause State :=
  if isQuote c then .ok ⟨w, .literal items c []⟩ else startAtom w (.plain items) c

/-- The innermost block ends. -/
def closeBlock (w : Walk) : Except Cause State :=
  match w.closeBlock? with
  | some w => .ok ⟨w, .behind⟩
  | none => refuse '}'

/-- `c` comes behind a name and an origin. -/
def behindHead (limit : Nat) (w : Walk) (name : String) (origin : Option Origin) (c : Char) :
    Except Cause State :=
  match Token.ofChar c with
  | .operator .openBrace =>
    if w.depth 0 < limit then .ok ⟨w.openBlock name origin, .due .name⟩
    else .error (.tooDeep limit)
  | .operator .closeBrace => closeBlock (w.add name origin true)
  | .operator .comma | .operator .newline => .ok ⟨w.add name origin true, .behind⟩
  | .operator _ => .ok ⟨w.add name origin false, .due .name⟩
  | _ => .ok ⟨w.add name origin false, .atom .name [c]⟩

/-- `c` comes where a processor may follow. -/
def behindPipeline (limit : Nat) (w : Walk) (p : Pipeline) (c : Char) : Except Cause State :=
  match Token.ofChar c with
  | .operator .bar => .ok ⟨w, .due (.processor p)⟩
  | _ => behindHead limit w p.statement (some p.origin) c

/-- `c` comes behind an item. -/
def endItem (w : Walk) (items : Items) (v : Value) (c : Char) : Except Cause State :=
  match Token.ofChar c with
  | .operator .comma => .ok ⟨w, items.more v⟩
  | .operator .closeParen => .ok ⟨w, .behindList (items.close v)⟩
  | _ => refuse c

/-- Whether an atom behind the colon of a statement is a field. -/
def isField (a : String) : Bool :=
  a.toList.head?.any startsField

/-- The operator `c` comes behind the atom `a`. -/
def endAtom (limit : Nat) (w : Walk) (role : Role) (a : String) (c : Char) : Except Cause State :=
  match role with
  | .name =>
    match Token.ofChar c with
    | .operator .colon => .ok ⟨w.visit 0 a, .due (.origin a)⟩
    | _ => behindHead limit (w.visit 0 a) a none c
  | .origin statement =>
    if isField a then behindHead limit w statement (some (.field a)) c
    else match Token.ofChar c with
      | .operator .openParen => .ok ⟨w, .due (.key statement a [])⟩
      | .operator .bar => .ok ⟨w, .due (.processor ⟨statement, a, none, []⟩)⟩
      | token =>
        if token.endsTypeRef then behindHead limit w statement (some (.type ⟨a, none, none⟩)) c
        else refuse c
  | .key statement type before =>
    match Token.ofChar c with
    | .operator .closeParen =>
      .ok ⟨w, .behindList { statement, type, params := some (before ++ [⟨a, none⟩]) }⟩
    | .operator .colon => .ok ⟨w, .value (.params statement type before a)⟩
    | _ => refuse c
  | .plain items =>
    match Token.ofChar c with
    | .operator .openBracket => .ok ⟨w, .due (.index items a)⟩
    | _ => endItem w items (.scalar a) c
  | .index items base =>
    match Token.ofChar c with
    | .operator .closeBracket => .ok ⟨w, .behindValue items (.indexed base a)⟩
    | _ => refuse c
  | .processor p =>
    match Token.ofChar c with
    | .operator .openParen => .ok ⟨w, .value (.args p a [])⟩
    | _ => behindPipeline limit w (p.add ⟨a, []⟩) c

/-- The state behind the character `c`, or why it does not fit. -/
def State.next (limit : Nat) (σ : State) (c : Char) : Except Cause State :=
  let w := σ.walk
  match σ.mode with
  | .due role => if isSpace c then .ok σ else startAtom w role c
  | .atom role run =>
    if isOperator c then endAtom limit w role (String.ofList (trim run)) c
    else .ok ⟨w, .atom role (run ++ [c])⟩
  | .value items =>
    if isBlank c then .ok σ
    else if c = '\n' then .ok ⟨w, .due (.plain items)⟩
    else startValue w items c
  | .item items => if isSpace c then .ok σ else startValue w items c
  | .literal items quote body =>
    if c = quote then
      .ok ⟨w, .behindValue items (.scalar (String.ofList (quote :: body ++ [quote])))⟩
    else .ok ⟨w, .literal items quote (body ++ [c])⟩
  | .behindValue items v => if isBlank c then .ok σ else endItem w items v c
  | .behindList p => if isBlank c then .ok σ else behindPipeline limit w p c
  | .behind =>
    if Walk.isSeparating c then .ok σ
    else if c = '}' then closeBlock w
    else startAtom w .name c

section Next

variable {limit : Nat} {w : Walk} {role : Role} {items : Items} {run : List Char} {c q : Char}

/-- White space in front of an atom is skipped. -/
theorem next_due_space (hc : isSpace c = true) :
    State.next limit ⟨w, .due role⟩ c = .ok ⟨w, .due role⟩ :=
  if_pos hc

/-- Any other character starts the atom, or is refused. -/
theorem next_due (hc : isSpace c = false) :
    State.next limit ⟨w, .due role⟩ c = startAtom w role c :=
  if_neg (by simp [hc])

/-- An operator ends the atom, which is what has been read of it without the white space at its
ends. -/
theorem next_atom_operator (hc : isOperator c = true) :
    State.next limit ⟨w, .atom role run⟩ c = endAtom limit w role (String.ofList (trim run)) c :=
  if_pos hc

/-- Every other character belongs to the atom, white space included. -/
theorem next_atom (hc : isOperator c = false) :
    State.next limit ⟨w, .atom role run⟩ c = .ok ⟨w, .atom role (run ++ [c])⟩ :=
  if_neg (by simp [hc])

/-- White space behind a comma is skipped. -/
theorem next_item_space (hc : isSpace c = true) :
    State.next limit ⟨w, .item items⟩ c = .ok ⟨w, .item items⟩ :=
  if_pos hc

/-- The first character behind a value that is no blank ends its item, or is refused. -/
theorem next_behindValue {v : Value} (hc : isBlank c = false) :
    State.next limit ⟨w, .behindValue items v⟩ c = endItem w items v c :=
  if_neg (by simp [hc])

/-- The first character behind a list that is no blank may start a pipeline. -/
theorem next_behindList {p : Pipeline} (hc : isBlank c = false) :
    State.next limit ⟨w, .behindList p⟩ c = behindPipeline limit w p c :=
  if_neg (by simp [hc])

/-- Between two statements separators are skipped, and white space with them. -/
theorem next_behind_separating (hc : Walk.isSeparating c = true) :
    State.next limit ⟨w, .behind⟩ c = .ok ⟨w, .behind⟩ :=
  if_pos hc

/-- A brace between two statements closes the block around them. -/
theorem next_behind_closeBrace : State.next limit ⟨w, .behind⟩ '}' = closeBlock w := rfl

/-- Any other character between two statements starts the next one, or is refused. -/
theorem next_behind (hc : Walk.isSeparating c = false) (hne : c ≠ '}') :
    State.next limit ⟨w, .behind⟩ c = startAtom w .name c := by
  simp [State.next, hc, hne]

/-- The quote that opened a literal closes it. Both are part of its text. -/
theorem next_literal_quote : State.next limit ⟨w, .literal items q run⟩ q =
    .ok ⟨w, .behindValue items (.scalar (String.ofList (q :: run ++ [q])))⟩ :=
  if_pos rfl

/-- Every other character belongs to the literal, operators and line feeds included. -/
theorem next_literal (hc : c ≠ q) :
    State.next limit ⟨w, .literal items q run⟩ c = .ok ⟨w, .literal items q (run ++ [c])⟩ :=
  if_neg hc

end Next

/-! ### The end of the text -/

/-- The complaint about the end of the text. -/
def endFound : Cause :=
  .unexpected Token.endOfInput.display

/-- The text ends between two statements. -/
def finish (w : Walk) : Except Cause (List Statement) :=
  (w.finish 0).result.mapError Fault.cause

/-- A text may end between two statements if no block is open. -/
theorem finish_eq_ok_iff {w : Walk} {ts : List Statement} :
    finish w = .ok ts ↔ w.blocks = [] ∧ ts = w.before.reverse := by
  unfold finish Walk.finish
  cases w.blocks with
  | nil => simp [Except.mapError, eq_comm]
  | cons b outer =>
    -- a block that is open lacks its brace
    simp [Except.mapError]

/-- The text ends behind the atom `a`, which is empty if none has started. -/
def finishAtom (w : Walk) (role : Role) (a : String) : Except Cause (List Statement) :=
  match role with
  | .name => if a = "" then finish w else finish ((w.visit 0 a).add a none false)
  | .origin statement =>
    if a = "" then .error .missingValue
    else if isField a then finish (w.add statement (some (.field a)) false)
    else finish (w.add statement (some (.type ⟨a, none, none⟩)) false)
  | .processor p => finish (w.add p.statement (some (p.add ⟨a, []⟩).origin) false)
  | _ => .error endFound

/-- What the end of the text leads to. -/
def State.ending (σ : State) : Except Cause (List Statement) :=
  let w := σ.walk
  match σ.mode with
  | .due role => finishAtom w role ""
  | .atom role run => finishAtom w role (String.ofList (trim run))
  | .literal _ quote _ => .error (.unclosedQuote quote)
  | .behindList p => finish (w.add p.statement (some p.origin) false)
  | .behind => finish w
  | _ => .error endFound

/-! ### Taking a text -/

/-- The statements of a document, or why it is refused and what is unread at the place. -/
abbrev Result : Type :=
  Except (Cause × List Char) (List Statement)

/-- The unread text at the place of a refusal of `c`, in front of `s`: a block that lies too deep is
refused behind its brace, everything else in front of the character. -/
def place (cause : Cause) (c : Char) (s : List Char) : List Char :=
  match cause with
  | .tooDeep _ => s
  | _ => c :: s

/-- The state behind a text, or why the text does not fit and what is unread at the place. -/
def feed (limit : Nat) (σ : State) : List Char → Except (Cause × List Char) State
  | [] => .ok σ
  | c :: s =>
    match σ.next limit c with
    | .ok σ => feed limit σ s
    | .error cause => .error (cause, place cause c s)

/-- What a document is read as that goes on with `s`. -/
def read (limit : Nat) (σ : State) (s : List Char) : Result :=
  match feed limit σ s with
  | .ok σ => σ.ending.mapError (·, [])
  | .error e => .error e

/-- What a document is read as that goes on with `c` and `s`, where `x` is what `c` leads to. -/
def proceed (limit : Nat) (x : Except Cause State) (c : Char) (s : List Char) : Result :=
  match x with
  | .ok σ => read limit σ s
  | .error cause => .error (cause, place cause c s)

section Taking

variable {limit : Nat} {σ σ' : State} {u v s : List Char} {c : Char} {cause : Cause}

@[simp] theorem feed_nil : feed limit σ [] = .ok σ := rfl

/-- A character that fits leads to the state in which the rest is taken. -/
theorem feed_cons_ok (h : σ.next limit c = .ok σ') : feed limit σ (c :: s) = feed limit σ' s := by
  rw [feed, h]

/-- A character that does not fit ends the reading. -/
theorem feed_cons_error (h : σ.next limit c = .error cause) :
    feed limit σ (c :: s) = .error (cause, place cause c s) := by
  rw [feed, h]

/-- What a text is read as is decided by what its first character leads to. -/
theorem read_cons : read limit σ (c :: s) = proceed limit (σ.next limit c) c s := by
  cases h : σ.next limit c with
  | ok σ' => rw [read, feed_cons_ok h, proceed, read]
  | error cause => rw [read, feed_cons_error h, proceed]

/-- A first character that fits can be taken on its own. -/
theorem read_cons_ok (h : σ.next limit c = .ok σ') : read limit σ (c :: s) = read limit σ' s := by
  rw [read_cons, h, proceed]

/-- A refusal within a text is one within every longer text, in front of more unread text. -/
theorem place_append : place cause c (u ++ v) = place cause c u ++ v := by
  cases cause <;> rfl

/-- A text is taken by taking its parts in turn. -/
theorem feed_append (limit : Nat) (σ : State) (u v : List Char) : feed limit σ (u ++ v) =
    match feed limit σ u with
    | .ok σ' => feed limit σ' v
    | .error (cause, r) => .error (cause, r ++ v) := by
  -- the state changes with every character of `u`, so the induction is over all of them
  induction u generalizing σ with
  | nil => rfl
  | cons c u ih =>
    rw [List.cons_append]
    cases h : σ.next limit c with
    | ok σ' => rw [feed_cons_ok h, feed_cons_ok h, ih]
    | error cause =>
      -- what is unread of the first part stands in front of the second
      rw [feed_cons_error h, feed_cons_error h, place_append]

/-- The state in front of the last character of a text that has been taken. -/
theorem exists_of_feed_concat (h : feed limit σ (u ++ [c]) = .ok σ') :
    ∃ σ₀, feed limit σ u = .ok σ₀ ∧ σ₀.next limit c = .ok σ' := by
  rw [feed_append] at h
  cases hu : feed limit σ u with
  | error e =>
    -- nothing is taken behind a refusal
    rw [hu] at h
    cases h
  | ok σ₀ =>
    rw [hu] at h
    dsimp only at h
    cases hc : σ₀.next limit c with
    | error cause =>
      rw [feed_cons_error hc] at h
      cases h
    | ok σ₁ =>
      rw [feed_cons_ok hc, feed_nil] at h
      cases h
      exact ⟨σ₀, rfl, hc⟩

/-- A text is read if all of it is taken and it may end there. -/
theorem read_eq_ok_iff {ts : List Statement} : read limit σ s = .ok ts ↔
    ∃ σ', feed limit σ s = .ok σ' ∧ σ'.ending = .ok ts := by
  rw [read]
  cases feed limit σ s with
  | ok σ' => simp [mapError_eq_ok_iff]
  | error e => simp

/-- What stands before a place matters for what follows only through the state at the place. -/
theorem read_append (limit : Nat) (σ : State) (u v : List Char) : read limit σ (u ++ v) =
    match feed limit σ u with
    | .ok σ' => read limit σ' v
    | .error (cause, r) => .error (cause, r ++ v) := by
  rw [read, feed_append]
  cases feed limit σ u with
  | ok σ' => rfl
  | error e => rfl

/-- What is unread at the place of a refusal is the end of the text. -/
theorem suffix_of_feed {r : List Char} (h : feed limit σ s = .error (cause, r)) : r <:+ s := by
  induction s generalizing σ with
  | nil => cases h
  | cons c s ih =>
    cases hc : σ.next limit c with
    | ok σ' =>
      rw [feed_cons_ok hc] at h
      exact (ih h).trans (List.suffix_cons c s)
    | error cause' =>
      rw [feed_cons_error hc] at h
      cases h
      -- behind the character or in front of it
      cases cause with
      | tooDeep limit => exact List.suffix_cons c s
      | _ => exact List.suffix_rfl

/-- What is unread at the place of any refusal is the end of the text. At its very end, nothing is
unread. -/
theorem suffix_of_read {r : List Char} (h : read limit σ s = .error (cause, r)) : r <:+ s := by
  rw [read] at h
  cases hs : feed limit σ s with
  | ok σ' =>
    rw [hs] at h
    obtain ⟨cause', -, hr⟩ := mapError_eq_error_iff.1 h
    cases hr
    exact List.nil_suffix
  | error e =>
    rw [hs] at h
    cases h
    exact suffix_of_feed hs

/-- Characters that leave a state as it is can be left out. -/
theorem feed_of_stays (h : ∀ c ∈ u, σ.next limit c = .ok σ) : feed limit σ u = .ok σ := by
  induction u with
  | nil => rfl
  | cons c u ih =>
    rw [feed_cons_ok (h c (List.mem_cons_self ..))]
    exact ih fun d hd => h d (List.mem_cons_of_mem c hd)

/-- Reading goes on behind such characters as if they were not there. -/
theorem read_of_stays (h : ∀ c ∈ u, σ.next limit c = .ok σ) :
    read limit σ (u ++ v) = read limit σ v := by
  rw [read_append, feed_of_stays h]

end Taking

/-! ### Blanks -/

/-- Whether a character may belong to an atom or a literal that has started. -/
def Mode.isWithin : Mode → Bool
  | .atom _ _ | .literal _ _ _ => true
  | _ => false

/-- Blanks between two things change nothing. -/
theorem next_of_isBlank {limit : Nat} {w : Walk} {m : Mode} {c : Char} (hm : m.isWithin = false)
    (hc : isBlank c = true) : State.next limit ⟨w, m⟩ c = .ok ⟨w, m⟩ := by
  have hspace : isSpace c = true := isSpace_of_isBlank hc
  -- blanks matter only within an atom or a literal
  cases m with
  | due role => exact if_pos hspace
  | atom role run => cases hm
  | value items => exact if_pos hc
  | item items => exact if_pos hspace
  | literal items quote body => cases hm
  | behindValue items v => exact if_pos hc
  | behindList p => exact if_pos hc
  | behind => exact if_pos (by simp [Walk.isSeparating, hspace])

end FieldMapping.Online
