import FieldMapping.CommandLine.Run
import FieldMapping.Proofs.Check.Modes

/-!
# Routes to a check

A text gets to a check on one of three routes: as the operand behind `--`, in a file that an option
names, or as the standard input (`LeadsTo`). What a run leaves behind is the same on every route,
and the verbose flags change nothing of it but the log (`AsksFor.run_agree`). That the text is taken
from a file or from the standard input can have other effects, which the run has once
(`AsksFor.run_eq`). A standard input that is a terminal holds no text, and the run says so
(`AsksFor.run_of_terminal`).

Of the command line, this takes that the arguments are cut one after the other
(`Item.ofArgs_append`): what stands in front of `--` or of the word `check` is cut as if nothing
followed it, and the text behind `--` is not cut at all, whatever it looks like. No choice of
options is out of reach (`asksFor_spell`).
-/

namespace FieldMapping.CommandLine

/-! ### Cutting arguments -/

namespace Item

/-- An argument is one more item or several of them, unless it cuts off what follows. -/
theorem ofArgs_cons_cases (pending : Option Setting) (arg : String) :
    (∀ args, ofArgs pending (arg :: args) = [.invalid]) ∨
    (∀ args, ofArgs pending (arg :: args) = .endOfOptions :: args.map .operand) ∨
      ∃ cut : Cut, ∀ args, ofArgs pending (arg :: args) = cut.items ++ ofArgs cut.pending args := by
  cases pending with
  | some s =>
    by_cases hvalue : isValue arg = true
    · exact .inr (.inr ⟨⟨[.setting s arg], none⟩, fun args => if_pos hvalue⟩)
    · exact .inl fun args => if_neg hvalue
  | none =>
    simp only [ofArgs]
    split
    · exact .inr (.inl fun args => rfl)
    · exact .inr (.inr ⟨ofLong _, fun args => rfl⟩)
    · exact .inr (.inr ⟨ofLetters _, fun args => rfl⟩)
    · exact .inr (.inr ⟨⟨[.operand arg], none⟩, fun args => rfl⟩)

/-- What follows arguments does not matter for how they are cut, unless it is cut off. -/
theorem ofArgs_append {pending : Option Setting} {args rest : List String}
    (hinvalid : .invalid ∉ ofArgs pending args) (hend : .endOfOptions ∉ ofArgs pending args) :
    ofArgs pending (args ++ rest) = ofArgs pending args ++ ofArgs none rest := by
  -- the setting that is pending changes with every argument
  induction args generalizing pending with
  | nil =>
    cases pending with
    | none => rfl
    | some s => exact absurd (List.mem_singleton_self _) hinvalid
  | cons arg args ih =>
    rcases ofArgs_cons_cases pending arg with h | h | ⟨cut, h⟩
    · rw [h] at hinvalid
      exact absurd (List.mem_singleton_self _) hinvalid
    · rw [h] at hend
      exact absurd (List.mem_cons_self ..) hend
    · rw [h, List.mem_append, not_or] at hinvalid hend
      rw [List.cons_append, h, h, ih hinvalid.2 hend.2, List.append_assoc]

end Item

/-- What follows arguments does not matter for how they are read, unless it is cut off. -/
theorem items_append {args rest : List String} (hinvalid : .invalid ∉ items args)
    (hend : .endOfOptions ∉ items args) : items (args ++ rest) = items args ++ items rest :=
  Item.ofArgs_append hinvalid hend

/-- What the arguments of `check` ask for. -/
def CheckArgs.ofArgs? (args : List String) : Option CheckArgs :=
  (items args).foldlM add? {}

/-- An item that is always out of place is not among the arguments of a check that is made. -/
theorem CheckArgs.not_mem_of_add?_eq_none {a b : CheckArgs} {item : Item} {l : List Item}
    (hitem : ∀ a, add? a item = none) (h : l.foldlM add? a = some b) : item ∉ l := by
  induction l generalizing a with
  | nil => exact List.not_mem_nil
  | cons first l ih =>
    rw [List.foldlM_cons, Option.bind_eq_bind, Option.bind_eq_some_iff] at h
    obtain ⟨a', ha', h⟩ := h
    rw [List.mem_cons, not_or]
    refine ⟨?_, ih h⟩
    -- the first item would be out of place
    rintro rfl
    exact nomatch (hitem a).symm.trans ha'

/-- Where a check is made, no argument is invalid. -/
theorem CheckArgs.invalid_not_mem {a b : CheckArgs} {l : List Item}
    (h : l.foldlM add? a = some b) : .invalid ∉ l :=
  not_mem_of_add?_eq_none (fun _ => rfl) h

/-- Where a check is made, no help is asked for. -/
theorem CheckArgs.help_not_mem {a b : CheckArgs} {l : List Item}
    (h : l.foldlM add? a = some b) : .flag .help ∉ l :=
  not_mem_of_add?_eq_none (fun _ => rfl) h

/-- The argument behind `--` is the text to check, if none has been given. -/
theorem CheckArgs.ofArgs?_operand {opts : List String} {a : CheckArgs} {s : String}
    (h : ofArgs? opts = some a) (hend : .endOfOptions ∉ items opts) (hsource : a.source = none) :
    ofArgs? (opts ++ ["--", s]) = some { a with source := some s } := by
  have htail : items ["--", s] = [.endOfOptions, .operand s] := items_endOfOptions [s]
  unfold ofArgs? at h
  rw [ofArgs?, items_append (invalid_not_mem h) hend, List.foldlM_append, h, htail]
  simp [add?, hsource]

/-- The verbose flags in front of the word for the command are counted. -/
theorem Invocation.ofItems?_replicate (n k : Nat) (l : List Item) :
    ofItems? n (List.replicate k (.flag .verbose) ++ l) = ofItems? (n + k) l := by
  induction k generalizing n with
  | zero => rfl
  | succ k ih =>
    rw [List.replicate_succ, List.cons_append, ofItems?, ih, Nat.add_assoc, Nat.add_comm 1]

/-- A command line that asks for a check: the verbose flags behind the word `check` count, or those
in front of it if there are none. -/
theorem Invocation.ofArgs?_check {before args : List String} {k : Nat} {a : CheckArgs}
    {source : Source} (hbefore : items before = List.replicate k (.flag .verbose))
    (hargs : CheckArgs.ofArgs? args = some a) (hsource : a.textSource? = some source) :
    ofArgs? (before ++ "check" :: args) = some (.command
      (.ofCount (if a.verbose = 0 then k else a.verbose)) (.check a.options source)) := by
  -- verbose flags cut nothing off, so that the word `check` is cut as an operand
  have hword : items ("check" :: args) = .operand "check" :: items args := rfl
  have hinvalid : .invalid ∉ items before := by
    rw [hbefore]
    exact fun h => nomatch List.eq_of_mem_replicate h
  have hend : .endOfOptions ∉ items before := by
    rw [hbefore]
    exact fun h => nomatch List.eq_of_mem_replicate h
  have hhelp : .flag .help ∉ items args := CheckArgs.help_not_mem hargs
  have hname : CommandName.ofWord? "check" = some .check := rfl
  have hcommand : Command.ofItems? .check (items args) =
      some (.check a.options source, a.verbose) := by
    unfold CheckArgs.ofArgs? at hargs
    simp [Command.ofItems?, hargs, hsource]
  rw [ofArgs?, items_append hinvalid hend, hbefore, hword, ofItems?_replicate, Nat.zero_add,
    ofItems?, hname]
  show ofCommand? k .check (items args) = _
  unfold ofCommand?
  rw [if_neg (by decide), if_neg hhelp, hcommand]
  rfl

/-- The UTF-8 form of a text is decoded to the text. -/
theorem decodeText_toUTF8 (s : String) : decodeText s.toUTF8 = .ok s := by
  have h : String.fromUTF8? s.toUTF8 = some s := dif_pos s.isValidUTF8
  rw [decodeText, h]

/-! ### Routes -/

/-- The arguments behind the word `check` are options, which ask for what `a` says, with a text that
comes from `source`. -/
inductive LeadsTo (a : CheckArgs) : List String → Source → Prop
  /-- The text is the operand behind `--`. -/
  | operand {opts : List String} (s : String) (hopts : CheckArgs.ofArgs? opts = some a)
      (hend : .endOfOptions ∉ items opts) (hsource : a.source = none) (hfile : a.file = none) :
      LeadsTo a (opts ++ ["--", s]) (.operand s)
  /-- The text is in a file that is named by an option. -/
  | file {opts : List String} {path : String} (hopts : CheckArgs.ofArgs? opts = some a)
      (hsource : a.source = none) (hfile : a.file = some path) : LeadsTo a opts (.file path)
  /-- The text is the standard input. -/
  | standardInput {opts : List String} (hopts : CheckArgs.ofArgs? opts = some a)
      (hsource : a.source = none) (hfile : a.file = none) : LeadsTo a opts .standardInput

/-- The command line asks for a check with the given options of a text from `source`, and `n` of its
verbose flags count. -/
def AsksFor (options : CheckOptions) (n : Nat) (line : List String) (source : Source) : Prop :=
  ∃ before args k a, line = before ++ "check" :: args ∧
    items before = List.replicate k (.flag .verbose) ∧ LeadsTo a args source ∧
    a.options = options ∧ n = if a.verbose = 0 then k else a.verbose

section Routes

variable {a : CheckArgs} {options : CheckOptions} {args line line' : List String}
  {source source' : Source} {n n' : Nat} {s : String}

/-- On every route there is one source, and the options are those in front of it. -/
theorem LeadsTo.exists_ofArgs? (h : LeadsTo a args source) : ∃ a',
    CheckArgs.ofArgs? args = some a' ∧ a'.textSource? = some source ∧
      a'.options = a.options ∧ a'.verbose = a.verbose := by
  cases h with
  | operand s hopts hend hsource hfile =>
    refine ⟨{ a with source := some s }, ?_, ?_, rfl, rfl⟩
    · exact CheckArgs.ofArgs?_operand hopts hend hsource
    · simp [CheckArgs.textSource?, hfile]
  | file hopts hsource hfile =>
    refine ⟨a, hopts, ?_, rfl, rfl⟩
    simp [CheckArgs.textSource?, hsource, hfile]
  | standardInput hopts hsource hfile =>
    refine ⟨a, hopts, ?_, rfl, rfl⟩
    simp [CheckArgs.textSource?, hsource, hfile]

/-- A command line that asks for a check is read as this check, of this source. -/
theorem AsksFor.ofArgs?_eq (h : AsksFor options n line source) :
    Invocation.ofArgs? line = some (.command (.ofCount n) (.check options source)) := by
  obtain ⟨before, args, k, a, rfl, hbefore, hleads, rfl, rfl⟩ := h
  -- an operand is the text only, and no part of the options
  obtain ⟨a', hargs, hsource, hoptions, hverbose⟩ := hleads.exists_ofArgs?
  rw [Invocation.ofArgs?_check hbefore hargs hsource, hoptions, hverbose]

/-! ### Spelling options -/

/-- Arguments of `check` for the given options and `n` verbose flags. -/
def spell (options : CheckOptions) (n : Nat) : List String :=
  List.replicate n "-v" ++ ((if options.pretty then ["--pretty"] else []) ++
    ((if options.countOnly then ["--syntax-only"] else []) ++
      options.limit.elim [] fun limit => ["--max-depth", toString limit]))

/-- A number is written in digits. -/
theorem isDigit_of_mem_toString {n : Nat} {c : Char} (h : c ∈ (toString n).toList) :
    c.isDigit = true := by
  rw [Nat.toString_eq_ofList_toDigits, String.toList_ofList] at h
  exact Nat.isDigit_of_mem_toDigits (by decide) (by decide) h

/-- A number has no sign. -/
theorem toString_ne_cons {c : Char} (hc : c.isDigit = false) (n : Nat) (s : List Char) :
    (toString n).toList ≠ c :: s := by
  intro h
  have hdigit : c.isDigit = true :=
    isDigit_of_mem_toString (h ▸ List.mem_cons_self ..)
  exact absurd (hc.symm.trans hdigit) Bool.false_ne_true

/-- A number is read off its decimal form. -/
theorem ofDigits?_toString (n : Nat) : ofDigits? (toString n).toList = some n := by
  have hne : (toString n).toList ≠ [] := by
    rw [Nat.toString_eq_ofList_toDigits, String.toList_ofList]
    exact Nat.toDigits_ne_nil
  have hdigits : (toString n).toList.all Char.isDigit = true :=
    List.all_eq_true.2 fun c hc => isDigit_of_mem_toString hc
  rw [ofDigits?, if_pos ⟨hne, hdigits⟩, Nat.toString_eq_ofList_toDigits, String.toList_ofList]
  exact congrArg some (Nat.ofDigitChars_toDigits (by decide) (by decide))

/-- A limit is read off its decimal form. -/
theorem limitOfText?_toString {limit : Nat} (h : limit ≤ maxLimit) :
    limitOfText? (toString limit) = some limit := by
  have hdigits := ofDigits?_toString limit
  rw [limitOfText?]
  split
  · rename_i digits htext
    -- a sign in front of the digits would be taken off, but there is none
    exact absurd htext (toString_ne_cons rfl limit digits)
  · rw [hdigits]
    exact if_pos h

/-- The arguments that spell options are cut into the options they spell. -/
theorem items_spell (options : CheckOptions) (n : Nat) : items (spell options n) =
    List.replicate n (.flag .verbose) ++ ((if options.pretty then [.flag .pretty] else []) ++
      ((if options.countOnly then [.flag .syntaxOnly] else []) ++
        options.limit.elim [] fun limit => [.setting .maxDepth (toString limit)])) := by
  have hlimit : ∀ limit : Nat, items ["--max-depth", toString limit] =
      [.setting .maxDepth (toString limit)] := by
    intro limit
    have hvalue : Item.isValue (toString limit) = true := by
      unfold Item.isValue
      split
      · rename_i c cs htext
        exact absurd htext (toString_ne_cons rfl limit (c :: cs))
      · rfl
    show Item.ofArgs (some .maxDepth) [toString limit] = _
    rw [Item.ofArgs, if_pos hvalue]
    rfl
  have hpretty : ∀ args, items ("--pretty" :: args) = .flag .pretty :: items args :=
    fun _ => rfl
  have hcount : ∀ args, items ("--syntax-only" :: args) = .flag .syntaxOnly :: items args :=
    fun _ => rfl
  have hnil : items [] = [] := rfl
  unfold spell
  -- on the verbose flags, with every choice of the other options behind them
  induction n with
  | zero =>
    obtain ⟨pretty, countOnly, limit⟩ := options
    cases pretty <;> cases countOnly <;> cases limit <;>
      simp [-Nat.toString_eq_repr, hpretty, hcount, hlimit, hnil]
  | succ n ih =>
    rw [List.replicate_succ, List.replicate_succ, List.cons_append, List.cons_append, ← ih]
    rfl

/-- A path behind `--file=` is taken as it is, whatever it looks like. -/
theorem items_file (path : String) : items ["--file=" ++ path] = [.setting .file path] := by
  have htext : ("--file=" ++ path).toList =
      '-' :: '-' :: 'f' :: 'i' :: 'l' :: 'e' :: '=' :: path.toList := by simp
  have hcut : Item.ofLong ('f' :: 'i' :: 'l' :: 'e' :: '=' :: path.toList) =
      ⟨[.setting .file (String.ofList path.toList)], none⟩ := rfl
  rw [items, Item.ofArgs, htext]
  show (Item.ofLong _).items ++ Item.ofArgs (Item.ofLong _).pending [] = _
  rw [hcut, String.ofList_toList]
  rfl

/-- What the arguments of `check` ask for that spell the given options and `n` verbose flags. -/
def CheckArgs.ofOptions (options : CheckOptions) (n : Nat) : CheckArgs where
  verbose := n
  pretty := options.pretty
  syntaxOnly := options.countOnly
  limit := options.limit

/-- The arguments that spell options ask for them, if the limit is one that can be asked for. -/
theorem ofArgs?_spell {options : CheckOptions} (n : Nat)
    (hlimit : ∀ limit ∈ options.limit, limit ≤ maxLimit) :
    CheckArgs.ofArgs? (spell options n) = some (.ofOptions options n) := by
  have hverbose : ∀ k (a : CheckArgs), (List.replicate k (.flag .verbose)).foldlM CheckArgs.add? a =
      some { a with verbose := a.verbose + k } := by
    intro k
    induction k with
    | zero => exact fun _ => rfl
    | succ k ih =>
      intro a
      rw [List.replicate_succ, List.foldlM_cons]
      show (List.replicate k (.flag .verbose)).foldlM CheckArgs.add? _ = _
      rw [ih, Nat.add_assoc, Nat.add_comm 1]
  rw [CheckArgs.ofArgs?, items_spell, List.foldlM_append, hverbose]
  obtain ⟨pretty, countOnly, limit⟩ := options
  cases limit with
  | none => cases pretty <;> cases countOnly <;> simp [CheckArgs.add?, CheckArgs.ofOptions]
  | some limit =>
    have htext := limitOfText?_toString (hlimit limit rfl)
    cases pretty <;> cases countOnly <;>
      simp [-Nat.toString_eq_repr, CheckArgs.add?, CheckArgs.ofOptions, htext]

/-- Every choice of options can be asked for on every route, with every number of verbose flags. -/
theorem asksFor_spell {options : CheckOptions} (n : Nat)
    (hlimit : ∀ limit ∈ options.limit, limit ≤ maxLimit) :
    (∀ s, AsksFor options n ("check" :: (spell options n ++ ["--", s])) (.operand s)) ∧
    (∀ path, path ≠ "" → AsksFor options n
      ("check" :: (spell options n ++ ["--file=" ++ path])) (.file path)) ∧
    AsksFor options n ("check" :: spell options n) .standardInput := by
  have hargs := ofArgs?_spell n hlimit
  have hend : .endOfOptions ∉ items (spell options n) := by
    rw [items_spell]
    obtain ⟨pretty, countOnly, limit⟩ := options
    cases pretty <;> cases countOnly <;> cases limit <;> simp
  have hcount : n = if n = 0 then 0 else n := by
    by_cases hn : n = 0
    · rw [if_pos hn, hn]
    · rw [if_neg hn]
  refine ⟨fun s => ?_, fun path hpath => ?_, ?_⟩
  · exact ⟨[], _, 0, _, rfl, rfl, .operand s hargs hend rfl rfl, rfl, hcount⟩
  · have hfile : CheckArgs.ofArgs? (spell options n ++ ["--file=" ++ path]) =
        some { CheckArgs.ofOptions options n with file := some path } := by
      unfold CheckArgs.ofArgs? at hargs
      rw [CheckArgs.ofArgs?, items_append (CheckArgs.invalid_not_mem hargs) hend,
        List.foldlM_append, hargs, items_file]
      simp [CheckArgs.add?, CheckArgs.ofOptions, hpath]
    exact ⟨[], _, 0, _, rfl, rfl, .file hfile rfl rfl, rfl, hcount⟩
  · exact ⟨[], _, 0, _, rfl, rfl, .standardInput hargs rfl rfl, rfl, hcount⟩

/-! ### What a run leaves behind -/

variable {m : Type → Type} [Monad m] {host host' : Host m} {style style' : LogStyle}

/-- The action `x` gives `a`, whatever else it does. -/
def Yields {α : Type} (x : m α) (a : α) : Prop :=
  (fun _ => a) <$> x = x

/-- The text `s` is what `source` holds. -/
def Source.Holds (host : Host m) (s : String) : Source → Prop
  | .operand text => text = s
  | .file path => Yields (host.readFile path) (.ok s.toUTF8)
  | .standardInput => Yields host.standardInput (some (.ok s.toUTF8))

/-- Taking the bytes of a source. -/
def Source.take (host : Host m) : Source → m (Option (Except ReadError ByteArray))
  | .operand text => pure (some (.ok text.toUTF8))
  | .file path => some <$> host.readFile path
  | .standardInput => host.standardInput

/-- What a run leaves behind that checks the text `s` with the given options and `n` verbose flags,
and writes its log in the given style. -/
structure Reports (options : CheckOptions) (s : String) (n : Nat) (style : LogStyle)
    (out : Output) : Prop where
  code : out.code = 0 ∨ out.code = 1
  /-- The answer under `--syntax-only`. -/
  count : out.code = 0 → options.countOnly = true → ∃ ts,
    parse s options.effectiveLimit = .ok ts ∧ options.check s = .ok (.count ts.length) ∧
      out.stdout = "Syntax is valid (" ++ toString ts.length ++ " statements)\n"
  /-- The answer otherwise. -/
  json : out.code = 0 → options.countOnly = false → ∃ text,
    options.check s = .ok (.json text) ∧ out.stdout = text ++ "\n"
  /-- Beside an answer, nothing but the log is written. -/
  stderr : out.code = 0 → out.stderr = logText style (.ofCount n) (options.events s)
  /-- The wording of a failure comes behind the log. -/
  failure : out.code = 1 → out.stdout = "" ∧ ∃ f, options.check s = .error f ∧
    out.stderr = logText style (.ofCount n) (options.events s) ++ f.message ++ "\n"
  /-- Without verbose flags there is no log. -/
  stderr_of_quiet : n = 0 → out.code = 0 → out.stderr = ""
  failure_of_quiet : n = 0 → out.code = 1 → ∃ f, options.check s = .error f ∧
    out.stderr = f.message ++ "\n"

/-- The output of a check of a text is that of its result, behind the log. -/
theorem checkOutput_ok (style : LogStyle) (verbosity : Verbosity) (options : CheckOptions)
    (s : String) : checkOutput style verbosity options (.ok s) =
      .ofResult (logText style verbosity (options.events s)) reportText (options.check s) := rfl

/-- The log shows in the standard error only. -/
theorem Output.code_ofResult {α : Type} (log log' : String) (write : α → String)
    (x : Except Failure α) : (ofResult log write x).code = (ofResult log' write x).code := by
  cases x <;> rfl

/-- Nothing of the log is in the standard output. -/
theorem Output.stdout_ofResult {α : Type} (log log' : String) (write : α → String)
    (x : Except Failure α) : (ofResult log write x).stdout = (ofResult log' write x).stdout := by
  cases x <;> rfl

/-- A check that does not count answers with JSON, on one line or on many. -/
theorem exists_report_eq_json (h : options.countOnly = false) (ts : List Statement) :
    ∃ text, options.report ts = .json text := by
  rw [CheckOptions.report, if_neg (by simp [h])]
  by_cases hpretty : options.pretty = true
  · exact ⟨_, if_pos hpretty⟩
  · exact ⟨_, if_neg hpretty⟩

/-- Without verbose flags, nothing is logged. -/
theorem logText_ofCount_zero (h : n = 0) (events : List LogEvent) :
    logText style (.ofCount n) events = "" := by
  subst h
  exact logText_quiet style events

/-- An answer is reported with the code zero, and the log beside it. -/
theorem reports_answer {report : CheckReport} (hcheck : options.check s = .ok report) :
    Reports options s n style
      (.answer (logText style (.ofCount n) (options.events s)) (reportText report)) := by
  obtain ⟨-, ts, hparse, hreport⟩ := CheckOptions.check_eq_ok_iff.1 hcheck
  have hcode : ∀ log text, (Output.answer log text).code ≠ 1 := by
    intro log text
    show (0 : UInt32) ≠ 1
    decide
  refine { code := .inl rfl, count := ?_, json := ?_, stderr := fun _ => rfl,
           failure := fun h => absurd h (hcode _ _),
           stderr_of_quiet := fun hn _ => logText_ofCount_zero hn _,
           failure_of_quiet := fun _ h => absurd h (hcode _ _) }
  · intro _ hcount
    have hreport' : options.report ts = .count ts.length := if_pos hcount
    obtain rfl : report = .count ts.length := hreport.symm.trans hreport'
    exact ⟨ts, hparse, hcheck, rfl⟩
  · intro _ hcount
    obtain ⟨text, htext⟩ := exists_report_eq_json hcount ts
    obtain rfl : report = .json text := hreport.symm.trans htext
    exact ⟨text, hcheck, rfl⟩

/-- A failure is reported with the code one, behind the log. -/
theorem reports_failure {f : Failure} (hcheck : options.check s = .error f) :
    Reports options s n style (.failure (logText style (.ofCount n) (options.events s)) f) := by
  have hcode : ∀ log, (Output.failure log f).code ≠ 0 := by
    intro log
    show (1 : UInt32) ≠ 0
    decide
  refine { code := .inr rfl, count := fun h => absurd h (hcode _),
           json := fun h => absurd h (hcode _), stderr := fun h => absurd h (hcode _),
           failure := fun _ => ⟨rfl, f, hcheck, rfl⟩,
           stderr_of_quiet := fun _ h => absurd h (hcode _), failure_of_quiet := ?_ }
  intro hn _
  refine ⟨f, hcheck, ?_⟩
  -- without a log, the message stands alone
  rw [logText_ofCount_zero hn, Output.failure, String.empty_append]

/-- Whatever a check of a text returns is reported. -/
theorem reports_checkOutput (style : LogStyle) (options : CheckOptions) (s : String) (n : Nat) :
    Reports options s n style (checkOutput style (.ofCount n) options (.ok s)) := by
  rw [checkOutput_ok]
  cases hcheck : options.check s with
  | ok report => exact reports_answer hcheck
  | error f => exact reports_failure hcheck

/-- How the log is written does not show where it is empty. -/
theorem checkOutput_congr (hstyle : n = 0 ∨ style' = style) (options : CheckOptions)
    (source : Except Failure String) :
    checkOutput style' (.ofCount n) options source =
      checkOutput style (.ofCount n) options source := by
  rcases hstyle with hn | rfl
  · cases source with
    | error f => rfl
    | ok s => rw [checkOutput_ok, checkOutput_ok, logText_ofCount_zero hn, logText_ofCount_zero hn]
  · rfl

variable [LawfulMonad m]

/-- Of an action that gives `a`, nothing else can be made than what is made of `a`. -/
theorem Yields.map_eq {α β : Type} {x : m α} {a : α} (h : Yields x a) (f : α → β) :
    f <$> x = (fun _ => f a) <$> x :=
  calc f <$> x
      = f <$> (fun _ => a) <$> x := by rw [h]
    _ = (fun _ => f a) <$> x := (comp_map ..).symm

/-- What is made of the value of an action is given by the action that makes it. -/
theorem Yields.map {α β : Type} {x : m α} {a : α} (h : Yields x a) (f : α → β) :
    Yields (f <$> x) (f a) :=
  calc (fun _ => f a) <$> f <$> x
      = (fun _ => f a) <$> x := (comp_map ..).symm
    _ = f <$> x := (h.map_eq f).symm

/-- Reading a source that holds `s` gives `s`, and does nothing but to take its bytes. -/
theorem Source.Holds.read_eq (h : source.Holds host s) :
    source.read host = (fun _ => .ok s) <$> source.take host := by
  have htext : textOf (some (.ok s.toUTF8)) = .ok s :=
    congrArg (Except.mapError Failure.unreadable) (decodeText_toUTF8 s)
  -- an operand is not decoded, but might be
  have hread : source.read host = textOf <$> source.take host := by
    cases source with
    | operand text =>
      rw [take, map_pure]
      exact congrArg pure
        (congrArg (Except.mapError Failure.unreadable) (decodeText_toUTF8 text)).symm
    | file path =>
      rw [take, ← comp_map, map_eq_pure_bind]
      rfl
    | standardInput => exact (map_eq_pure_bind ..).symm
  -- the bytes are those of `s`, whatever else happens where they are taken
  have hbytes : Yields (source.take host) (some (.ok s.toUTF8)) := by
    cases source with
    | operand text =>
      obtain rfl : text = s := h
      exact map_pure ..
    | file path => exact Yields.map h some
    | standardInput => exact h
  calc source.read host
      = textOf <$> source.take host := hread
    _ = (fun _ => textOf (some (.ok s.toUTF8))) <$> source.take host := hbytes.map_eq textOf
    _ = (fun _ => .ok s) <$> source.take host := by rw [htext]

/-- A run that is asked for a check goes on with what its source gives, and does nothing before. -/
theorem AsksFor.run_eq_map (h : AsksFor options n line source) (host : Host m)
    (wording : Wording) : run host line wording =
      checkOutput wording.logStyle (.ofCount n) options <$> source.read host := by
  rw [run, h.ofArgs?_eq]
  exact (map_eq_pure_bind ..).symm

/-- A run that is asked for a check takes the bytes of the text once, and gives the output of the
check. -/
theorem AsksFor.run_eq (h : AsksFor options n line source) (hs : source.Holds host s)
    (wording : Wording) : run host line wording =
      (fun _ => checkOutput wording.logStyle (.ofCount n) options (.ok s)) <$>
        source.take host := by
  rw [h.run_eq_map, hs.read_eq, ← comp_map]
  rfl

/-- A terminal is not waited for: where the standard input is one, a run that is asked to check it
fails for lack of input, whatever the options and the verbose flags, and logs nothing. -/
theorem AsksFor.run_of_terminal (h : AsksFor options n line .standardInput)
    (hterminal : Yields host.standardInput none) (wording : Wording) :
    run host line wording = (fun _ => .failure "" .noInput) <$> host.standardInput := by
  have hread : Source.standardInput.read host = textOf <$> host.standardInput :=
    (map_eq_pure_bind ..).symm
  rw [h.run_eq_map, hread, hterminal.map_eq textOf, ← comp_map]
  rfl

/-- What a run leaves behind that checks a text depends on the text, the options and the number of
verbose flags, whatever the route; its code and its standard output do not depend on the flags. The
log is written in the style that the run is given, and is what this style makes of the same events:
where no log is shown, or two runs write it in one style, they leave the same behind. -/
theorem AsksFor.run_agree (h : AsksFor options n line source) (hs : source.Holds host s)
    (h' : AsksFor options n' line' source') (hs' : source'.Holds host' s)
    (wording wording' : Wording) :
    ∃ out out', run host line wording = (fun _ => out) <$> source.take host ∧
      run host' line' wording' = (fun _ => out') <$> source'.take host' ∧
      Reports options s n wording.logStyle out ∧ Reports options s n' wording'.logStyle out' ∧
      out'.code = out.code ∧ out'.stdout = out.stdout ∧
      (n' = n → n = 0 ∨ wording'.logStyle = wording.logStyle → out'.stderr = out.stderr) := by
  refine ⟨_, _, h.run_eq hs wording, h'.run_eq hs' wording', reports_checkOutput _ options s n,
    reports_checkOutput _ options s n', ?_, ?_, ?_⟩
  · rw [checkOutput_ok, checkOutput_ok]
    exact Output.code_ofResult ..
  · rw [checkOutput_ok, checkOutput_ok]
    exact Output.stdout_ofResult ..
  · rintro rfl hstyle
    rw [checkOutput_congr hstyle]

/-- A text that looks like a flag is checked all the same, as an operand and as the standard
input. -/
theorem AsksFor.run_agree_like_flag : ∃ out out',
    run (Host.ofFiles .empty []) ["check", "--pretty", "--", "-v"] = out ∧
      run (Host.ofFiles "-v".toUTF8 []) ["-v", "check", "-vvp"] = out' ∧
      Reports { pretty := true } "-v" 0 .plain out ∧ Reports { pretty := true } "-v" 2 .plain out' ∧
      out'.code = out.code ∧ out'.stdout = out.stdout := by
  have hleads : LeadsTo { pretty := true } (["--pretty"] ++ ["--", "-v"]) (.operand "-v") :=
    .operand "-v" (by decide +kernel) (by decide +kernel) rfl rfl
  have hasks : AsksFor { pretty := true } 0 ["check", "--pretty", "--", "-v"] (.operand "-v") :=
    ⟨[], _, 0, _, rfl, rfl, hleads, rfl, rfl⟩
  have hleads' : LeadsTo { verbose := 2, pretty := true } ["-vvp"] .standardInput :=
    .standardInput (by decide +kernel) rfl rfl
  have hasks' : AsksFor { pretty := true } 2 ["-v", "check", "-vvp"] .standardInput :=
    ⟨["-v"], _, 1, _, rfl, by decide +kernel, hleads', rfl, rfl⟩
  have hs : Source.Holds (Host.ofFiles .empty []) "-v" (.operand "-v") := rfl
  have hs' : Source.Holds (Host.ofFiles "-v".toUTF8 []) "-v" .standardInput := rfl
  obtain ⟨out, out', hrun, hrun', hreports, hreports', hcode, hstdout, -⟩ :=
    hasks.run_agree hs hasks' hs' .plain .plain
  exact ⟨out, out', hrun, hrun', hreports, hreports', hcode, hstdout⟩

end Routes

end FieldMapping.CommandLine
