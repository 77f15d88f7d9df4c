import FieldMapping.Reading.Items
import FieldMapping.Reading.Value

/-!
# Reading origins

The origin of a statement is what follows its colon: a source field, or a type reference with its
parameters and its pipeline of processors. The first character decides between the two
(`startsField`), and only a type reference looks for more.
-/

namespace FieldMapping

open Scan

/-! ### Parameters -/

/-- One parameter of a list in parentheses. A key without a value is the last one. -/
def Param.readItem (s : List Char) : Except Fault ((Param × Bool) × List Char) := do
  let (key, r) ← Scan.value s
  match nextToken r with
  | (.operator .closeParen, r) => .ok ((⟨key, none⟩, false), r)
  | (.operator .colon, r) => do
    let (v, r) ← Value.read r
    let (more, r) ← itemEnd r
    .ok ((⟨key, some v⟩, more), r)
  | _ => .error (unexpected r)

/-- A parameter takes something, whether or not another one follows: at least the colon or the
closing parenthesis behind its key. -/
theorem Param.length_readItem_lt {s r : List Char} {p : Param} {more : Bool}
    (h : readItem s = .ok ((p, more), r)) : r.length < s.length := by
  obtain ⟨key, r₁, h₁, h⟩ := Fault.bind_eq_ok_iff.1 h
  have hr₁ := length_value_le h₁
  simp only at h
  split at h
  · rename_i r₂ h₂
    have hr₂ := length_nextToken_lt h₂
    cases h
    omega
  · rename_i r₂ h₂
    have hr₂ := length_nextToken_lt h₂
    obtain ⟨v, r₃, h₃, h⟩ := Fault.bind_eq_ok_iff.1 h
    have hr₃ := Value.length_read_le h₃
    obtain ⟨more', r₄, h₄, h⟩ := Fault.bind_eq_ok_iff.1 h
    have hr₄ : r₄.length < r₃.length := length_itemEnd_lt h₄
    cases h
    show r₄.length < s.length
    omega
  · cases h

/-- Parameters in parentheses. -/
def Param.item : ItemReader Param := ⟨readItem, length_readItem_lt⟩

/-! ### Processors -/

/-- One argument of a list in parentheses. -/
def Processor.readArg (s : List Char) : Except Fault ((Value × Bool) × List Char) := do
  let (v, r) ← Value.read s
  let (more, r) ← itemEnd r
  .ok ((v, more), r)

/-- An argument takes at least the comma or the parenthesis behind its value. -/
theorem Processor.length_readArg_lt {s r : List Char} {v : Value} {more : Bool}
    (h : readArg s = .ok ((v, more), r)) : r.length < s.length := by
  obtain ⟨v', r₁, h₁, h⟩ := Fault.bind_eq_ok_iff.1 h
  have hr₁ := Value.length_read_le h₁
  obtain ⟨more', r₂, h₂, h⟩ := Fault.bind_eq_ok_iff.1 h
  have hr₂ := length_itemEnd_lt h₂
  cases h
  omega

/-- Arguments in parentheses. -/
def Processor.arg : ItemReader Value := ⟨readArg, length_readArg_lt⟩

/-- The argument list behind the name of a processor; without parentheses there are no arguments. -/
def Processor.readArgs (s : List Char) : Except Fault (List Value × List Char) :=
  match nextToken s with
  | (.operator .openParen, r) => arg.readAll r
  | _ => .ok ([], s)

/-- An argument list never lengthens the text; without parentheses nothing is taken. -/
theorem Processor.length_readArgs_le {s r : List Char} {args : List Value}
    (h : readArgs s = .ok (args, r)) : r.length ≤ s.length := by
  unfold readArgs at h
  split at h
  · rename_i r₁ h₁
    have hr₁ := length_nextToken_lt h₁
    have hr := arg.length_readAll_le (fun h => Nat.le_of_lt (length_readArg_lt h)) h
    omega
  · cases h
    exact Nat.le_refl _

/-- One processor of a pipeline. Only at the end of the input is its name empty. -/
def Processor.readItem (s : List Char) : Except Fault ((Processor × Bool) × List Char) := do
  let (name, r) ← value s
  let (args, r) ← readArgs r
  match nextToken r with
  | (.operator .bar, r) => .ok ((⟨name, args⟩, true), r)
  | _ => .ok ((⟨name, args⟩, false), r)

/-- A processor never lengthens the text, and with a bar behind it something is taken. The last one
may take nothing, since a bar at the end of the input is followed by a processor without a name. -/
theorem Processor.length_readItem_le {s r : List Char} {p : Processor} {more : Bool}
    (h : readItem s = .ok ((p, more), r)) :
    r.length ≤ s.length ∧ (more = true → r.length < s.length) := by
  obtain ⟨name, r₁, h₁, h⟩ := Fault.bind_eq_ok_iff.1 h
  have hr₁ := length_value_le h₁
  obtain ⟨args, r₂, h₂, h⟩ := Fault.bind_eq_ok_iff.1 h
  have hr₂ := length_readArgs_le h₂
  simp only at h
  split at h
  · -- another processor follows
    rename_i r₃ h₃
    have hr₃ := length_nextToken_lt h₃
    cases h
    omega
  · cases h
    simp
    omega

/-- The processors of a pipeline. -/
def Processor.item : ItemReader Processor :=
  ⟨readItem, fun h => (length_readItem_le h).2 rfl⟩

/-- The pipeline behind a type reference, if a bar introduces one. -/
def Processor.readPipeline (s : List Char) :
    Except Fault (Option (List Processor) × List Char) :=
  match nextToken s with
  | (.operator .bar, r) => do
    let (ps, r) ← item.readAll r
    .ok (some ps, r)
  | _ => .ok (none, s)

/-- A pipeline never lengthens the text; without a bar nothing is taken. -/
theorem Processor.length_readPipeline_le {s r : List Char} {ps : Option (List Processor)}
    (h : readPipeline s = .ok (ps, r)) : r.length ≤ s.length := by
  unfold readPipeline at h
  split at h
  · rename_i r₁ h₁
    have hr₁ := length_nextToken_lt h₁
    obtain ⟨ps', r₂, h₂, h⟩ := Fault.bind_eq_ok_iff.1 h
    have hr₂ := item.length_readAll_le (fun h => (length_readItem_le h).1) h₂
    cases h
    omega
  · cases h
    exact Nat.le_refl _

/-! ### Origins -/

/-- Whether a token may follow a type reference. -/
def Token.endsTypeRef : Token → Bool
  | .operator .openBrace | .operator .closeBrace | .operator .comma | .operator .newline => true
  | .endOfInput => true
  | _ => false

/-- What follows the name of a provider type: parameters, processors, both or neither. -/
def TypeRef.readAfter (name : String) (s : List Char) : Except Fault (TypeRef × List Char) :=
  match nextToken s with
  | (.operator .openParen, r) => do
    let (params, r) ← Param.item.readAll r
    let (processors, r) ← Processor.readPipeline r
    .ok (⟨name, some params, processors⟩, r)
  | (.operator .bar, _) => do
    let (processors, r) ← Processor.readPipeline s
    .ok (⟨name, none, processors⟩, r)
  | (token, _) =>
    if token.endsTypeRef then .ok (⟨name, none, none⟩, s) else .error (unexpected s)

/-- What follows the name of a provider type never lengthens the text. -/
theorem TypeRef.length_readAfter_le {name : String} {s r : List Char} {ref : TypeRef}
    (h : readAfter name s = .ok (ref, r)) : r.length ≤ s.length := by
  unfold readAfter at h
  split at h
  · rename_i r₁ h₁
    have hr₁ := length_nextToken_lt h₁
    obtain ⟨params, r₂, h₂, h⟩ := Fault.bind_eq_ok_iff.1 h
    have hr₂ := Param.item.length_readAll_le
      (fun h => Nat.le_of_lt (Param.length_readItem_lt h)) h₂
    obtain ⟨processors, r₃, h₃, h⟩ := Fault.bind_eq_ok_iff.1 h
    have hr₃ := Processor.length_readPipeline_le h₃
    cases h
    omega
  · obtain ⟨processors, r₁, h₁, h⟩ := Fault.bind_eq_ok_iff.1 h
    cases h
    exact Processor.length_readPipeline_le h₁
  · split at h
    · cases h
      exact Nat.le_refl _
    · cases h

/-- Whether a value that starts with `c` names a source field: code points above `a` do, all others,
`a` among them, start the name of a provider type. -/
def startsField (c : Char) : Bool :=
  'a' < c

/-- The origin at the start of `s`, the text behind the colon of a statement. -/
def Origin.read (s : List Char) : Except Fault (Origin × List Char) := do
  let (name, r) ← value s
  match name.toList.head? with
  | none => .error (.here .missingValue r)
  | some c =>
    if startsField c then .ok (.field name, r)
    else do
      let (ref, r) ← TypeRef.readAfter name r
      .ok (.type ref, r)

/-- Reading an origin never lengthens the text. It does take something, but the passes that read one
have taken the colon in front of it already, so that they need no more than this. -/
theorem Origin.length_read_le {s r : List Char} {o : Origin} (h : read s = .ok (o, r)) :
    r.length ≤ s.length := by
  obtain ⟨name, r₁, h₁, h⟩ := Fault.bind_eq_ok_iff.1 h
  have hr₁ := length_value_le h₁
  simp only at h
  split at h
  · cases h
  · split at h
    · cases h
      exact hr₁
    · obtain ⟨ref, r₂, h₂, h⟩ := Fault.bind_eq_ok_iff.1 h
      cases h
      exact Nat.le_trans (TypeRef.length_readAfter_le h₂) hr₁

/-- The origin of a statement, if a colon introduces one. -/
def Origin.readOptional (s : List Char) : Except Fault (Option Origin × List Char) :=
  match nextToken s with
  | (.operator .colon, r) => do
    let (origin, r) ← read r
    .ok (some origin, r)
  | _ => .ok (none, s)

/-- Reading the origin of a statement never lengthens the text; without a colon nothing is taken. -/
theorem Origin.length_readOptional_le {s r : List Char} {o : Option Origin}
    (h : readOptional s = .ok (o, r)) : r.length ≤ s.length := by
  unfold readOptional at h
  split at h
  · rename_i r₁ h₁
    have hr₁ := length_nextToken_lt h₁
    obtain ⟨o', r₂, h₂, h⟩ := Fault.bind_eq_ok_iff.1 h
    have hr₂ := length_read_le h₂
    cases h
    omega
  · cases h
    exact Nat.le_refl _

end FieldMapping
