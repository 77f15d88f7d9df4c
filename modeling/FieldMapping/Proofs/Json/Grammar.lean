import FieldMapping.Json
import FieldMapping.Proofs.Text.Trimming

/-!
# Reading JSON

Which texts are JSON, and of which values, by the grammar of the format and not by the writer.
A rule `R s a r` states that the text `s` starts with an `a` and goes on with `r`. White space may
stand in front of every bracket, colon, comma and literal:

    Value   ::= Literal | '[' [Value (',' Value)*] ']' | '{' [Field (',' Field)*] '}'
    Field   ::= Literal ':' Value
    Literal ::= '"' Character* '"'

The two kinds of lists are one relation, with the rule for an item and the closing bracket as its
parameters (`Items`). The fields of an object are read in the order in which they stand. Numbers,
truth values and `null` are left out: no value that is written has any.

No text is read as two values (`Denotes.unique`).
-/

namespace FieldMapping.Json

variable {α : Type} {s t u r r' : List Char} {c c' : Char}

/-! ### Marks -/

/-- The white space of the format. -/
def isSpace (c : Char) : Bool :=
  c == ' ' || c == '\t' || c == '\n' || c == '\r'

/-- The character `c` comes next in `s`, and `r` is what follows it. -/
def Mark (c : Char) (s r : List Char) : Prop :=
  s.dropWhile isSpace = c :: r

/-- One character comes next, with one rest behind it. -/
theorem Mark.unique (h : Mark c s r) (h' : Mark c' s r') : c' = c ∧ r' = r :=
  List.cons.inj (h'.symm.trans h)

/-- Where one character comes next, another one does not. -/
theorem Mark.not_mark (h : Mark c s r) (hne : c ≠ c') : ¬ Mark c' s r' :=
  fun h' => hne (h'.unique h).1

/-! ### Literals -/

/-- The number that a hexadecimal digit stands for. -/
def hexValue? (c : Char) : Option Nat :=
  if '0' ≤ c ∧ c ≤ '9' then some (c.toNat - '0'.toNat)
  else if 'a' ≤ c ∧ c ≤ 'f' then some (10 + (c.toNat - 'a'.toNat))
  else if 'A' ≤ c ∧ c ≤ 'F' then some (10 + (c.toNat - 'A'.toNat))
  else none

/-- The number that four hexadecimal digits stand for. -/
def readUnit? : List Char → Option (Nat × List Char)
  | a :: b :: c :: d :: r => do
    let a ← hexValue? a
    let b ← hexValue? b
    let c ← hexValue? c
    let d ← hexValue? d
    some (((a * 16 + b) * 16 + c) * 16 + d, r)
  | _ => none

/-- The escapes of two characters: the one behind the backslash, and what is meant. -/
def shortEscapes : List (Char × Char) :=
  [('"', '"'), ('\\', '\\'), ('/', '/'), ('b', '\x08'), ('f', '\x0c'), ('n', '\n'), ('r', '\r'),
    ('t', '\t')]

/-- The character that is escaped, read behind the backslash. Above the first plane, it is written
as two surrogates, which stand for nothing on their own. -/
def readEscape? : List Char → Option (Char × List Char)
  | 'u' :: s => do
    let (n, r) ← readUnit? s
    if n < 0xD800 ∨ 0xE000 ≤ n then some (Char.ofNat n, r)
    else if n < 0xDC00 then
      match r with
      | '\\' :: 'u' :: r => do
        let (m, r) ← readUnit? r
        if 0xDC00 ≤ m ∧ m < 0xE000 then
          some (Char.ofNat (0x10000 + (n - 0xD800) * 0x400 + (m - 0xDC00)), r)
        else none
      | _ => none
    else none
  | e :: r => (shortEscapes.lookup e).map (·, r)
  | [] => none

/-- A character of a literal. All but the quote, the backslash and the controls stand for
themselves. -/
def readCharacter? : List Char → Option (Char × List Char)
  | '\\' :: s => readEscape? s
  | '"' :: _ => none
  | c :: s => if c.toNat < 0x20 then none else some (c, s)
  | [] => none

/-- The characters up to the quote that closes a literal, and this quote. -/
inductive Characters : List Char → List Char → List Char → Prop
  | close {r : List Char} : Characters ('"' :: r) [] r
  | cons {s t r cs : List Char} {c : Char} (hc : readCharacter? s = some (c, t))
      (hcs : Characters t cs r) : Characters s (c :: cs) r

/-- `s` starts with the literal for `text`. -/
def Literal (s : List Char) (text : String) (r : List Char) : Prop :=
  ∃ t, Mark '"' s t ∧ Characters t text.toList r

/-- What a literal means is decided by its text, up to the quote that closes it. -/
theorem Characters.unique {cs cs' : List Char} (h : Characters s cs r) (h' : Characters s cs' r') :
    cs' = cs ∧ r' = r := by
  -- on the characters: the next one is read in one way, and a quote is no character
  induction h generalizing cs' with
  | close =>
    cases h' with
    | close => exact ⟨rfl, rfl⟩
    | cons hc hcs => cases hc
  | cons hc hcs ih =>
    cases h' with
    | close => cases hc
    | cons hc' hcs' =>
      cases hc.symm.trans hc'
      obtain ⟨rfl, rfl⟩ := ih hcs'
      exact ⟨rfl, rfl⟩

/-- No text starts with two literals. -/
theorem Literal.unique {text text' : String} (h : Literal s text r) (h' : Literal s text' r') :
    text' = text ∧ r' = r := by
  obtain ⟨t, ht, hcs⟩ := h
  obtain ⟨t', ht', hcs'⟩ := h'
  obtain rfl := (ht.unique ht').2
  obtain ⟨htext, hr⟩ := hcs.unique hcs'
  exact ⟨String.toList_injective htext, hr⟩

/-! ### Lists -/

section Items

/-- The items of a list, each but the first behind a comma, and the bracket that closes the list.
The flag tells whether the next item is the first one. -/
inductive Items (R : List Char → α → List Char → Prop) (closing : Char) :
    Bool → List Char → List α → List Char → Prop
  | close {e : Bool} {s r : List Char} (h : Mark closing s r) : Items R closing e s [] r
  | first {s t r : List Char} {a : α} {as : List α} (ha : R s a t)
      (has : Items R closing false t as r) : Items R closing true s (a :: as) r
  | more {s t u r : List Char} {a : α} {as : List α} (h : Mark ',' s t) (ha : R t a u)
      (has : Items R closing false u as r) : Items R closing false s (a :: as) r

/-- Where `a` can be read, nothing else can. -/
def Decides (R : List Char → α → List Char → Prop) (a : α) : Prop :=
  ∀ s r b r', R s a r → R s b r' → b = a ∧ r' = r

variable {R : List Char → α → List Char → Prop} {closing : Char} {e : Bool} {as bs : List α}

/-- A list is decided by its items, if none of them starts with the bracket that closes the list. -/
theorem Items.unique (hR : ∀ a ∈ as, Decides R a) (hclosing : ',' ≠ closing)
    (hstart : ∀ s a r t, R s a r → ¬ Mark closing s t)
    (h : Items R closing e s as r) (h' : Items R closing e s bs r') : bs = as ∧ r' = r := by
  -- on the items: what comes next tells whether there is another one
  induction h generalizing bs with
  | close h =>
    cases h' with
    | close h' => exact ⟨rfl, (h.unique h').2⟩
    | first hb hbs => exact absurd h (hstart _ _ _ _ hb)
    | more h' hb hbs => exact absurd h (h'.not_mark hclosing)
  | @first s t r a as ha has ih =>
    cases h' with
    | close h' => exact absurd h' (hstart _ _ _ _ ha)
    | first hb hbs =>
      obtain ⟨rfl, rfl⟩ := hR a (List.mem_cons_self ..) _ _ _ _ ha hb
      obtain ⟨rfl, hr⟩ := ih (fun a ha => hR a (List.mem_cons_of_mem _ ha)) hbs
      exact ⟨rfl, hr⟩
  | @more s t u r a as h ha has ih =>
    cases h' with
    | close h' => exact absurd h' (h.not_mark hclosing)
    | more h' hb hbs =>
      obtain rfl := (h.unique h').2
      obtain ⟨rfl, rfl⟩ := hR a (List.mem_cons_self ..) _ _ _ _ ha hb
      obtain ⟨rfl, hr⟩ := ih (fun a ha => hR a (List.mem_cons_of_mem _ ha)) hbs
      exact ⟨rfl, hr⟩

end Items

/-! ### Values -/

mutual

/-- `s` starts with the value `v`. -/
inductive Denotes : List Char → Json → List Char → Prop
  | text {s r : List Char} {t : String} (h : Literal s t r) : Denotes s (.text t) r
  | array {s t r : List Char} {vs : List Json} (h : Mark '[' s t)
      (hvs : Items Denotes ']' true t vs r) : Denotes s (.array vs) r
  | object {s t r : List Char} {fs : List (String × Json)} (h : Mark '{' s t)
      (hfs : Items Field '}' true t fs r) : Denotes s (.object fs) r

/-- `s` starts with a field of an object. -/
inductive Field : List Char → String × Json → List Char → Prop
  | mk {s t u r : List Char} {key : String} {v : Json} (hkey : Literal s key t)
      (hcolon : Mark ':' t u) (hv : Denotes u v r) : Field s (key, v) r

end

/-- The text `s` is the JSON value `v`, with white space around it. -/
def Reads (s : String) (v : Json) : Prop :=
  ∃ r, Denotes s.toList v r ∧ ∀ c ∈ r, isSpace c = true

/-- Induction over a value: a property of values holds of every value if it holds of texts, and goes
from the items to the array and from the values of the fields to the object. -/
theorem recOnParts {P : Json → Prop} (v : Json) (text : ∀ s, P (.text s))
    (array : ∀ vs, (∀ v ∈ vs, P v) → P (.array vs))
    (object : ∀ fs : List (String × Json), (∀ f ∈ fs, P f.2) → P (.object fs)) : P v :=
  @Json.rec P (fun vs => ∀ v ∈ vs, P v) (fun fs => ∀ f ∈ fs, P f.2) (fun f => P f.2)
    text array object
    (fun _ h => nomatch h) (fun _ _ hv hvs => List.forall_mem_cons.2 ⟨hv, hvs⟩)
    (fun _ h => nomatch h) (fun _ _ hf hfs => List.forall_mem_cons.2 ⟨hf, hfs⟩)
    (fun _ _ hv => hv) v

/-- The character that a value starts with. -/
def opening : Json → Char
  | .text _ => '"'
  | .array _ => '['
  | .object _ => '{'

variable {v v' : Json}

/-- A value starts with its own opening character. -/
theorem Denotes.mark (h : Denotes s v r) : ∃ t, Mark v.opening s t := by
  cases h with
  | text h =>
    obtain ⟨t, ht, -⟩ := h
    exact ⟨t, ht⟩
  | array h => exact ⟨_, h⟩
  | object h => exact ⟨_, h⟩

/-- No value starts with the bracket that closes an array. -/
theorem Denotes.not_closing (h : Denotes s v r) : ¬ Mark ']' s t := by
  obtain ⟨u, hu⟩ := h.mark
  refine hu.not_mark ?_
  cases v <;> simp [opening]

/-- No field starts with the brace that closes an object. -/
theorem Field.not_closing {f : String × Json} (h : Field s f r) : ¬ Mark '}' s t := by
  cases h with
  | mk hkey =>
    obtain ⟨u, hu, -⟩ := hkey
    exact hu.not_mark (by decide)

/-- A field is decided by its key and its value. -/
theorem Field.decides {f : String × Json} (h : Decides Denotes f.2) : Decides Field f := by
  rintro s r b r' ⟨hkey, hcolon, hv⟩ ⟨hkey', hcolon', hv'⟩
  obtain ⟨rfl, rfl⟩ := hkey.unique hkey'
  obtain rfl := (hcolon.unique hcolon').2
  obtain ⟨rfl, rfl⟩ := h _ _ _ _ hv hv'
  exact ⟨rfl, rfl⟩

/-- Values that the same text starts with start with the same character, so they are of one kind. -/
theorem Denotes.opening_eq (h : Denotes s v r) (h' : Denotes s v' r') :
    v'.opening = v.opening := by
  obtain ⟨t, ht⟩ := h.mark
  obtain ⟨t', ht'⟩ := h'.mark
  exact (ht.unique ht').1

/-- No text starts with two values. -/
theorem Denotes.decides (v : Json) : Decides Denotes v := by
  -- on the value, whose parts are decided first
  induction v using recOnParts with
  | text text =>
    intro s r v' r' h h'
    have hopening := h.opening_eq h'
    cases h with
    | text h =>
      cases h' with
      | text h' =>
        obtain ⟨rfl, rfl⟩ := h.unique h'
        exact ⟨rfl, rfl⟩
      | _ => simp [opening] at hopening
  | array vs ih =>
    intro s r v' r' h h'
    have hopening := h.opening_eq h'
    cases h with
    | array h hvs =>
      cases h' with
      | array h' hvs' =>
        obtain rfl := (h.unique h').2
        obtain ⟨rfl, rfl⟩ := hvs.unique ih (by decide) (fun _ _ _ _ => Denotes.not_closing) hvs'
        exact ⟨rfl, rfl⟩
      | _ => simp [opening] at hopening
  | object fs ih =>
    intro s r v' r' h h'
    have hopening := h.opening_eq h'
    cases h with
    | object h hfs =>
      cases h' with
      | object h' hfs' =>
        obtain rfl := (h.unique h').2
        obtain ⟨rfl, rfl⟩ := hfs.unique (fun f hf => Field.decides (ih f hf)) (by decide)
          (fun _ _ _ _ => Field.not_closing) hfs'
        exact ⟨rfl, rfl⟩
      | _ => simp [opening] at hopening

/-- No text is two values. -/
theorem Reads.unique {s : String} (h : Reads s v) (h' : Reads s v') : v' = v := by
  obtain ⟨r, hv, -⟩ := h
  obtain ⟨r', hv', -⟩ := h'
  exact (Denotes.decides v _ _ _ _ hv hv').1

end FieldMapping.Json
