import FieldMapping.Proofs.Grammar.Reading
import FieldMapping.Proofs.Online.Reader

/-!
# Reading at once and one character at a time

A parse reads a text piece by piece, with a look ahead behind each piece. Reading it one character
at a time leads to the same: the same statements, or the same cause at the same place
(`parse_eq_read`).

Beside each act of reading stands an equation for the state in which it is due. It says that the
characters that the act takes lead from that state to the one behind the act, or to its failure
(`andThen`). The equation for a longer act follows from those for its parts.
-/

namespace FieldMapping.Online

open Text Scan

variable {limit : Nat} {w : Walk} {s t r : List Char} {o : Operator}

/-! ### Acts of reading in a row -/

section AndThen

variable {α β : Type} {x : Except Fault (α × List Char)} {k k' : α → List Char → Result}

/-- What a document is read as if `x` is read first, and `k` is what follows it. -/
def andThen (x : Except Fault (α × List Char)) (k : α → List Char → Result) : Result :=
  match x with
  | .ok (a, r) => k a r
  | .error f => .error (f.cause, f.place)

@[simp] theorem andThen_ok {a : α} : andThen (.ok (a, r)) k = k a r := rfl

@[simp] theorem andThen_error {f : Fault} : andThen (.error f) k = .error (f.cause, f.place) := rfl

/-- Two acts in a row can be followed one by one. -/
theorem andThen_bind {f : α × List Char → Except Fault (β × List Char)}
    {k : β → List Char → Result} :
    andThen (x >>= f) k = andThen x fun a r => andThen (f (a, r)) k := by
  cases x <;> rfl

/-- What follows matters only for the results that the act can have. -/
theorem andThen_congr (h : ∀ a r, x = .ok (a, r) → k a r = k' a r) :
    andThen x k = andThen x k' := by
  cases x with
  | ok p => exact h p.1 p.2 rfl
  | error f => rfl

/-- A list is read item by item: `F` is what follows in front of an item, and `G` what follows
behind the list, for the items that have been read. -/
theorem andThen_readAll (item : ItemReader α) (F G : List α → List Char → Result)
    (h : ∀ before s, F before s = andThen (item.read s) fun p r =>
      if p.2 then F (before ++ [p.1]) r else G (before ++ [p.1]) r)
    (before : List α) (s : List Char) :
    F before s = andThen (item.readAll s) fun as r => G (before ++ as) r := by
  rw [h]
  -- on the items, where each step moves one of them in front
  fun_induction item.readAll s generalizing before with
  | case1 s f hf => rw [hf, andThen_error, andThen_error]
  | case2 s a r hr => rw [hr, andThen_ok, andThen_ok, if_neg (by simp)]
  | case3 s a r hr ih =>
    -- the item is one of those before the next one
    rw [hr, andThen_ok, if_pos rfl, h, ih, andThen_bind]
    simp

end AndThen

/-! ### Tokens -/

/-- In front of an operator there is nothing to skip. -/
theorem significant_char_cons : significant (o.char :: t) = o.char :: t :=
  dropWhile_eq_self (by simpa using isBlank_of_isOperator (isOperator_char o))

/-- An operator at the start of a text is the next token. -/
theorem nextToken_char_cons :
    nextToken (o.char :: t) = (.operator o, if o = .comma then trimStart t else t) :=
  Grammar.nextToken_of_sign (Grammar.sign_iff.2 significant_char_cons)

/-- What does not fit is refused where it stands. -/
theorem andThen_unexpected {α : Type} {k : α → List Char → Result} :
    andThen (.error (unexpected s)) k =
      .error (.unexpected (Token.ofHead (significant s)).display, significant s) := by
  rw [andThen_error, unexpected]
  simp only [nextToken_fst]
  rfl

/-- A character that is refused is the place of the complaint, and is unread. -/
theorem proceed_refuse {c : Char} :
    proceed limit (refuse c) c s = .error (.unexpected (Token.ofChar c).display, c :: s) := rfl

/-- An operator that does not fit is the same complaint on both sides. -/
theorem andThen_unexpected_char {α : Type} {k : α → List Char → Result} :
    andThen (.error (unexpected (o.char :: t))) k = proceed limit (refuse o.char) o.char t := by
  rw [andThen_unexpected, significant_char_cons, proceed_refuse, Token.ofHead_cons]

/-- A value that is read ends at an operator or at the end of the text. -/
theorem stops_of_value {a : String} (h : value s = .ok (a, r)) :
    r = [] ∨ ∃ o t, r = Operator.char o :: t := by
  rcases Grammar.value_eq_ok_iff.1 h with ⟨run, -, -, -, hstop, -⟩ | ⟨-, -, hr⟩
  · cases r with
    | nil => exact .inl rfl
    | cons c t =>
      obtain ⟨o, rfl⟩ := isOperator_eq_true_iff.1 (hstop c rfl)
      exact .inr ⟨o, t, rfl⟩
  · exact .inl hr

/-- Two ways to go on behind a value are the same if they are at an operator and at the end of the
text. -/
theorem andThen_value_congr {k k' : String → List Char → Result} (nil : ∀ a, k a [] = k' a [])
    (operator : ∀ a o t, k a (Operator.char o :: t) = k' a (o.char :: t)) :
    andThen (value s) k = andThen (value s) k' := by
  refine andThen_congr fun a r h => ?_
  rcases stops_of_value h with rfl | ⟨o, t, rfl⟩
  · exact nil a
  · exact operator a o t

/-- An operator is no blank. -/
theorem isBlank_char (o : Operator) : isBlank o.char = false :=
  isBlank_of_isOperator (isOperator_char o)

/-- A character that is read as text is no operator. -/
theorem isOperator_of_ofChar {c : Char} (h : Token.ofChar c = .text c) : isOperator c = false := by
  by_contra hc
  obtain ⟨o, rfl⟩ := isOperator_eq_true_iff.1 (Bool.not_eq_false _ ▸ hc)
  simp at h

/-- What comes next is the end of the text, an operator, or the start of a value. -/
theorem significant_cases (s : List Char) :
    (significant s = [] ∧ nextToken s = (.endOfInput, [])) ∨
    (∃ o t, significant s = Operator.char o :: t ∧
      nextToken s = (.operator o, if o = .comma then trimStart t else t)) ∨
    ∃ c t, significant s = c :: t ∧ Token.ofChar c = .text c ∧ isBlank c = false ∧
      nextToken s = (.text c, c :: t) := by
  rcases Grammar.sign_or_skips s with ⟨o, t, h⟩ | ⟨r, h, hr⟩
  · exact .inr (.inl ⟨o, t, Grammar.sign_iff.1 h, Grammar.nextToken_of_sign h⟩)
  · have hnext := Grammar.nextToken_of_skips h hr
    cases r with
    | nil => exact .inl ⟨Grammar.skips_iff.1 h, hnext⟩
    | cons c t =>
      have hc : Operator.ofChar? c = none := by simpa [isOperator] using hr c rfl
      have hc : Token.ofChar c = .text c := by simp [Token.ofChar, hc]
      rw [Token.ofHead_cons, hc] at hnext
      have hs : significant s = c :: t := Grammar.skips_iff.1 h
      obtain ⟨-, -, -, hblank⟩ := h
      exact .inr (.inr ⟨c, t, hs, hc, hblank c rfl, hnext⟩)

/-! ### White space -/

/-- Outside of atoms and literals, blanks in front of a text can be left out. -/
theorem read_significant {m : Mode} (hm : m.isWithin = false) (s : List Char) :
    read limit ⟨w, m⟩ s = read limit ⟨w, m⟩ (significant s) := by
  obtain ⟨u, hs, hu, -⟩ := dropWhile_eq_iff.1 (rfl : s.dropWhile isBlank = significant s)
  calc read limit ⟨w, m⟩ s = read limit ⟨w, m⟩ (u ++ significant s) := congrArg _ hs
    _ = read limit ⟨w, m⟩ (significant s) :=
      read_of_stays fun c hc => next_of_isBlank hm (hu c hc)

/-- In a state in which white space is skipped, it can be left out in front of a text. -/
theorem read_trimStart {m : Mode}
    (hm : ∀ c, isSpace c = true → State.next limit ⟨w, m⟩ c = .ok ⟨w, m⟩) (s : List Char) :
    read limit ⟨w, m⟩ s = read limit ⟨w, m⟩ (trimStart s) := by
  obtain ⟨u, hs, hu⟩ := exists_eq_append_trimStart s
  calc read limit ⟨w, m⟩ s = read limit ⟨w, m⟩ (u ++ trimStart s) := congrArg _ hs
    _ = read limit ⟨w, m⟩ (trimStart s) := read_of_stays fun c hc => hm c (hu c hc)

/-- White space in front of an atom can be left out. -/
theorem read_due_trimStart {role : Role} (s : List Char) :
    read limit ⟨w, .due role⟩ s = read limit ⟨w, .due role⟩ (trimStart s) :=
  read_trimStart (fun _ hc => next_due_space hc) s

/-! ### Atoms -/

/-- What follows the atom `a` in front of an operator or the end of the text. -/
def behindAtom (limit : Nat) (w : Walk) (role : Role) (a : String) (s : List Char) : Result :=
  match s with
  | [] => (finishAtom w role a).mapError (·, [])
  | c :: s => proceed limit (endAtom limit w role a c) c s

/-- Within an atom, reading goes on up to the next operator. The atom is what has been read of it
before and what stands in front of that operator. -/
theorem read_atom {role : Role} (run s : List Char) : read limit ⟨w, .atom role run⟩ s =
    behindAtom limit w role (String.ofList (trim (run ++ s.takeWhile (!isOperator ·))))
      (s.dropWhile (!isOperator ·)) := by
  -- what the induction takes from the text, it adds to the run
  induction s generalizing run with
  | nil =>
    rw [List.takeWhile_nil, List.append_nil]
    rfl
  | cons c s ih =>
    by_cases hc : isOperator c = true
    · rw [List.takeWhile_cons_of_neg (by simpa using hc), List.append_nil,
        List.dropWhile_cons_of_neg (by simpa using hc), read_cons, next_atom_operator hc]
      rfl
    · have hc : isOperator c = false := by simpa using hc
      rw [List.takeWhile_cons_of_pos (by simpa using hc),
        List.dropWhile_cons_of_pos (by simpa using hc), read_cons_ok (next_atom hc), ih,
        List.append_assoc, List.singleton_append]

/-- Reading an atom character by character is reading a plain value. -/
theorem read_due (role : Role) (s : List Char) :
    read limit ⟨w, .due role⟩ s = andThen (value s) (behindAtom limit w role) := by
  rw [read_due_trimStart, value]
  -- what is left behind the white space is empty, starts with an operator, or starts the atom
  cases hs : trimStart s with
  | nil => rfl
  | cons c r =>
    rw [read_cons, next_due (isSpace_of_trimStart_eq_cons hs), startAtom]
    dsimp only
    split
    · rfl
    · rename_i hop
      change read limit ⟨w, .atom role [c]⟩ r = _
      rw [read_atom, andThen_ok, List.takeWhile_cons_of_pos (by simpa using hop),
        List.dropWhile_cons_of_pos (by simpa using hop), List.singleton_append]

/-! ### Values -/

/-- Within a literal, reading goes on up to the next quote of its kind. Without one the literal is
never closed. -/
theorem read_within_literal {items : Items} {q : Char} (body s : List Char) :
    read limit ⟨w, .literal items q body⟩ s =
      match s.dropWhile (· != q) with
      | [] => .error (.unclosedQuote q, [])
      | _ :: r => read limit ⟨w, .behindValue items
          (.scalar (String.ofList (q :: (body ++ s.takeWhile (· != q)) ++ [q])))⟩ r := by
  -- as within an atom, the body takes what the text loses
  induction s generalizing body with
  | nil => rfl
  | cons c s ih =>
    by_cases hc : c = q
    · subst hc
      rw [List.takeWhile_cons_of_neg (by simp), List.append_nil,
        List.dropWhile_cons_of_neg (by simp), read_cons_ok next_literal_quote]
    · rw [List.takeWhile_cons_of_pos (by simpa using hc),
        List.dropWhile_cons_of_pos (by simpa using hc), read_cons_ok (next_literal hc), ih,
        List.append_assoc, List.singleton_append]

/-- Where a quote comes next, a literal is read. -/
theorem read_value_quoted {items : Items} (h : startsQuoted s = true) :
    read limit ⟨w, .value items⟩ s = andThen (quoted s) fun text r =>
      read limit ⟨w, .behindValue items (.scalar text)⟩ r := by
  rw [read_significant rfl, quoted]
  rw [startsQuoted] at h
  cases hs : significant s with
  | nil => simp [hs] at h
  | cons q r =>
    have hq : isQuote q = true := by simpa [hs] using h
    have hspace : isSpace q = false := isSpace_of_isQuote hq
    -- the quote is neither blank nor line feed, so it is the one that opens the literal
    have hnext : State.next limit ⟨w, .value items⟩ q = .ok ⟨w, .literal items q []⟩ := by
      have hne : q ≠ '\n' := by
        rintro rfl
        cases hq
      simp [State.next, isBlank_of_isSpace hspace, hne, startValue, hq]
    rw [read_cons_ok hnext, read_within_literal]
    simp only [hq, if_true, List.nil_append]
    cases r.dropWhile (· != q) <;> rfl

/-- Where no quote comes next, a plain value is read. -/
theorem read_value_plain {items : Items} (h : startsQuoted s = false) :
    read limit ⟨w, .value items⟩ s = read limit ⟨w, .due (.plain items)⟩ s := by
  rw [read_significant (m := .value items) rfl, read_significant (m := .due (.plain items)) rfl]
  rw [startsQuoted] at h
  cases hs : significant s with
  | nil => rfl
  | cons c r =>
    have hq : isQuote c = false := by simpa [hs] using h
    have hblank : isBlank c = false := by
      have := List.head?_dropWhile_not isBlank s
      rw [significant] at hs
      simpa [hs] using this
    by_cases hn : c = '\n'
    · -- behind a line feed, a quote is a character like any other
      subst hn
      have hvalue : State.next limit ⟨w, .value items⟩ '\n' = .ok ⟨w, .due (.plain items)⟩ := rfl
      rw [read_cons_ok hvalue, read_cons_ok (next_due_space rfl)]
    · have hspace : isSpace c = false := by simpa [isBlank, hn] using hblank
      rw [read_cons, read_cons]
      simp [State.next, hblank, hn, hspace, startValue, hq]

/-- Reading a value character by character is reading it at once. At once, a bracket is looked for
behind a plain value; character by character, it is one of the operators that may end the value. -/
theorem read_value (items : Items) (s : List Char) : read limit ⟨w, .value items⟩ s =
    andThen (Value.read s) fun v r => read limit ⟨w, .behindValue items v⟩ r := by
  unfold Value.read
  -- a literal ends by itself, a plain value at an operator that then decides
  by_cases h : startsQuoted s = true
  · rw [if_pos h, andThen_bind, read_value_quoted h]
    rfl
  · rw [if_neg h, andThen_bind, read_value_plain (by simpa using h), read_due]
    refine andThen_value_congr (fun base => rfl) fun base o t => ?_
    simp only [nextToken_char_cons]
    by_cases ho : o = .openBracket
    · -- an index follows
      subst ho
      change read limit ⟨w, .due (.index items base)⟩ t = andThen (value t >>= _) _
      rw [read_due, andThen_bind]
      refine andThen_value_congr (fun index => rfl) fun index o' t' => ?_
      simp only [nextToken_char_cons]
      by_cases ho' : o' = .closeBracket
      · subst ho'
        rfl
      · have hend : endAtom limit w (.index items base) index o'.char = refuse o'.char := by
          rw [endAtom, Token.ofChar_char]
          cases o' <;> simp at ho' ⊢
        rw [behindAtom, hend, ← andThen_unexpected_char]
        cases o' <;> first | exact absurd rfl ho' | rfl
    · -- any other operator has to end the item
      have hend : endAtom limit w (.plain items) base o.char =
          endItem w items (.scalar base) o.char := by
        rw [endAtom, Token.ofChar_char]
        cases o <;> simp at ho ⊢
      have hnext : State.next limit ⟨w, .behindValue items (.scalar base)⟩ o.char =
          endItem w items (.scalar base) o.char := by
        simp [State.next, isBlank_char]
      rw [behindAtom, hend, ← hnext, ← read_cons]
      cases o <;> first | exact absurd rfl ho | rfl

/-! ### Items -/

/-- What follows a comma in a list is read behind the white space that the comma takes. -/
theorem read_more_trimStart (items : Items) (v : Value) (s : List Char) :
    read limit ⟨w, items.more v⟩ s = read limit ⟨w, items.more v⟩ (trimStart s) := by
  cases items with
  | params statement type before key => exact read_due_trimStart s
  | args pipeline name before => exact read_trimStart (fun _ hc => next_item_space hc) s

/-- Where no white space is left in front of it, a value behind a comma is read like any other. -/
theorem read_item {items : Items} (h : trimStart s = s) :
    read limit ⟨w, .item items⟩ s = read limit ⟨w, .value items⟩ s := by
  cases s with
  | nil => rfl
  | cons c s =>
    have hc : isSpace c = false := isSpace_of_trimStart_eq_cons h
    have hn : c ≠ '\n' := by
      rintro rfl
      cases hc
    rw [read_cons, read_cons]
    simp [State.next, hc, hn, isBlank_of_isSpace hc]

theorem read_behindValue (items : Items) (v : Value) (s : List Char) :
    read limit ⟨w, .behindValue items v⟩ s = andThen (itemEnd s) fun more r =>
      if more = true then read limit ⟨w, items.more v⟩ r
      else read limit ⟨w, .behindList (items.close v)⟩ r := by
  -- what does neither continue nor close the list is refused by both, at the same character
  have hfound : ∀ {α : Type} (k : α → List Char → Result) c t, significant s = c :: t →
      proceed limit (refuse c) c t = andThen (.error (unexpected s)) k := by
    intro α k c t h
    rw [andThen_unexpected, h, proceed_refuse, Token.ofHead_cons]
  rw [read_significant rfl, itemEnd]
  rcases significant_cases s with ⟨h, hnext⟩ | ⟨o, t, h, hnext⟩ | ⟨c, t, h, hc, hblank, hnext⟩
  · rw [h, hnext]
    exact (andThen_unexpected.trans (by rw [h]; rfl)).symm
  · rw [h, hnext, read_cons, next_behindValue (isBlank_char o), endItem, Token.ofChar_char]
    cases o with
    | comma =>
      -- the pass has skipped the white space behind the comma already
      exact read_more_trimStart items v t
    | closeParen => rfl
    | _ => exact hfound _ _ t h
  · rw [h, hnext, read_cons, next_behindValue hblank, endItem, hc]
    exact hfound _ c t h

/-- The end of an item in front of another one takes the white space behind it. -/
theorem trimStart_of_itemEnd (h : itemEnd s = .ok (true, r)) : trimStart r = r := by
  obtain ⟨t, -, -, -, -, hr⟩ := Grammar.itemEnd_eq_ok_true_iff.1 h
  exact trimStart_eq_self hr

/-! ### Parameters and arguments -/

/-- Reading one parameter character by character is reading it at once. -/
theorem read_param (statement type : String) (before : List Param) (s : List Char) :
    read limit ⟨w, .due (.key statement type before)⟩ s =
      andThen (Param.readItem s) fun p r =>
        if p.2 = true then read limit ⟨w, .due (.key statement type (before ++ [p.1]))⟩ r
        else read limit ⟨w, .behindList ⟨statement, type, some (before ++ [p.1]), []⟩⟩ r := by
  rw [read_due, Param.readItem, andThen_bind]
  refine andThen_value_congr (fun key => rfl) fun key o t => ?_
  simp only [nextToken_char_cons]
  -- a key that is followed by anything but a colon or the parenthesis is refused by both
  have hfound : endAtom limit w (.key statement type before) key o.char = refuse o.char →
      behindAtom limit w (.key statement type before) key (o.char :: t) =
        andThen (.error (unexpected (o.char :: t))) fun (p : Param × Bool) r =>
          if p.2 = true then read limit ⟨w, .due (.key statement type (before ++ [p.1]))⟩ r
          else read limit ⟨w, .behindList ⟨statement, type, some (before ++ [p.1]), []⟩⟩ r := by
    intro h
    rw [behindAtom, h, andThen_unexpected_char]
  cases o with
  | closeParen => rfl
  | colon =>
    -- the value of the parameter, and what ends it
    change read limit ⟨w, .value (.params statement type before key)⟩ t = andThen (_ >>= _) _
    rw [read_value, andThen_bind]
    refine andThen_congr fun v r _ => ?_
    rw [read_behindValue, andThen_bind]
    exact andThen_congr fun more r _ => rfl
  | _ => exact hfound rfl

/-- Reading a list of parameters character by character is reading it at once. -/
theorem read_params (statement type : String) (s : List Char) :
    read limit ⟨w, .due (.key statement type [])⟩ s = andThen (Param.item.readAll s) fun ps r =>
      read limit ⟨w, .behindList ⟨statement, type, some ps, []⟩⟩ r :=
  andThen_readAll Param.item (fun ps => read limit ⟨w, .due (.key statement type ps)⟩)
    (fun ps => read limit ⟨w, .behindList ⟨statement, type, some ps, []⟩⟩)
    (read_param statement type) [] s

/-- Reading one argument character by character is reading it at once. -/
theorem read_arg (p : Pipeline) (name : String) (before : List Value) (s : List Char) :
    read limit ⟨w, .value (.args p name before)⟩ s = andThen (Processor.readArg s) fun v r =>
      if v.2 = true then read limit ⟨w, .value (.args p name (before ++ [v.1]))⟩ r
      else read limit ⟨w, .behindList (p.add ⟨name, before ++ [v.1]⟩)⟩ r := by
  rw [read_value, Processor.readArg, andThen_bind]
  refine andThen_congr fun v r _ => ?_
  rw [read_behindValue, andThen_bind]
  refine andThen_congr fun more r hend => ?_
  -- behind the comma the reader still allows for line feeds, but the comma has taken them
  cases more with
  | false => rfl
  | true => exact read_item (trimStart_of_itemEnd hend)

/-- Reading a list of arguments character by character is reading it at once. -/
theorem read_args (p : Pipeline) (name : String) (s : List Char) :
    read limit ⟨w, .value (.args p name [])⟩ s = andThen (Processor.arg.readAll s) fun vs r =>
      read limit ⟨w, .behindList (p.add ⟨name, vs⟩)⟩ r :=
  andThen_readAll Processor.arg (fun vs => read limit ⟨w, .value (.args p name vs)⟩)
    (fun vs => read limit ⟨w, .behindList (p.add ⟨name, vs⟩)⟩) (read_arg p name) [] s

/-! ### Processors -/

/-- What follows a name and an origin. -/
def afterHead (limit : Nat) (w : Walk) (name : String) (origin : Option Origin)
    (s : List Char) : Result :=
  match significant s with
  | [] => (finish (w.add name origin false)).mapError (·, [])
  | c :: s => proceed limit (behindHead limit w name origin c) c s

/-- Behind a list, a bar announces a processor, and otherwise the statement goes on. -/
theorem read_behindList (p : Pipeline) (s : List Char) : read limit ⟨w, .behindList p⟩ s =
    match nextToken s with
    | (.operator .bar, r) => read limit ⟨w, .due (.processor p)⟩ r
    | _ => afterHead limit w p.statement (some p.origin) s := by
  rw [read_significant rfl, afterHead]
  rcases significant_cases s with ⟨h, hnext⟩ | ⟨o, t, h, hnext⟩ | ⟨c, t, h, hc, hblank, hnext⟩
  · rw [h, hnext]
    rfl
  · rw [h, hnext, read_cons, next_behindList (isBlank_char o), behindPipeline, Token.ofChar_char]
    cases o <;> rfl
  · rw [h, hnext, read_cons, next_behindList hblank, behindPipeline, hc]

/-- Reading one processor character by character is reading it at once, and the bar behind it if
there is one. -/
theorem read_processor (p : Pipeline) (s : List Char) :
    read limit ⟨w, .due (.processor p)⟩ s = andThen (Processor.readItem s) fun q r =>
      if q.2 = true then read limit ⟨w, .due (.processor (p.add q.1))⟩ r
      else afterHead limit w p.statement (some (p.add q.1).origin) r := by
  -- a bar behind the processor announces another one
  have hend : ∀ q r, read limit ⟨w, .behindList (p.add q)⟩ r =
      andThen (match nextToken r with
        | (.operator .bar, r) => .ok ((q, true), r)
        | _ => .ok ((q, false), r)) fun q r =>
          if q.2 = true then read limit ⟨w, .due (.processor (p.add q.1))⟩ r
          else afterHead limit w p.statement (some (p.add q.1).origin) r := by
    intro q r
    rw [read_behindList]
    split <;> rfl
  rw [read_due, Processor.readItem, andThen_bind]
  refine andThen_value_congr (fun name => rfl) fun name o t => ?_
  by_cases ho : o = .openParen
  · -- the processor has arguments
    subst ho
    have hargs : Processor.readArgs (Operator.char .openParen :: t) =
        Processor.arg.readAll t := by
      rw [Processor.readArgs, nextToken_char_cons]
      rfl
    change read limit ⟨w, .value (.args p name [])⟩ t = andThen (_ >>= _) _
    rw [read_args, andThen_bind, hargs]
    exact andThen_congr fun vs r _ => hend ⟨name, vs⟩ r
  · -- without a parenthesis there are no arguments, and the operator is looked at again behind
    -- them
    have hargs : Processor.readArgs (o.char :: t) = .ok ([], o.char :: t) := by
      rw [Processor.readArgs, nextToken_char_cons]
      cases o <;> first | exact absurd rfl ho | rfl
    have hatom : endAtom limit w (.processor p) name o.char =
        behindPipeline limit w (p.add ⟨name, []⟩) o.char := by
      rw [endAtom, Token.ofChar_char]
      cases o <;> first | exact absurd rfl ho | rfl
    rw [behindAtom, hatom, ← next_behindList (isBlank_char o), ← read_cons, andThen_bind, hargs,
      andThen_ok]
    exact hend ⟨name, []⟩ (o.char :: t)

/-- No list is read as empty. -/
theorem readAll_ne_nil {α : Type} {item : ItemReader α} {as : List α}
    (h : item.readAll s = .ok (as, r)) : as ≠ [] :=
  Grammar.of_readAll (R := fun _ as _ => as ≠ []) (fun _ => List.cons_ne_nil _ _)
    (fun _ _ => List.cons_ne_nil _ _) h

/-- Reading a pipeline character by character is reading it at once. -/
theorem read_pipeline (statement type : String) (params : Option (List Param)) (s : List Char) :
    read limit ⟨w, .behindList ⟨statement, type, params, []⟩⟩ s =
      andThen (Processor.readPipeline s) fun ps r =>
        afterHead limit w statement (some (.type ⟨type, params, ps⟩)) r := by
  have hprocessors : ∀ r, read limit ⟨w, .due (.processor ⟨statement, type, params, []⟩)⟩ r =
      andThen (Processor.item.readAll r) fun ps r =>
        afterHead limit w statement (some (.type ⟨type, params, some ps⟩)) r := by
    intro r
    have hps := andThen_readAll Processor.item
      (fun ps => read limit ⟨w, .due (.processor ⟨statement, type, params, ps⟩)⟩)
      (fun ps => afterHead limit w statement (some (Pipeline.origin ⟨statement, type, params, ps⟩)))
      (fun ps => read_processor ⟨statement, type, params, ps⟩) [] r
    -- a pipeline that has been read has a processor, which tells it from none
    refine hps.trans (andThen_congr fun ps r' h => ?_)
    rw [List.nil_append, Pipeline.origin, if_neg (readAll_ne_nil h)]
  -- only at a bar there is something to read
  rw [read_behindList, Processor.readPipeline]
  rcases significant_cases s with ⟨h, hnext⟩ | ⟨o, t, h, hnext⟩ | ⟨c, t, h, hc, hblank, hnext⟩
  · rw [hnext]
    rfl
  · rw [hnext]
    cases o with
    | bar =>
      change read limit _ t = andThen (_ >>= _) _
      rw [hprocessors, andThen_bind]
      rfl
    | _ => rfl
  · rw [hnext]
    rfl

/-! ### Origins -/

/-- An operator behind the start of a statement is the character that is looked at there. -/
theorem afterHead_char (limit : Nat) (w : Walk) (o : Operator) (t : List Char) (name : String)
    (origin : Option Origin) : afterHead limit w name origin (o.char :: t) =
      proceed limit (behindHead limit w name origin o.char) o.char t := by
  rw [afterHead, significant_char_cons]

/-- Behind the name of a type comes what may follow it. -/
theorem read_typeRef (statement name : String) (h : isField name = false) :
    proceed limit (endAtom limit w (.origin statement) name o.char) o.char t =
      andThen (TypeRef.readAfter name (o.char :: t)) fun ref r =>
        afterHead limit w statement (some (.type ref)) r := by
  -- a name with nothing behind it that belongs to it
  have hbare := afterHead_char limit w o t statement (some (.type ⟨name, none, none⟩))
  have hfound : proceed limit (refuse o.char) o.char t =
      andThen (.error (unexpected (o.char :: t))) fun ref r =>
        afterHead limit w statement (some (.type ref)) r := andThen_unexpected_char.symm
  rw [endAtom, h, Token.ofChar_char, TypeRef.readAfter, nextToken_char_cons]
  cases o with
  | openParen =>
    change read limit ⟨w, .due (.key statement name [])⟩ t = andThen (_ >>= _) _
    rw [read_params, andThen_bind]
    refine andThen_congr fun ps r _ => ?_
    rw [read_pipeline, andThen_bind]
    rfl
  | bar =>
    change read limit ⟨w, .due (.processor ⟨statement, name, none, []⟩)⟩ t = andThen (_ >>= _) _
    -- a bar right behind the name is one behind a list that is not there
    have hbar : read limit ⟨w, .behindList ⟨statement, name, none, []⟩⟩
        (Operator.char .bar :: t) =
        read limit ⟨w, .due (.processor ⟨statement, name, none, []⟩)⟩ t := by
      rw [read_behindList, nextToken_char_cons]
      rfl
    rw [andThen_bind, ← hbar, read_pipeline]
    rfl
  | openBrace => exact hbare.symm
  | closeBrace => exact hbare.symm
  | comma => exact hbare.symm
  | newline => exact hbare.symm
  | _ => exact hfound

/-- Whether a name is a field is decided by its first character. -/
theorem isField_eq {name : String} {c : Char} (h : name.toList.head? = some c) :
    isField name = startsField c := by
  rw [isField, h, Option.any_some]

/-- Reading an origin character by character is reading it at once. -/
theorem read_origin (statement : String) (s : List Char) :
    read limit ⟨w, .due (.origin statement)⟩ s = andThen (Origin.read s) fun origin r =>
      afterHead limit w statement (some origin) r := by
  rw [read_due, Origin.read, andThen_bind]
  refine andThen_congr fun name r hname => ?_
  dsimp only
  cases hc : name.toList.head? with
  | none =>
    -- a name is missing only at the end of the text
    obtain rfl : name = "" := String.toList_eq_nil_iff.1 (List.head?_eq_none_iff.1 hc)
    rcases Grammar.value_eq_ok_iff.1 hname with ha | ⟨-, -, rfl⟩
    · exact absurd rfl ha.ne_empty
    · rfl
  | some c =>
    have hfield := isField_eq hc
    have hne : name ≠ "" := by
      rintro rfl
      cases hc
    dsimp only
    -- the name ends with the text or at an operator, and is a field or a type in both places
    rcases stops_of_value hname with rfl | ⟨o, t, rfl⟩
    · rw [behindAtom, finishAtom, if_neg hne, hfield]
      split
      · rfl
      · rfl
    · rw [behindAtom]
      split <;> rename_i hstarts
      · rw [endAtom, hfield, if_pos hstarts, andThen_ok, afterHead_char]
      · rw [andThen_bind]
        exact read_typeRef statement name (by simpa [hfield] using hstarts)

end FieldMapping.Online
