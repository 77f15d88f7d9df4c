import FieldMapping.Proofs.Online.Literal
import FieldMapping.Proofs.Online.Values
import FieldMapping.Proofs.Statement.Shape
import Mathlib.Data.List.Induction

/-!
# Quotes behind line breaks

A quote opens a literal where a value is due. Two kinds of places are like that. Behind a comma, all
white space may stand in front of the quote. Behind the colon of a parameter and the parenthesis of
an argument list, only blanks may: behind a line break, the quote is a character of a plain value,
which ends at the next operator.

So a value that starts with a quote is a literal, unless it was cut in this way.
`quotedWhole_iff_not_cutsLiteral` says that no other value does it, and that every text in which a
quote stands like this has such a value.

What a text ends with can be told from what is being read behind it (`Mode.Traced`): in particular,
a plain value that starts with a quote stands behind a line break (`traced_of_feed`).
-/

namespace FieldMapping

open Online Text

/-- Every value of `ts` that starts with a quote is a literal. -/
def QuotedWhole (ts : List Statement) : Prop :=
  ∀ text, .scalar text ∈ Statement.values ts → StartsWithQuote text → IsLiteral text

/-- A quote behind `u` opens a literal: it is missed at the end of the text. -/
def OpensLiteral (limit : Nat) (u : String) : Prop :=
  ∃ e, parse (u ++ "\"") limit = .error e ∧ e.cause = .unclosedQuote '"'

/-- In `source`, a line break keeps a quote from opening a literal, and what stands between the
quote and the end of the item is no literal all the same. -/
def CutsLiteral (limit : Nat) (source : String) : Prop :=
  ∃ u blanks run v : String, source = u ++ "\n" ++ blanks ++ run ++ v ∧
    OpensLiteral limit u ∧ ¬ OpensLiteral limit (u ++ "\n") ∧
    (∀ c ∈ blanks.toList, isSpace c = true) ∧ StartsWithQuote run ∧
    (∀ c ∈ run.toList, isOperator c = false) ∧
    (v.toList.head? = some ',' ∨ v.toList.head? = some ')') ∧
    ¬ IsLiteral (String.ofList (trim run.toList))

namespace Online

variable {limit : Nat} {w : Walk} {σ σ' : State} {items : Items} {c : Char} {u : List Char}

/-! ### Where a literal may start -/

/-- A quote opens a literal only where a value is due, behind blanks or behind a comma. -/
theorem next_quote_eq (h : σ.next limit '"' = .ok ⟨w, .literal items '"' []⟩) :
    σ = ⟨w, .value items⟩ ∨ σ = ⟨w, .item items⟩ := by
  obtain ⟨w', m⟩ := σ
  -- everywhere else the quote is refused, ends a literal, or is a character of something longer
  cases m with
  | due role =>
    have hnext : State.next limit ⟨w', .due role⟩ '"' = .ok ⟨w', .atom role ['"']⟩ := rfl
    cases hnext.symm.trans h
  | atom role run =>
    have hnext : State.next limit ⟨w', .atom role run⟩ '"' = .ok ⟨w', .atom role (run ++ ['"'])⟩ :=
      rfl
    cases hnext.symm.trans h
  | value items' =>
    have hnext : State.next limit ⟨w', .value items'⟩ '"' = .ok ⟨w', .literal items' '"' []⟩ := rfl
    cases hnext.symm.trans h
    exact .inl rfl
  | item items' =>
    have hnext : State.next limit ⟨w', .item items'⟩ '"' = .ok ⟨w', .literal items' '"' []⟩ := rfl
    cases hnext.symm.trans h
    exact .inr rfl
  | literal items' q body =>
    -- the quote closes a literal or is one more character of it
    by_cases hq : q = '"'
    · subst hq
      cases next_literal_quote.symm.trans h
    · have hbody := congrArg (fun x => x.map (·.mode)) ((next_literal (Ne.symm hq)).symm.trans h)
      simp [Except.map] at hbody
  | behindValue items' v =>
    have hnext : State.next limit ⟨w', .behindValue items' v⟩ '"' = refuse '"' := rfl
    cases hnext.symm.trans h
  | behindList p =>
    have hnext : State.next limit ⟨w', .behindList p⟩ '"' =
        .ok ⟨w'.add p.statement (some p.origin) false, .atom .name ['"']⟩ := rfl
    cases hnext.symm.trans h
  | behind =>
    have hnext : State.next limit ⟨w', .behind⟩ '"' = .ok ⟨w', .atom .name ['"']⟩ := rfl
    cases hnext.symm.trans h

/-- One more character is taken behind a text. -/
theorem feed_concat (h : feed limit start u = .ok σ) (hc : σ.next limit c = .ok σ') :
    feed limit start (u ++ [c]) = .ok σ' := by
  rw [feed_append, h]
  show feed limit σ [c] = .ok σ'
  rw [feed_cons_ok hc, feed_nil]

/-- A quote opens a literal where a value is due. -/
theorem opensLiteral_iff {u : String} : OpensLiteral limit u ↔ ∃ w items,
    feed limit start u.toList = .ok ⟨w, .value items⟩ ∨
      feed limit start u.toList = .ok ⟨w, .item items⟩ := by
  have hquote : "\"" = String.singleton '"' := rfl
  constructor
  · rintro ⟨e, he, hcause⟩
    rw [hquote] at he
    obtain ⟨w, items, hfeed⟩ := literal_of_parse he hcause
    obtain ⟨σ, hu, hnext⟩ := exists_of_feed_concat hfeed
    refine ⟨w, items, ?_⟩
    rcases next_quote_eq hnext with rfl | rfl
    · exact .inl hu
    · exact .inr hu
  · rintro ⟨w, items, hu⟩
    have hfeed : feed limit start (u ++ "\"").toList = .ok ⟨w, .literal items '"' []⟩ := by
      rw [hquote, String.toList_append, String.toList_singleton]
      rcases hu with hu | hu
      · exact feed_concat hu rfl
      · exact feed_concat hu rfl
    -- the text ends with the literal open
    have hread : read limit start (u ++ "\"").toList = .error (.unclosedQuote '"', []) := by
      rw [read, hfeed]
      rfl
    obtain ⟨e, he, hcause, -⟩ := exists_parse_eq_error hread
    exact ⟨e, he, hcause⟩

/-- Behind a comma, a line break changes nothing. Where it keeps a quote from opening a literal, the
value is due behind a colon or a parenthesis. -/
theorem opensLiteral_not_newline_iff {u : String} :
    OpensLiteral limit u ∧ ¬ OpensLiteral limit (u ++ "\n") ↔
      ∃ w items, feed limit start u.toList = .ok ⟨w, .value items⟩ := by
  have htext : (u ++ "\n").toList = u.toList ++ ['\n'] := by simp
  simp only [opensLiteral_iff, htext]
  constructor
  · rintro ⟨⟨w, items, hu | hu⟩, hno⟩
    · exact ⟨w, items, hu⟩
    · exact absurd ⟨w, items, .inr (feed_concat hu rfl)⟩ hno
  · rintro ⟨w, items, hu⟩
    refine ⟨⟨w, items, .inl hu⟩, ?_⟩
    have hnewline : feed limit start (u.toList ++ ['\n']) = .ok ⟨w, .due (.plain items)⟩ :=
      feed_concat hu rfl
    rintro ⟨w', items', h | h⟩
    · cases hnewline.symm.trans h
    · cases hnewline.symm.trans h

/-! ### What a text ends with -/

/-- The text `u` ends with a line break, white space and `run`, and in front of the line break the
first value of a list is due. -/
def BehindBreak (limit : Nat) (w : Walk) (items : Items) (u run : List Char) : Prop :=
  ∃ u₀ blanks, u = u₀ ++ '\n' :: blanks ++ run ∧ (∀ c ∈ blanks, isSpace c = true) ∧
    feed limit start u₀ = .ok ⟨w, .value items⟩

/-- What the text `u` ends with, where a value is being read behind it. -/
def Mode.Traced (limit : Nat) (w : Walk) (u : List Char) : Mode → Prop
  | .due (.plain items) => BehindBreak limit w items u []
  | .atom (.plain items) run => (∀ c ∈ run, isOperator c = false) ∧
      ∃ c rest, run = c :: rest ∧ isSpace c = false ∧
        (isQuote c = true → BehindBreak limit w items u run)
  | .literal _ q body => isQuote q = true ∧ q ∉ body
  | _ => True

/-- Behind `u`, `x` is a refusal or leads to a state that tells what `u` ends with. -/
def Traces (limit : Nat) (u : List Char) (x : Except Cause State) : Prop :=
  ∀ σ, x = .ok σ → σ.mode.Traced limit σ.walk u

section Traces

/-- A refusal leads to no state. -/
theorem traces_refuse : Traces limit u (refuse c) :=
  fun _ h => nomatch h

/-- A state tells what the text ends with by itself. -/
theorem traces_ok {m : Mode} (h : m.Traced limit w u) : Traces limit u (.ok ⟨w, m⟩) := by
  intro σ hσ
  cases hσ
  exact h

/-- Behind a brace no value is being read. -/
theorem traces_closeBlock : Traces limit u (closeBlock w) := by
  unfold closeBlock
  split
  · exact traces_ok trivial
  · exact traces_refuse

/-- Behind the start of a statement no value is being read. -/
theorem traces_behindHead {name : String} {origin : Option Origin} :
    Traces limit u (behindHead limit w name origin c) := by
  unfold behindHead
  split
  · split
    · exact traces_ok trivial
    · exact fun _ h => nomatch h
  · exact traces_closeBlock
  all_goals exact traces_ok trivial

/-- Behind a pipeline no value is being read. -/
theorem traces_behindPipeline {p : Pipeline} : Traces limit u (behindPipeline limit w p c) := by
  unfold behindPipeline
  split
  · exact traces_ok trivial
  · exact traces_behindHead

/-- Behind the end of an item a value may be due, but none has started. -/
theorem traces_endItem {v : Value} : Traces limit u (endItem w items v c) := by
  unfold endItem
  split
  · refine traces_ok ?_
    cases items <;> exact trivial
  · exact traces_ok trivial
  · exact traces_refuse

/-- Behind an atom, no value is due without a place where a quote opens a literal. -/
theorem traces_endAtom {role : Role} {a : String} :
    Traces limit u (endAtom limit w role a c) := by
  -- only `plain` atoms are traced, and behind the operator none has started
  cases role with
  | name =>
    rw [endAtom]
    split
    · exact traces_ok trivial
    · exact traces_behindHead
  | origin statement =>
    rw [endAtom]
    split
    · exact traces_behindHead
    · split
      · exact traces_ok trivial
      · exact traces_ok trivial
      · split
        · exact traces_behindHead
        · exact traces_refuse
  | key statement type before =>
    rw [endAtom]
    split
    · exact traces_ok trivial
    · exact traces_ok trivial
    · exact traces_refuse
  | plain items =>
    rw [endAtom]
    split
    · exact traces_ok trivial
    · exact traces_endItem
  | index items base =>
    rw [endAtom]
    split
    · exact traces_ok trivial
    · exact traces_refuse
  | processor p =>
    rw [endAtom]
    split
    · exact traces_ok trivial
    · exact traces_behindPipeline

/-- Where quotes open literals, a plain value starts with no quote. -/
theorem traces_startValue (hc : isSpace c = false) : Traces limit u (startValue w items c) := by
  unfold startValue
  split
  · rename_i hq
    exact traces_ok ⟨hq, List.not_mem_nil⟩
  · rename_i hq
    unfold startAtom
    split
    · exact traces_refuse
    · rename_i hop
      refine traces_ok ⟨?_, c, [], rfl, hc, fun h => absurd h hq⟩
      simpa using hop

end Traces

/-- Another character of the run is one more character of the text. -/
theorem BehindBreak.concat {run : List Char} (h : BehindBreak limit w items u run) :
    BehindBreak limit w items (u ++ [c]) (run ++ [c]) := by
  obtain ⟨u₀, blanks, rfl, hblanks, hfeed⟩ := h
  exact ⟨u₀, blanks, by simp, hblanks, hfeed⟩

/-- One more character, and the state still tells what the text ends with. -/
theorem traces_next (hu : feed limit start u = .ok σ) (h : σ.mode.Traced limit σ.walk u) :
    Traces limit (u ++ [c]) (σ.next limit c) := by
  -- an atom that is a value can only start in two modes, one of which stands behind a line break
  obtain ⟨w, m⟩ := σ
  cases m with
  | due role =>
    by_cases hc : isSpace c = true
    · rw [next_due_space hc]
      refine traces_ok ?_
      cases role with
      | plain items =>
        -- white space behind the line break
        obtain ⟨u₀, blanks, rfl, hblanks, hfeed⟩ := h
        refine ⟨u₀, blanks ++ [c], by simp, ?_, hfeed⟩
        intro d hd
        rcases List.mem_append.1 hd with hd | hd
        · exact hblanks d hd
        · rwa [List.mem_singleton.1 hd]
      | _ => exact trivial
    · have hc : isSpace c = false := by simpa using hc
      rw [next_due hc]
      unfold startAtom
      split
      · exact traces_refuse
      · rename_i hop
        refine traces_ok ?_
        cases role with
        | plain items =>
          refine ⟨by simpa using hop, c, [], rfl, hc, fun _ => ?_⟩
          exact BehindBreak.concat h
        | _ => exact trivial
  | atom role run =>
    by_cases hc : isOperator c = true
    · rw [next_atom_operator hc]
      exact traces_endAtom
    · have hc : isOperator c = false := by simpa using hc
      rw [next_atom hc]
      refine traces_ok ?_
      cases role with
      | plain items =>
        obtain ⟨hrun, d, rest, rfl, hd, hbreak⟩ := h
        refine ⟨?_, d, rest ++ [c], rfl, hd, fun hq => (hbreak hq).concat⟩
        intro e he
        rcases List.mem_append.1 he with he | he
        · exact hrun e he
        · rwa [List.mem_singleton.1 he]
      | _ => exact trivial
  | value items =>
    by_cases hblank : isBlank c = true
    · rw [next_of_isBlank rfl hblank]
      exact traces_ok trivial
    · by_cases hline : c = '\n'
      · -- the line break keeps the next quote from opening a literal
        subst hline
        have hnext : State.next limit ⟨w, .value items⟩ '\n' = .ok ⟨w, .due (.plain items)⟩ := rfl
        rw [hnext]
        exact traces_ok ⟨u, [], by simp, by simp, hu⟩
      · have hnext : State.next limit ⟨w, .value items⟩ c = startValue w items c := by
          simp [State.next, hblank, hline]
        rw [hnext]
        refine traces_startValue ?_
        by_contra hspace
        exact hblank (by simpa [isBlank, hline] using hspace)
  | item items =>
    by_cases hc : isSpace c = true
    · rw [next_item_space hc]
      exact traces_ok trivial
    · have hnext : State.next limit ⟨w, .item items⟩ c = startValue w items c := if_neg hc
      rw [hnext]
      exact traces_startValue (by simpa using hc)
  | literal items q body =>
    by_cases hc : c = q
    · subst hc
      rw [next_literal_quote]
      exact traces_ok trivial
    · rw [next_literal hc]
      obtain ⟨hq, hbody⟩ := h
      refine traces_ok ⟨hq, ?_⟩
      simp [hbody, Ne.symm hc]
  | behindValue items v =>
    by_cases hc : isBlank c = true
    · rw [next_of_isBlank rfl hc]
      exact traces_ok trivial
    · rw [next_behindValue (by simpa using hc)]
      exact traces_endItem
  | behindList p =>
    by_cases hc : isBlank c = true
    · rw [next_of_isBlank rfl hc]
      exact traces_ok trivial
    · rw [next_behindList (by simpa using hc)]
      exact traces_behindPipeline
  | behind =>
    by_cases hc : Walk.isSeparating c = true
    · rw [next_behind_separating hc]
      exact traces_ok trivial
    · by_cases hbrace : c = '}'
      · subst hbrace
        rw [next_behind_closeBrace]
        exact traces_closeBlock
      · rw [next_behind (by simpa using hc) hbrace]
        unfold startAtom
        split
        · exact traces_refuse
        · exact traces_ok trivial

/-- The state behind a text tells what the text ends with. -/
theorem traced_of_feed (h : feed limit start u = .ok σ) : σ.mode.Traced limit σ.walk u := by
  -- over the text from its end, since a trace says what the text ends with
  induction u using List.reverseRecOn generalizing σ with
  | nil =>
    cases h
    exact trivial
  | append_singleton u c ih =>
    obtain ⟨σ₀, hu, hnext⟩ := exists_of_feed_concat h
    exact traces_next hu (ih hu) σ hnext

/-! ### The value that a quote starts behind a line break -/

/-- Characters that are no operators go on with an atom. -/
theorem feed_atom {role : Role} {run s : List Char} (h : ∀ c ∈ s, isOperator c = false) :
    feed limit ⟨w, .atom role run⟩ s = .ok ⟨w, .atom role (run ++ s)⟩ := by
  induction s generalizing run with
  | nil => rw [List.append_nil, feed_nil]
  | cons c s ih =>
    rw [feed_cons_ok (next_atom (h c (List.mem_cons_self ..)))]
    rw [ih fun d hd => h d (List.mem_cons_of_mem c hd), List.append_assoc, List.singleton_append]

/-- Behind a line break, a quote and what follows it up to an operator are read as a plain value. -/
theorem feed_break {q : Char} {blanks rest : List Char}
    (hu : feed limit start u = .ok ⟨w, .value items⟩) (hblanks : ∀ c ∈ blanks, isSpace c = true)
    (hq : isQuote q = true) (hrest : ∀ c ∈ rest, isOperator c = false) :
    feed limit start (u ++ '\n' :: blanks ++ q :: rest) =
      .ok ⟨w, .atom (.plain items) (q :: rest)⟩ := by
  -- the line break, the white space behind it and the quote are taken one after the other
  have hline : feed limit start (u ++ ['\n']) = .ok ⟨w, .due (.plain items)⟩ :=
    feed_concat hu rfl
  have hspaces : feed limit start (u ++ ['\n'] ++ blanks) = .ok ⟨w, .due (.plain items)⟩ := by
    rw [feed_append, hline]
    exact feed_of_stays fun c hc => next_due_space (hblanks c hc)
  have hquote : feed limit start (u ++ ['\n'] ++ blanks ++ [q]) =
      .ok ⟨w, .atom (.plain items) [q]⟩ := by
    refine feed_concat hspaces ?_
    rw [next_due (isSpace_of_isQuote hq), startAtom, if_neg (by simp [isOperator_of_isQuote hq])]
  have htext : u ++ '\n' :: blanks ++ q :: rest = u ++ ['\n'] ++ blanks ++ [q] ++ rest := by simp
  rw [htext, feed_append, hquote]
  exact feed_atom hrest

end Online

section Document

open Online

variable {source text : String} {limit : Nat} {ts : List Statement}

/-- A quote that does not open a literal starts a value. -/
theorem exists_value_of_cutsLiteral (h : parse source limit = .ok ts)
    (hcuts : CutsLiteral limit source) :
    ∃ text, .scalar text ∈ Statement.values ts ∧ StartsWithQuote text ∧ ¬ IsLiteral text := by
  obtain ⟨u, blanks, run, v, rfl, hopens, hline, hblanks, hquote, hrun, hv, hcut⟩ := hcuts
  obtain ⟨w, items, hu⟩ := opensLiteral_not_newline_iff.1 ⟨hopens, hline⟩
  -- the run starts with its quote
  obtain ⟨q, rest, hq⟩ : ∃ q rest, run.toList = q :: rest := by
    cases hr : run.toList with
    | nil => simp [StartsWithQuote, hr] at hquote
    | cons q rest => exact ⟨q, rest, rfl⟩
  have hisQuote : isQuote q = true := by simpa [StartsWithQuote, hq] using hquote
  rw [hq] at hrun hcut
  have hfeed := feed_break hu hblanks hisQuote fun c hc => hrun c (List.mem_cons_of_mem q hc)
  -- the operator in front of `v` completes the value
  obtain ⟨c, t, ht, hc⟩ : ∃ c t, v.toList = c :: t ∧ (c = ',' ∨ c = ')') := by
    cases hv' : v.toList with
    | nil => simp [hv'] at hv
    | cons c t => exact ⟨c, t, rfl, by simpa [hv'] using hv⟩
  refine ⟨String.ofList (trim (q :: rest)), ?_, ?_, hcut⟩
  · refine (mem_values_of_parse h).2 ⟨_, c, t, _, ?_, hfeed, ?_⟩
    · simp [hq, ht]
    · exact if_pos hc
  · have hhead : (trim (q :: rest)).head? = some q :=
      head?_trim (by simp [isSpace_of_isQuote hisQuote])
    simp [StartsWithQuote, hhead, hisQuote]

/-- A value that starts with a quote and is no literal comes of a quote that opens none. -/
theorem cutsLiteral_of_value (h : parse source limit = .ok ts)
    (hmem : .scalar text ∈ Statement.values ts) (hquote : StartsWithQuote text)
    (hcut : ¬ IsLiteral text) : CutsLiteral limit source := by
  obtain ⟨u, c, t, ⟨w, m⟩, hsource, hu, hcompleted⟩ := (mem_values_of_parse h).1 hmem
  -- the value was completed by an operator or by a quote, and the state in front of that tells
  -- where it started
  have htraced := traced_of_feed hu
  cases m with
  | atom role run =>
    cases role with
    | plain items =>
      obtain ⟨hrun, q, rest, rfl, hq, hbreak⟩ := htraced
      obtain ⟨hc, htext⟩ : (c = ',' ∨ c = ')') ∧ String.ofList (trim (q :: rest)) = text := by
        simpa [State.completed, Role.completed] using hcompleted
      subst htext
      have hhead : (trim (q :: rest)).head? = some q := head?_trim (by simp [hq])
      have hisQuote : isQuote q = true := by simpa [StartsWithQuote, hhead] using hquote
      -- where no line break stands in front of it, a plain value starts with no quote
      obtain ⟨u₀, blanks, rfl, hblanks, hu₀⟩ := hbreak hisQuote
      have hopens : OpensLiteral limit (String.ofList u₀) ∧
          ¬ OpensLiteral limit (String.ofList u₀ ++ "\n") :=
        opensLiteral_not_newline_iff.2 ⟨w, items, by simpa using hu₀⟩
      refine ⟨String.ofList u₀, String.ofList blanks, String.ofList (q :: rest),
        String.ofList (c :: t), ?_, hopens.1, hopens.2, ?_, ?_, ?_, ?_, ?_⟩
      · rw [← String.toList_inj, hsource]
        simp
      · simpa using hblanks
      · simpa [StartsWithQuote] using hisQuote
      · simpa using hrun
      · simpa using hc
      · simpa using hcut
    | index items base =>
      -- an indexed reference is no scalar
      simp [State.completed, Role.completed] at hcompleted
    | _ => cases hcompleted
  | literal items q body =>
    obtain ⟨hq, hbody⟩ := htraced
    obtain ⟨rfl, htext⟩ : c = q ∧ String.ofList (q :: body ++ [q]) = text := by
      simpa [State.completed] using hcompleted
    -- a value that a quote completes is a literal
    have hliteral : IsLiteral text := ⟨c, body, hq, hbody, by rw [← htext, String.toList_ofList]⟩
    exact absurd hliteral hcut
  | _ => cases hcompleted

/-- In a document, all values that start with a quote are literals exactly if no line break keeps
a quote from opening one. -/
theorem quotedWhole_iff_not_cutsLiteral (h : parse source limit = .ok ts) :
    QuotedWhole ts ↔ ¬ CutsLiteral limit source := by
  constructor
  · intro hwhole hcuts
    obtain ⟨text, hmem, hquote, hcut⟩ := exists_value_of_cutsLiteral h hcuts
    exact hcut (hwhole text hmem hquote)
  · intro hno text hmem hquote
    by_contra hcut
    exact hno (cutsLiteral_of_value h hmem hquote hcut)

/-- A literal on the line below its key is cut at a comma. -/
theorem not_quotedWhole_of_line_break :
    ∃ ts, parse "a: B(x:\n \"p,q\")" 64 = .ok ts ∧ ¬ QuotedWhole ts := by
  have hparse : parse "a: B(x:\n \"p,q\")" 64 = .ok [⟨"a", some (.type ⟨"B",
      some [⟨"x", some (.scalar "\"p")⟩, ⟨"q\"", none⟩], none⟩), none⟩] := by decide +kernel
  refine ⟨_, hparse, fun hwhole => ?_⟩
  have hliteral : IsLiteral "\"p" := hwhole "\"p" (by decide +kernel) (by decide +kernel)
  exact absurd hliteral (by decide +kernel)

/-- Nothing is cut on one line, and nothing behind a comma. -/
theorem quotedWhole_of_one_line : ∃ ts, parse "a: B(x: \"p,q\",\n y: 'r)')" 64 = .ok ts ∧
    QuotedWhole ts ∧ ¬ CutsLiteral 64 "a: B(x: \"p,q\",\n y: 'r)')" := by
  have hparse : parse "a: B(x: \"p,q\",\n y: 'r)')" 64 = .ok [⟨"a", some (.type ⟨"B",
      some [⟨"x", some (.scalar "\"p,q\"")⟩, ⟨"y", some (.scalar "'r)'")⟩], none⟩), none⟩] := by
    decide +kernel
  refine ⟨_, hparse, ?_⟩
  rw [← quotedWhole_iff_not_cutsLiteral hparse, and_self]
  intro text htext hquote
  have hcases : text = "\"p,q\"" ∨ text = "'r)'" := by
    simpa [Origin.values, Param.values] using htext
  rcases hcases with rfl | rfl
  · decide +kernel
  · decide +kernel

end Document

end FieldMapping
