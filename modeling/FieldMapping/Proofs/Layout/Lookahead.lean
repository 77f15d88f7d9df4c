import FieldMapping.Proofs.Grammar.Reading
import FieldMapping.Proofs.Layout.Lexeme

/-!
# What comes next in a layout

A reader looks at what comes next behind blanks. In front of a layout of `L`, that is decided by the
first lexemes of `L`, whatever white space the layout chooses:

* if `L` marks the end of an atom (`Delimits`), an operator comes next, or the end of the text
  (`Layout.isOperator_significant`);
* an operator that comes next is a comma, a line feed, or the first operator of `L` (`firstSign`,
  `Layout.sign_cases`).
-/

namespace FieldMapping

open Text Scan Grammar

variable {L : List Lexeme} {s t u w : List Char} {a : String} {o : Operator}

/-! ### White space in front of a layout -/

/-- A part of white space is white space. -/
theorem Spaces.dropWhile {p : Char → Bool} (h : Spaces w) : Spaces (w.dropWhile p) :=
  fun c hc => h c ((List.dropWhile_sublist p).subset hc)

theorem Blanks.dropWhile {p : Char → Bool} (h : Blanks w) : Blanks (w.dropWhile p) :=
  fun c hc => h c ((List.dropWhile_sublist p).subset hc)

/-- Blanks are white space. -/
theorem Blanks.spaces (h : Blanks w) : Spaces w :=
  fun c hc => isSpace_of_isBlank (h c hc)

/-- Only white space in front of a text is dropped, if the text starts with no character of the
class. -/
theorem dropWhile_gap {p : Char → Bool} {v : List Char} {c : Char} (hv : v.head? = some c)
    (hc : p c = false) : (w ++ v ++ s).dropWhile p = w.dropWhile p ++ v ++ s := by
  obtain ⟨v, rfl⟩ := List.head?_eq_some_iff.1 hv
  rw [List.append_assoc, dropWhile_append_stop (by simpa using hc), List.append_assoc]

/-- Blanks in front of a layout can be left out. -/
theorem Layout.significant (h : Layout L s) : Layout L (significant s) := by
  -- in each lexeme but a separator the blanks stand in front of a character that is none
  induction h with
  | nil hw => exact .nil hw.dropWhile
  | @cons x xs u s hx hxs ih =>
    cases x with
    | word a =>
      obtain ⟨ha, w, hw, rfl⟩ := hx
      obtain ⟨c, v, hv, hc, -⟩ := ha.exists_cons
      rw [Scan.significant, dropWhile_gap (by rw [hv]; rfl) (isBlank_of_isSpace hc)]
      exact .cons ⟨ha, _, hw.dropWhile, rfl⟩ hxs
    | literal a behindComma =>
      obtain ⟨ha, w, hw, rfl⟩ := hx
      obtain ⟨c, v, hv, hc, -⟩ := ha.exists_cons
      rw [Scan.significant, dropWhile_gap (by rw [hv]; rfl) (isBlank_of_isSpace hc)]
      exact .cons ⟨ha, _, hw.imp Blanks.dropWhile (And.imp id Spaces.dropWhile), rfl⟩ hxs
    | onNewLine a =>
      obtain ⟨ha, w, hw, hline, rfl⟩ := hx
      obtain ⟨c, v, hv, hc, -⟩ := ha.exists_cons
      rw [Scan.significant, dropWhile_gap (by rw [hv]; rfl) (isBlank_of_isSpace hc)]
      exact .cons ⟨ha, _, hw.dropWhile, mem_dropWhile hline rfl, rfl⟩ hxs
    | sign o =>
      obtain ⟨w, hw, rfl⟩ := hx
      rw [Scan.significant, dropWhile_gap rfl (isBlank_of_isOperator (isOperator_char o))]
      exact .cons ⟨_, hw.dropWhile, rfl⟩ hxs
    | separator required =>
      obtain ⟨hu, hreq⟩ := hx
      rw [Scan.significant, List.dropWhile_append]
      split <;> rename_i hblank
      · -- nothing but blanks, which is no separator where one is required
        refine .cons (u := []) ⟨by simp, fun hr => ?_⟩ ih
        obtain ⟨c, hc, h⟩ := hreq hr
        have hc' := mem_dropWhile (p := isBlank) hc (by rcases h with rfl | rfl <;> rfl)
        simp [List.isEmpty_iff.1 hblank] at hc'
      · refine .cons ⟨fun c hc => hu c ((List.dropWhile_sublist _).subset hc), fun hr => ?_⟩ hxs
        obtain ⟨c, hc, h⟩ := hreq hr
        exact ⟨c, mem_dropWhile hc (by rcases h with rfl | rfl <;> rfl), h⟩

/-- White space in front of a word can be left out. -/
theorem Layout.trimStart_word (h : Layout (.word a :: L) s) :
    ∃ t, trimStart s = a.toList ++ t ∧ Layout L t := by
  obtain ⟨_, t, ⟨ha, w, hw, rfl⟩, ht, rfl⟩ := layout_cons_iff.1 h
  obtain ⟨c, v, hv, hc, -⟩ := ha.exists_cons
  refine ⟨t, ?_, ht⟩
  rw [List.append_assoc, trimStart_append hw, hv]
  exact trimStart_eq_self (by simpa using hc)

/-! ### What comes next in a layout -/

/-- Whether what a sequence of lexemes writes ends a word in front of it. -/
def Delimits : List Lexeme → Prop
  | [] | .sign _ :: _ | .separator true :: _ => True
  | .separator false :: L => Delimits L
  | _ => False

/-- The first operator of a sequence of lexemes, if only separators stand before it. -/
def firstSign : List Lexeme → Option Operator
  | .sign o :: _ => some o
  | .separator _ :: L => firstSign L
  | _ => none

/-- Blanks do not change what comes next. -/
theorem significant_append_of_blanks (hw : Blanks w) :
    Scan.significant (w ++ s) = Scan.significant s :=
  List.dropWhile_append_of_pos hw

/-- The only operator that is white space is the line feed. -/
theorem eq_newline_of_isSpace_char (h : isSpace o.char = true) : o = .newline := by
  cases o <;> first | rfl | cases h

/-- The first lexeme of a layout comes next in it, if it is an operator. -/
theorem layout_sign (h : Layout (.sign o :: L) s) : ∃ t, Sign o s t ∧ Layout L t := by
  obtain ⟨_, t, ⟨w, hw, rfl⟩, ht, rfl⟩ := layout_cons_iff.1 h
  refine ⟨t, sign_iff.2 ?_, ht⟩
  rw [List.append_assoc, significant_append_of_blanks hw]
  exact dropWhile_eq_self (by simpa using isBlank_of_isOperator (isOperator_char o))

/-- Behind blanks, what ends a word is an operator or the end of the text. -/
theorem Layout.isOperator_significant (h : Layout L s) (hL : Delimits L) :
    ∀ c ∈ (Scan.significant s).head?, isOperator c = true := by
  -- on the layout: separators that need not be there are looked through
  induction h with
  | @nil w hw =>
    -- white space that is no blank is a line feed
    intro c hc
    obtain ⟨v, hv⟩ := List.head?_eq_some_iff.1 hc
    obtain ⟨w', rfl, -, hblank⟩ := dropWhile_eq_iff.1 hv
    have hspace := hw c (by simp)
    obtain rfl : c = '\n' := by simpa [isBlank, hspace] using hblank c rfl
    rfl
  | @cons x xs u s hx hxs ih =>
    cases x with
    | word a => cases hL
    | literal a behindComma => cases hL
    | onNewLine a => cases hL
    | sign o =>
      obtain ⟨t, ht, -⟩ := layout_sign (.cons hx hxs)
      rw [sign_iff.1 ht]
      simp
    | separator required =>
      rcases separator_cases hx.1 with hu | ⟨o, v, -, hv⟩
      · rw [significant_append_of_blanks hu]
        cases required with
        | false => exact ih hL
        | true =>
          -- a required separator does not consist of blanks
          obtain ⟨c, hc, h⟩ := hx.2 rfl
          have := hu c hc
          rcases h with rfl | rfl <;> cases this
      · rw [significant_append_of_eq_cons hv]
        simp

/-- In front of an atom or a literal, the only operator that can come next is a line feed of the
gap. -/
theorem eq_newline_of_sign_gap {v : List Char} {c : Char} (hw : Spaces w) (hv : v.head? = some c)
    (hspace : isSpace c = false) (hc : isOperator c = false) (h : Sign o (w ++ v ++ s) t) :
    o = .newline := by
  rw [sign_iff, Scan.significant, dropWhile_gap hv (isBlank_of_isSpace hspace)] at h
  obtain ⟨v, rfl⟩ := List.head?_eq_some_iff.1 hv
  -- the operator is the first character of the gap that is no blank
  cases hw' : w.dropWhile isBlank with
  | nil =>
    rw [hw'] at h
    obtain ⟨rfl, -⟩ := List.cons.inj h
    simp at hc
  | cons d w' =>
    rw [hw'] at h
    obtain ⟨rfl, -⟩ := List.cons.inj h
    exact eq_newline_of_isSpace_char (hw.dropWhile (p := isBlank) _ (by rw [hw']; simp))

/-- An operator that comes next in a layout is the first of its lexemes, or it separates. -/
theorem Layout.sign_cases (h : Layout L s) (ho : Sign o s t) :
    o = .comma ∨ o = .newline ∨ firstSign L = some o := by
  induction h with
  | @nil w hw =>
    -- behind the last lexeme, only white space can hold an operator
    rw [sign_iff] at ho
    refine .inr (.inl (eq_newline_of_isSpace_char (hw.dropWhile (p := isBlank) _ ?_)))
    rw [show w.dropWhile isBlank = _ from ho]
    simp
  | @cons x xs u s hx hxs ih =>
    cases x with
    | word a =>
      obtain ⟨ha, w, hw, rfl⟩ := hx
      obtain ⟨c, v, hv, hspace, hc⟩ := ha.exists_cons
      exact .inr (.inl (eq_newline_of_sign_gap hw (by rw [hv]; rfl) hspace hc ho))
    | literal a behindComma =>
      obtain ⟨ha, w, hw, rfl⟩ := hx
      obtain ⟨c, v, hv, hspace, hc⟩ := ha.exists_cons
      have hw : Spaces w := hw.elim Blanks.spaces And.right
      exact .inr (.inl (eq_newline_of_sign_gap hw (by rw [hv]; rfl) hspace hc ho))
    | onNewLine a =>
      obtain ⟨ha, w, hw, -, rfl⟩ := hx
      obtain ⟨c, v, hv, hspace, hc⟩ := ha.exists_cons
      exact .inr (.inl (eq_newline_of_sign_gap hw (by rw [hv]; rfl) hspace hc ho))
    | sign o' =>
      obtain ⟨t', ht', -⟩ := layout_sign (.cons hx hxs)
      exact .inr (.inr (by rw [(ho.unique ht').1]; rfl))
    | separator required =>
      -- the operator is in the separator, or the separator is blank and it comes behind
      rcases separator_cases hx.1 with hu | ⟨o', v, ho', hv⟩
      · refine ih ?_
        rwa [sign_iff, significant_append_of_blanks hu, ← sign_iff] at ho
      · have ho'' : Sign o' (u ++ s) (v ++ s) := sign_iff.2 (significant_append_of_eq_cons hv)
        obtain ⟨rfl, -⟩ := ho.unique ho''
        exact ho'.imp id .inl

/-- An operator that separates nothing comes next only where it is the first of the lexemes. -/
theorem not_sign_of_firstSign (h : Layout L s) (hL : firstSign L ≠ some o)
    (ho : o ∉ [Operator.comma, .newline] := by decide) : ∀ t, ¬ Sign o s t := by
  intro t hsign
  rcases h.sign_cases hsign with rfl | rfl | hfirst
  · simp at ho
  · simp at ho
  · exact hL hfirst

end FieldMapping
