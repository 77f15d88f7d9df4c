import FieldMapping.Proofs.Grammar.Reading
import FieldMapping.Proofs.Session.Leaving

/-!
# Loops that get on

Reading repeats itself in lists of parameters, arguments and processors, and between two statements,
where it takes one separator after the other. A round that another one follows has taken at least
one byte (`Advances`), so no more rounds are needed than there are bytes left, and one for the last
round.

For lists this is the duty of an item reader, and `ItemReader.readWithin`, which reads a list in a
bounded number of rounds, reads what `ItemReader.readAll` does (`readWithin_eq`). For separators it
is `exists_separators_of_isSeparator`; taking them one by one leads to the same place as skipping
them in one go (`significant_skipSeparators`).
-/

namespace FieldMapping

open Text Scan Grammar

variable {s t r : List Char}

/-! ### Getting on -/

/-- Reading that starts at `s` and leaves `r` has taken at least one byte. -/
def Advances (s r : List Char) : Prop :=
  ∃ taken, s = taken ++ r ∧ 1 ≤ byteSize taken

/-- Every character has a byte at least. -/
theorem length_le_byteSize (s : List Char) : s.length ≤ byteSize s := by
  induction s with
  | nil => exact le_rfl
  | cons c s ih =>
    have hc : 0 < c.utf8Size := c.utf8Size_pos
    rw [List.length_cons, byteSize_cons]
    omega

/-- Taking a byte is taking a character from the front of the text. -/
theorem advances_iff : Advances s r ↔ r <:+ s ∧ r.length < s.length := by
  constructor
  · rintro ⟨taken, rfl, hsize⟩
    refine ⟨List.suffix_append _ _, ?_⟩
    -- no byte is taken without a character
    cases taken with
    | nil => exact absurd hsize (by simp)
    | cons c taken => simp only [List.length_append, List.length_cons]; omega
  · rintro ⟨⟨taken, rfl⟩, hlength⟩
    refine ⟨taken, rfl, le_trans ?_ (length_le_byteSize taken)⟩
    rw [List.length_append] at hlength
    omega

namespace Advances

/-- What is left is an end of the text. -/
theorem suffix (h : Advances s r) : r <:+ s :=
  (advances_iff.1 h).1

/-- Fewer bytes are left. -/
theorem byteSize_lt (h : Advances s r) : byteSize r < byteSize s := by
  obtain ⟨taken, rfl, hsize⟩ := h
  rw [byteSize_append]
  omega

/-- What takes something and then goes on has taken something. -/
theorem trans_suffix (h : Advances s t) (hr : r <:+ t) : Advances s r := by
  obtain ⟨hs, hlength⟩ := advances_iff.1 h
  exact advances_iff.2 ⟨hr.trans hs, hr.length_le.trans_lt hlength⟩

end Advances

/-! ### Lists of items -/

/-- A list of items, read in at most `n` rounds; nothing if they do not suffice. -/
def ItemReader.readWithin {α : Type} (item : ItemReader α) :
    Nat → List Char → Option (Except Fault (List α × List Char))
  | 0, _ => none
  | n + 1, s =>
    match item.read s with
    | .error f => some (.error f)
    | .ok ((a, false), r) => some (.ok ([a], r))
    | .ok ((a, true), r) => (item.readWithin n r).map fun x => do
      let (as, r) ← x
      .ok (a :: as, r)

/-- More rounds than there are characters are enough for a list. -/
theorem ItemReader.readWithin_eq {α : Type} {item : ItemReader α} {n : Nat} (h : s.length < n) :
    item.readWithin n s = some (item.readAll s) := by
  induction n generalizing s with
  | zero => exact absurd h (Nat.not_lt_zero _)
  | succ n ih =>
    unfold readWithin
    split <;> rename_i hread
    · rw [readAll_of_error hread]
    · rw [readAll_of_last hread]
    · -- another round follows, with fewer characters left
      have hlength := item.length_lt hread
      rw [readAll_of_more hread, ih (by omega)]
      rfl

/-- A reader that never goes back gets on with every item that another one follows. -/
theorem ItemReader.advances {α : Type} (item : ItemReader α) {a : α}
    (hitem : ∀ s, Leaves s (item.read s)) (h : item.read s = .ok ((a, true), r)) :
    Advances s r := by
  have hleaves := hitem s
  rw [h] at hleaves
  exact advances_iff.2 ⟨hleaves, item.length_lt h⟩

/-- A comma between two items is taken with the value behind it. -/
theorem advances_of_itemEnd {v : Value} (hend : itemEnd s = .ok (true, t))
    (hv : Value.read t = .ok (v, r)) : Advances s r := by
  have hleaves := leaves_itemEnd s
  have hread := leaves_read t
  rw [hend] at hleaves
  rw [hv] at hread
  exact (advances_iff.2 ⟨hleaves, length_itemEnd_lt hend⟩).trans_suffix hread

/-! ### Separators -/

/-- A separator is taken with the white space around it. -/
theorem exists_separators_of_isSeparator (h : (peekToken s).isSeparator = true) :
    ∃ taken, s = taken ++ (nextToken s).2 ∧ 1 ≤ byteSize taken ∧
      ∀ c ∈ taken, Walk.isSeparating c = true := by
  obtain ⟨o, ho, ht⟩ : ∃ o, (o = Operator.comma ∨ o = .newline) ∧
      nextToken s = (.operator o, (nextToken s).2) := by
    rw [← nextToken_fst] at h
    rcases Bool.or_eq_true_iff.1 h with h | h
    · exact ⟨.comma, .inl rfl, Prod.ext (of_decide_eq_true h) rfl⟩
    · exact ⟨.newline, .inr rfl, Prod.ext (of_decide_eq_true h) rfl⟩
  -- blanks, the separator, and white space behind it if it is a comma
  obtain ⟨r, ⟨blanks, hs, hblanks, -⟩, hr⟩ := nextToken_eq_operator_iff.1 ht
  obtain ⟨space, hspace, hspaces⟩ : ∃ space, r = space ++ (nextToken s).2 ∧
      ∀ c ∈ space, isSpace c = true := by
    rw [hr]
    split
    · exact exists_eq_append_trimStart r
    · exact ⟨[], rfl, by simp⟩
  have hchar : Walk.isSeparating o.char = true := by
    rcases ho with rfl | rfl <;> rfl
  refine ⟨blanks ++ o.char :: space, by rw [List.append_assoc, List.cons_append, ← hspace, ← hs],
    ?_, ?_⟩
  · have := o.char.utf8Size_pos
    rw [byteSize_append, byteSize_cons]
    omega
  · intro c hc
    rcases List.mem_append.1 hc with hc | hc
    · exact isSeparating_of_isSpace (isSpace_of_isBlank (hblanks c hc))
    · rcases List.mem_cons.1 hc with rfl | hc
      · exact hchar
      · exact isSeparating_of_isSpace (hspaces c hc)

/-- Taking a separator takes something. -/
theorem advances_of_isSeparator (h : (peekToken s).isSeparator = true) :
    Advances s (nextToken s).2 := by
  obtain ⟨taken, hs, hsize, -⟩ := exists_separators_of_isSeparator h
  exact ⟨taken, hs, hsize⟩

/-- `s` behind the separators that come next in it, which are taken one by one. -/
def skipSeparators (s : List Char) : List Char :=
  if _h : (peekToken s).isSeparator = true then skipSeparators (nextToken s).2 else s
termination_by byteSize s
decreasing_by exact (advances_of_isSeparator _h).byteSize_lt

/-- At most `n` rounds of `skipSeparators`, the last look included; nothing if they do not
suffice. -/
def skipWithin : Nat → List Char → Option (List Char)
  | 0, _ => none
  | n + 1, s =>
    if (peekToken s).isSeparator = true then skipWithin n (nextToken s).2 else some s

/-- More rounds than there are bytes are enough for the separators. -/
theorem skipWithin_eq {n : Nat} (h : byteSize s < n) :
    skipWithin n s = some (skipSeparators s) := by
  induction n generalizing s with
  | zero => exact absurd h (Nat.not_lt_zero _)
  | succ n ih =>
    unfold skipWithin skipSeparators
    split
    · rename_i hsep
      have hlt := (advances_of_isSeparator hsep).byteSize_lt
      exact ih (by omega)
    · rfl

/-- What is left behind separators is an end of the text. -/
theorem skipSeparators_suffix (s : List Char) : skipSeparators s <:+ s := by
  fun_induction skipSeparators s with
  | case1 s h ih => exact ih.trans (advances_of_isSeparator h).suffix
  | case2 s h => exact List.suffix_rfl

/-- Separators that are taken one by one are those that a pass skips in one go. -/
theorem significant_skipSeparators (s : List Char) :
    significant (skipSeparators s) = s.dropWhile Walk.isSeparating := by
  fun_induction skipSeparators s with
  | case1 s h ih =>
    obtain ⟨taken, hs, -, htaken⟩ := exists_separators_of_isSeparator h
    have hskip : s.dropWhile Walk.isSeparating = (nextToken s).2.dropWhile Walk.isSeparating :=
      (congrArg (List.dropWhile _) hs).trans (List.dropWhile_append_of_pos htaken)
    rw [ih, hskip]
  | case2 s h =>
    -- only blanks stand in front of what comes next
    obtain ⟨blanks, hs, hblanks, hnext⟩ := dropWhile_eq_iff.1 (rfl : significant s = _)
    symm
    refine dropWhile_eq_iff.2 ⟨blanks, hs, ?_, ?_⟩
    · exact fun c hc => isSeparating_of_isSpace (isSpace_of_isBlank (hblanks c hc))
    · intro c hc
      have hblank : isBlank c = false := hnext c hc
      obtain ⟨r, hr⟩ := List.head?_eq_some_iff.1 hc
      have hpeek : peekToken s = Token.ofChar c := by rw [peekToken, hr, Token.ofHead_cons]
      rw [hpeek] at h
      by_contra hsep
      rw [Bool.not_eq_false, Walk.isSeparating, Bool.or_eq_true, beq_iff_eq] at hsep
      rcases hsep with hspace | rfl
      · -- white space that is no blank is a line feed
        obtain rfl : c = '\n' := by simpa [isBlank, hspace] using hblank
        exact h rfl
      · exact h rfl

end FieldMapping
