import FieldMapping.Text.Space
import FieldMapping.Token
import Mathlib.Data.List.TakeWhile

/-!
# Longest runs and trimming

A longest run of characters is described by what it takes and where it stops
(`dropWhile_eq_iff`), and trimming by the white space it takes away at the two ends
(`exists_eq_append_trim`). White space that stands around a text does not change what is left of it
(`trim_append_append`), so trimming twice is trimming once.
-/

namespace FieldMapping.Text

variable {p : Char → Bool} {s r u w a b : List Char}

/-! ### Classes of characters -/

theorem isBlank_of_isSpace {c : Char} (h : isSpace c = false) : isBlank c = false := by
  simp [isBlank, h]

/-- No operator is a blank: the line feed, which is white space, is none. -/
theorem isBlank_of_isOperator {c : Char} (h : isOperator c = true) : isBlank c = false := by
  obtain ⟨o, rfl⟩ := isOperator_eq_true_iff.1 h
  cases o <;> rfl

/-- No blank is an operator. -/
theorem isOperator_of_isBlank {c : Char} (h : isBlank c = true) : isOperator c = false := by
  by_contra hc
  simp [isBlank_of_isOperator (Bool.not_eq_false _ ▸ hc)] at h

/-- No quote is white space. -/
theorem isSpace_of_isQuote {c : Char} (h : isQuote c = true) : isSpace c = false := by
  simp only [isQuote, Bool.or_eq_true, beq_iff_eq] at h
  rcases h with rfl | rfl <;> rfl

/-! ### Longest runs -/

/-- A text that starts with no character of a class has no run of that class to drop. -/
theorem dropWhile_eq_self (h : ∀ c ∈ r.head?, p c = false) : r.dropWhile p = r := by
  cases r with
  | nil => rfl
  | cons c r => exact List.dropWhile_cons_of_neg (by simpa using h c rfl)

/-- What is left behind the longest run is told by a run in front of it that cannot go on. -/
theorem dropWhile_eq_iff : s.dropWhile p = r ↔
    ∃ u, s = u ++ r ∧ (∀ c ∈ u, p c = true) ∧ ∀ c ∈ r.head?, p c = false := by
  constructor
  · rintro rfl
    refine ⟨s.takeWhile p, (List.takeWhile_append_dropWhile).symm,
      fun c hc => List.mem_takeWhile_imp hc, fun c hc => ?_⟩
    have h := List.head?_dropWhile_not p s
    rw [Option.mem_def.1 hc] at h
    simpa using h
  · rintro ⟨u, rfl, hu, hr⟩
    rw [List.dropWhile_append_of_pos hu, dropWhile_eq_self hr]

/-- A run that cannot go on is the longest. -/
theorem takeWhile_append_eq (hu : ∀ c ∈ u, p c = true) (hr : ∀ c ∈ r.head?, p c = false) :
    (u ++ r).takeWhile p = u := by
  rw [List.takeWhile_append_of_pos hu]
  cases r with
  | nil => simp
  | cons c r => simp [hr c rfl]

/-- Behind a run that cannot go on stands what is left. -/
theorem dropWhile_append_eq (hu : ∀ c ∈ u, p c = true) (hr : ∀ c ∈ r.head?, p c = false) :
    (u ++ r).dropWhile p = r :=
  dropWhile_eq_iff.2 ⟨u, rfl, hu, hr⟩

/-- Dropping stops at the latest where a text starts with no character of the class. -/
theorem dropWhile_append_stop (h : ∀ c ∈ r.head?, p c = false) :
    (u ++ r).dropWhile p = u.dropWhile p ++ r := by
  rw [List.dropWhile_append]
  split <;> rename_i hu
  · rw [List.isEmpty_iff.1 hu, dropWhile_eq_self h, List.nil_append]
  · rfl

/-- A character that is not of the class is not dropped. -/
theorem mem_dropWhile {c : Char} (h : c ∈ s) (hc : p c = false) : c ∈ s.dropWhile p := by
  rw [← List.takeWhile_append_dropWhile (p := p) (l := s), List.mem_append] at h
  refine h.resolve_left fun h => ?_
  simp [List.mem_takeWhile_imp h] at hc

/-! ### The two ends -/

/-- White space in front of a text is trimmed from its start. -/
theorem trimStart_append (hw : ∀ c ∈ w, isSpace c = true) : trimStart (w ++ s) = trimStart s :=
  List.dropWhile_append_of_pos hw

/-- White space behind a text is trimmed from its end. -/
theorem trimEnd_append (hb : ∀ c ∈ b, isSpace c = true) : trimEnd (s ++ b) = trimEnd s := by
  unfold trimEnd
  rw [List.reverse_append, List.dropWhile_append_of_pos (by simpa using hb)]

/-- Trimming the start takes white space away and nothing else. -/
theorem exists_eq_append_trimStart (s : List Char) :
    ∃ w, s = w ++ trimStart s ∧ ∀ c ∈ w, isSpace c = true := by
  obtain ⟨w, hs, hw, -⟩ := dropWhile_eq_iff.1 (rfl : s.dropWhile isSpace = _)
  exact ⟨w, hs, hw⟩

/-- Trimming the end takes white space away and nothing else. -/
theorem exists_eq_append_trimEnd (s : List Char) :
    ∃ b, s = trimEnd s ++ b ∧ ∀ c ∈ b, isSpace c = true := by
  obtain ⟨w, hs, hw⟩ := exists_eq_append_trimStart s.reverse
  refine ⟨w.reverse, ?_, by simpa using hw⟩
  have h := congrArg List.reverse hs
  rw [List.reverse_reverse, List.reverse_append] at h
  exact h

theorem trimStart_eq_self (h : ∀ c ∈ s.head?, isSpace c = false) : trimStart s = s :=
  dropWhile_eq_self h

/-- A text whose start is trimmed does not start with white space. -/
theorem isSpace_of_mem_head?_trimStart {c : Char} (h : c ∈ (trimStart s).head?) :
    isSpace c = false := by
  obtain ⟨r, hr⟩ := List.head?_eq_some_iff.1 h
  exact isSpace_of_trimStart_eq_cons hr

/-! ### Trimming -/

/-- Nothing is left of a text if it is nothing but white space. -/
theorem trim_eq_nil_iff : trim s = [] ↔ ∀ c ∈ s, isSpace c = true := by
  constructor
  · intro h
    obtain ⟨w, hs, hw⟩ := exists_eq_append_trimStart s
    obtain ⟨b, hb, hb'⟩ := exists_eq_append_trimEnd (trimStart s)
    rw [show trimEnd (trimStart s) = [] from h, List.nil_append] at hb
    rw [hs, hb]
    intro c hc
    rcases List.mem_append.1 hc with hc | hc
    · exact hw c hc
    · exact hb' c hc
  · intro h
    have hs : trimStart s = [] := List.dropWhile_eq_nil_iff.2 h
    rw [trim, hs, trimEnd_nil]

/-- White space around a text is trimmed away. -/
theorem trim_append_append (hw : ∀ c ∈ w, isSpace c = true) (hb : ∀ c ∈ b, isSpace c = true) :
    trim (w ++ a ++ b) = trim a := by
  rw [trim, trim, List.append_assoc, trimStart_append hw]
  -- if `a` is white space, nothing is left of either; if not, its own start stops the trimming
  by_cases ha : ∀ c ∈ a, isSpace c = true
  · have h : ∀ c ∈ a ++ b, isSpace c = true := by
      intro c hc
      exact (List.mem_append.1 hc).elim (ha c) (hb c)
    rw [show trimStart (a ++ b) = [] from List.dropWhile_eq_nil_iff.2 h,
      show trimStart a = [] from List.dropWhile_eq_nil_iff.2 ha]
  · have h : trimStart (a ++ b) = trimStart a ++ b := by
      have hne : trimStart a ≠ [] := fun h => ha (List.dropWhile_eq_nil_iff.1 h)
      simp only [trimStart, List.dropWhile_append] at hne ⊢
      simp [hne]
    rw [h, trimEnd_append hb]

/-- Trimming takes away nothing but white space at the two ends. -/
theorem exists_eq_append_trim (s : List Char) : ∃ w b, s = w ++ trim s ++ b ∧
    (∀ c ∈ w, isSpace c = true) ∧ ∀ c ∈ b, isSpace c = true := by
  obtain ⟨w, hs, hw⟩ := exists_eq_append_trimStart s
  obtain ⟨b, hb, hb'⟩ := exists_eq_append_trimEnd (trimStart s)
  refine ⟨w, b, ?_, hw, hb'⟩
  rw [List.append_assoc, trim, ← hb]
  exact hs

@[simp] theorem trim_trim (s : List Char) : trim (trim s) = trim s := by
  obtain ⟨w, b, hs, hw, hb⟩ := exists_eq_append_trim s
  have h := trim_append_append (a := trim s) hw hb
  rw [← hs] at h
  exact h.symm

/-- A trimmed text does not start with white space. -/
theorem isSpace_of_mem_head?_trim {c : Char} (h : c ∈ (trim s).head?) : isSpace c = false := by
  obtain ⟨b, hb, -⟩ := exists_eq_append_trimEnd (trimStart s)
  refine isSpace_of_mem_head?_trimStart (s := s) ?_
  obtain ⟨r, hr⟩ := List.head?_eq_some_iff.1 h
  rw [hb, show trimEnd (trimStart s) = c :: r from hr]
  rfl

/-- Trimming brings no character in. -/
theorem mem_of_mem_trim {c : Char} (h : c ∈ trim s) : c ∈ s := by
  obtain ⟨w, b, hs, -, -⟩ := exists_eq_append_trim s
  rw [hs]
  simp [h]

/-- What starts with no white space starts as its trimmed text does. -/
theorem head?_trim (h : ∀ c ∈ s.head?, isSpace c = false) : (trim s).head? = s.head? := by
  cases s with
  | nil => rfl
  | cons c s =>
    have hc : isSpace c = false := h c rfl
    have hne : trim (c :: s) ≠ [] := by
      intro ht
      have := trim_eq_nil_iff.1 ht c (List.mem_cons_self ..)
      simp [hc] at this
    obtain ⟨b, hb, -⟩ := exists_eq_append_trimEnd (trimStart (c :: s))
    obtain ⟨d, r, hd⟩ := List.exists_cons_of_ne_nil hne
    rw [show trimEnd (trimStart (c :: s)) = d :: r from hd, trimStart_eq_self h] at hb
    rw [hd, hb]
    rfl

/-- Trimming takes no visible character away. -/
theorem filter_trim (s : List Char) :
    (trim s).filter (!isSpace ·) = s.filter (!isSpace ·) := by
  obtain ⟨w, b, hs, hw, hb⟩ := exists_eq_append_trim s
  have hnone : ∀ t : List Char, (∀ c ∈ t, isSpace c = true) → t.filter (!isSpace ·) = [] := by
    intro t ht
    exact List.filter_eq_nil_iff.2 fun c hc => by simp [ht c hc]
  calc (trim s).filter (!isSpace ·)
    _ = (w ++ trim s ++ b).filter (!isSpace ·) := by
      rw [List.filter_append, List.filter_append, hnone w hw, hnone b hb, List.nil_append,
        List.append_nil]
    _ = s.filter (!isSpace ·) := by rw [← hs]

/-- A character in front of a text is trimmed away if it is white space, and seen otherwise. -/
theorem trim_cons_eq_iff {c : Char} : trim (c :: s) = trim s ↔ isSpace c = true := by
  constructor
  · intro h
    by_contra hc
    have hfilter := congrArg (List.filter (!isSpace ·)) h
    rw [filter_trim, filter_trim, List.filter_cons_of_pos (by simpa using hc)] at hfilter
    exact List.cons_ne_self c _ hfilter
  · intro hc
    have h := trim_append_append (w := [c]) (a := s) (b := []) (by simpa using hc) (by simp)
    simpa using h

/-- A text is not longer when it is trimmed. -/
theorem length_trim_le (s : List Char) : (trim s).length ≤ s.length := by
  obtain ⟨w, b, hs, -, -⟩ := exists_eq_append_trim s
  have hlength := congrArg List.length hs
  simp only [List.length_append] at hlength
  omega

/-! ### The last visible character -/

/-- The last character of `s` that is no white space. -/
def lastVisible (s : List Char) : Option Char :=
  (trimEnd s).getLast?

/-- The last visible character is the first one that is seen from the end. -/
theorem lastVisible_eq (s : List Char) :
    lastVisible s = (s.reverse.dropWhile isSpace).head? := by
  rw [lastVisible, trimEnd, List.getLast?_reverse]

/-- White space behind a text does not change its last visible character. -/
theorem lastVisible_append_space (hw : ∀ c ∈ w, isSpace c = true) :
    lastVisible (s ++ w) = lastVisible s := by
  rw [lastVisible, trimEnd_append hw, lastVisible]

/-- A visible character at the end is the last one. -/
theorem lastVisible_concat {c : Char} (hc : isSpace c = false) :
    lastVisible (s ++ [c]) = some c := by
  simp [lastVisible_eq, hc]

/-- The last visible character of a text is that of its end, if its end has one. -/
theorem lastVisible_append (u s : List Char) :
    lastVisible (u ++ s) = (lastVisible s).or (lastVisible u) := by
  simp only [lastVisible_eq, ← List.find?_not_eq_head?_dropWhile, List.reverse_append,
    List.find?_append]

/-- Only white space has no visible character. -/
theorem lastVisible_eq_none_iff : lastVisible s = none ↔ ∀ c ∈ s, isSpace c = true := by
  simp [lastVisible_eq, ← List.find?_not_eq_head?_dropWhile]

/-- A trimmed text ends with the last visible character. -/
theorem getLast?_trim (s : List Char) : (trim s).getLast? = lastVisible s := by
  obtain ⟨w, hs, hw⟩ := exists_eq_append_trimStart s
  calc (trim s).getLast? = lastVisible (trimStart s) := rfl
    _ = lastVisible (w ++ trimStart s) := by
      rw [lastVisible_append, lastVisible_eq_none_iff.2 hw, Option.or_none]
    _ = lastVisible s := by rw [← hs]

/-- A trimmed text does not end with white space. -/
theorem isSpace_of_mem_getLast?_trim {c : Char} (h : c ∈ (trim s).getLast?) :
    isSpace c = false := by
  rw [getLast?_trim, lastVisible_eq, ← List.find?_not_eq_head?_dropWhile] at h
  simpa using List.find?_some h

end FieldMapping.Text
