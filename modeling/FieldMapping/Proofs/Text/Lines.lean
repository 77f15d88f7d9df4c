import FieldMapping.Text.Bytes
import FieldMapping.Text.Lines
import Mathlib.Algebra.GroupWithZero.Nat
import Mathlib.Data.List.DropRight

/-!
# Lines of a text

A text consists of the lines that line feeds end (`endedLines`) and of what follows the last line
feed (`lastLine`). No line holds a line feed, so a text that is written line by line has just the
lines that were written (`splitLines_flatMap_append`).

A text that goes on behind `u` has the ended lines of `u`, and its next line begins with the last
line of `u` (`splitLines_append`). That is why the number of ended lines and the length of the last
line tell where `u` ends.
-/

namespace FieldMapping.Text

variable {u v l : List Char} {c : Char}

/-- A character that is no line feed belongs to the first line. -/
theorem splitLines_cons (hc : c ≠ '\n') (s : List Char) :
    splitLines (c :: s) = (splitLines s).modifyHead (c :: ·) := by
  obtain ⟨l, ls, hs⟩ := List.exists_cons_of_ne_nil (splitLines_ne_nil s)
  rw [splitLines, if_neg hc, hs, List.modifyHead_cons]

/-- The lines are what stands between the line feeds. -/
theorem splitLines_eq_splitOn (s : List Char) : splitLines s = s.splitOn '\n' := by
  induction s with
  | nil => rfl
  | cons c s ih =>
    rw [List.splitOn_cons_eq_if_modifyHead, ← ih]
    split <;> rename_i hc
    · rw [beq_iff_eq.1 hc, splitLines_newline]
    · exact splitLines_cons (by simpa using hc) s

/-! ### The last line -/

/-- The last line is the longest end of the text without a line feed. -/
theorem lastLine_eq_rtakeWhile (s : List Char) : lastLine s = s.rtakeWhile (· != '\n') := rfl

@[simp] theorem lastLine_newline (s : List Char) : lastLine (s ++ ['\n']) = [] := by
  rw [lastLine_eq_rtakeWhile, List.rtakeWhile_concat_neg _ _ _ (by simp)]

/-- A character that is no line feed goes to the last line. -/
theorem lastLine_concat (hc : c ≠ '\n') (s : List Char) :
    lastLine (s ++ [c]) = lastLine s ++ [c] := by
  rw [lastLine_eq_rtakeWhile, List.rtakeWhile_concat_pos _ _ _ (by simpa using hc),
    ← lastLine_eq_rtakeWhile]

/-- The last line holds no line feed. -/
theorem newline_not_mem_lastLine (s : List Char) : '\n' ∉ lastLine s := by
  intro h
  rw [lastLine_eq_rtakeWhile] at h
  simpa using List.mem_rtakeWhile_imp h

/-- The last line of a text that does not end with a line feed ends as the text does. -/
theorem getLast?_lastLine {s : List Char} (h : s.getLast? ≠ some '\n') :
    (lastLine s).getLast? = s.getLast? := by
  induction s using List.reverseRecOn with
  | nil => rfl
  | append_singleton s c _ =>
    have hc : c ≠ '\n' := by simpa using h
    rw [lastLine_concat hc, List.getLast?_concat, List.getLast?_concat]

/-! ### The lines before it -/

/-- The lines of `s` that are ended by a line feed, which is left out. -/
def endedLines (s : List Char) : List (List Char) :=
  (splitLines s).dropLast

@[simp] theorem endedLines_nil : endedLines [] = [] := rfl

/-- A text that goes on behind `u` goes on in the last line of `u`. -/
theorem splitLines_append (u v : List Char) :
    splitLines (u ++ v) = endedLines u ++ (splitLines v).modifyHead (lastLine u ++ ·) := by
  induction u using List.reverseRecOn generalizing v with
  | nil =>
    obtain ⟨l, ls, hv⟩ := List.exists_cons_of_ne_nil (splitLines_ne_nil v)
    simp [hv]
  | append_singleton u c ih =>
    obtain ⟨l, ls, hv⟩ := List.exists_cons_of_ne_nil (splitLines_ne_nil v)
    have hended : endedLines (u ++ [c]) =
        (endedLines u ++ (splitLines [c]).modifyHead (lastLine u ++ ·)).dropLast := by
      rw [← ih [c], endedLines]
    rw [List.append_assoc, List.singleton_append, ih, hended]
    -- a line feed ends the last line, and every other character is put to it
    by_cases hc : c = '\n'
    · subst hc
      simp [hv]
    · rw [lastLine_concat hc, splitLines_cons hc, splitLines_cons hc]
      simp [hv]

/-- A text has the lines that are ended, and the last one. -/
theorem splitLines_eq_endedLines_append (s : List Char) :
    splitLines s = endedLines s ++ [lastLine s] := by
  have h := splitLines_append s []
  simpa using h

@[simp] theorem endedLines_newline (s : List Char) :
    endedLines (s ++ ['\n']) = endedLines s ++ [lastLine s] := by
  rw [endedLines, splitLines_append]
  simp

/-- A character that is no line feed ends no line. -/
theorem endedLines_concat (hc : c ≠ '\n') (s : List Char) :
    endedLines (s ++ [c]) = endedLines s := by
  rw [endedLines, splitLines_append, splitLines_cons hc]
  simp

/-- As many lines are ended as the text has line feeds. -/
theorem length_endedLines (s : List Char) : (endedLines s).length = s.count '\n' := by
  induction s using List.reverseRecOn with
  | nil => rfl
  | append_singleton s c ih =>
    by_cases hc : c = '\n'
    · subst hc
      simp [ih]
    · simp [endedLines_concat hc, ih, hc]

/-- A text has the bytes of its lines, and one more for every line feed. -/
theorem byteSize_eq_sum_endedLines_add (s : List Char) :
    byteSize s = ((endedLines s).map (byteSize · + 1)).sum + byteSize (lastLine s) := by
  induction s using List.reverseRecOn with
  | nil => rfl
  | append_singleton s c ih =>
    by_cases hc : c = '\n'
    · subst hc
      have hsize : '\n'.utf8Size = 1 := by decide
      simp [ih, hsize, Nat.add_assoc]
    · simp [endedLines_concat hc, lastLine_concat hc, ih, Nat.add_assoc]

/-! ### Writing lines -/

/-- No ended line holds a line feed. -/
theorem newline_not_mem_of_mem_endedLines {s : List Char} (h : l ∈ endedLines s) : '\n' ∉ l := by
  induction s using List.reverseRecOn with
  | nil => cases h
  | append_singleton s c ih =>
    by_cases hc : c = '\n'
    · subst hc
      rw [endedLines_newline, List.mem_append, List.mem_singleton] at h
      rcases h with h | rfl
      · exact ih h
      · exact newline_not_mem_lastLine s
    · rw [endedLines_concat hc] at h
      exact ih h

/-- Lines that are written one after the other, each but the last with a line feed, are the lines
of what was written. -/
theorem splitLines_flatMap_append {ls : List (List Char)} (hls : ∀ l ∈ ls, '\n' ∉ l)
    (hl : '\n' ∉ l) : splitLines (ls.flatMap (· ++ ['\n']) ++ l) = ls ++ [l] := by
  -- on the lines: the first line feed is the one behind the first of them
  induction ls with
  | nil => rw [List.flatMap_nil, splitLines_eq_splitOn]; exact List.splitOn_eq_singleton hl
  | cons k ls ih =>
    have hk : '\n' ∉ k := hls k (List.mem_cons_self ..)
    have htext : (k :: ls).flatMap (· ++ ['\n']) ++ l =
        k ++ '\n' :: (ls.flatMap (· ++ ['\n']) ++ l) := by simp
    rw [htext, splitLines_eq_splitOn, List.splitOn_append_cons_self_of_not_mem hk,
      ← splitLines_eq_splitOn, ih fun l hl => hls l (List.mem_cons_of_mem k hl), List.cons_append]

end FieldMapping.Text
