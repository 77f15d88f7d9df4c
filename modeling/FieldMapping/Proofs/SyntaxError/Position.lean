import FieldMapping.Proofs.Text.Boundaries
import FieldMapping.Proofs.Text.Lines
import FieldMapping.SyntaxError
import Mathlib.Data.Prod.Lex

/-!
# Positions and offsets

A report gives the place of an error twice, as an offset in bytes and as a line and a column. The
offset is a boundary between characters, the last one that the requested offset and the end of the
text allow. A reader who counts lines, and characters of a line, finds the same place
(`Position.offset?`), so neither form says more than the other, and both have the same order.
-/

namespace FieldMapping

open Text

namespace Text

variable {w : List Char}

/-! ### The place of a position -/

/-- The offset of the place that a reader of `s` calls `p`: it lies behind the lines before its own,
with their line feeds, and behind the characters before it on its own line. There is none if `s` has
no such line, or the line no such column. -/
def Position.offset? (s : List Char) : Position → Option Nat
  | ⟨line + 1, column + 1⟩ => do
    let l ← (splitLines s)[line]?
    guard (column ≤ l.length)
    return (((splitLines s).take line).map (byteSize · + 1)).sum + byteSize (l.take column)
  | _ => none

/-- A position is found again in every text that goes on behind it. -/
theorem Position.offset?_after (u v : List Char) :
    (Position.after u).offset? (u ++ v) = some (byteSize u) := by
  obtain ⟨l, ls, hv⟩ := List.exists_cons_of_ne_nil (splitLines_ne_nil v)
  -- the position is on the last line of `u`, which goes on with what `v` starts with
  have hlines : splitLines (u ++ v) = endedLines u ++ (lastLine u ++ l) :: ls := by
    rw [splitLines_append, hv, List.modifyHead_cons]
  have hlength := length_endedLines u
  have hline : (splitLines (u ++ v))[u.count '\n']? = some (lastLine u ++ l) := by
    simp [hlines, ← hlength]
  have hbefore : (splitLines (u ++ v)).take (u.count '\n') = endedLines u := by
    simp [hlines, ← hlength]
  simp [Position.after, Position.offset?, hline, hbefore, byteSize_eq_sum_endedLines_add u]

example : (Position.mk 2 5).offset? "a: B,\nc: D)".toList = some 10 := by decide

/-! ### The order of positions -/

/-- Positions are in reading order: by line, and by column within a line. -/
instance : Preorder Position :=
  Preorder.lift fun p => toLex (p.line, p.column)

/-- A position comes before another if its line does, or if it comes earlier on the same line. -/
theorem Position.lt_iff {p q : Position} :
    p < q ↔ p.line < q.line ∨ p.line = q.line ∧ p.column < q.column :=
  Prod.Lex.toLex_lt_toLex

/-- Behind one more character, the position is a later one: the next column or the next line. -/
theorem Position.after_lt_concat (s : List Char) (c : Char) :
    Position.after s < Position.after (s ++ [c]) := by
  rw [Position.lt_iff]
  by_cases hc : c = '\n'
  · subst hc
    simp [Position.after]
  · simp [Position.after, lastLine_concat hc, hc]

/-- Behind more of a text, the position is a later one. -/
theorem Position.after_lt_append (s : List Char) (hw : w ≠ []) :
    Position.after s < Position.after (s ++ w) := by
  induction w using List.reverseRecOn with
  | nil => exact absurd rfl hw
  | append_singleton w c ih =>
    rw [← List.append_assoc]
    have hlast := Position.after_lt_concat (s ++ w) c
    by_cases h : w = []
    · simpa [h] using hlast
    · exact (ih h).trans hlast

end Text

/-! ### Reports -/

namespace SyntaxError

/-- A report is about a place between the characters of its text, or at one of its ends, and all
that it says about the place depends on what stands before it and behind it. -/
theorem exists_ofOffset_eq (cause : Cause) (source : List Char) (requested : Nat) :
    ∃ before after, source = before ++ after ∧ before = takeBytes requested source ∧
      ofOffset cause source requested =
        ⟨cause, byteSize before, .after before, String.ofList (windowOf before after),
          String.ofList (markerOf (windowOf before after))⟩ := by
  obtain ⟨after, hafter⟩ := takeBytes_prefix requested source
  have hdrop : (takeBytes requested source ++ after).drop (takeBytes requested source).length =
      after := List.drop_left
  rw [hafter] at hdrop
  exact ⟨takeBytes requested source, after, hafter.symm, rfl, by rw [ofOffset, hdrop]⟩

end SyntaxError

/-- **Line and column pin down the offset.** The offset of a report is the last boundary of the text
that is neither behind the requested offset nor behind the end, and its line and column name that
place. Later boundaries have later positions. -/
theorem position_pins_offset (source : String) :
    (∀ cause requested,
      IsGreatest {o | (String.Pos.Raw.mk o).IsValid source ∧ o ≤ min requested source.utf8ByteSize}
        (SyntaxError.ofOffset cause source.toList requested).offset ∧
      (SyntaxError.ofOffset cause source.toList requested).position.offset? source.toList =
        some (SyntaxError.ofOffset cause source.toList requested).offset) ∧
    ∀ cause cause' o o', (String.Pos.Raw.mk o).IsValid source →
      (String.Pos.Raw.mk o').IsValid source → o < o' →
      (SyntaxError.ofOffset cause source.toList o).position <
        (SyntaxError.ofOffset cause' source.toList o').position := by
  refine ⟨fun cause requested => ⟨isGreatest_takeBytes source requested, ?_⟩,
    fun cause cause' o o' ho ho' hlt => ?_⟩
  · obtain ⟨before, after, hsource, -, he⟩ :=
      SyntaxError.exists_ofOffset_eq cause source.toList requested
    rw [he, hsource]
    exact Position.offset?_after before after
  · obtain ⟨u, hu, rfl⟩ := isValid_iff.1 ho
    obtain ⟨v, hv, rfl⟩ := isValid_iff.1 ho'
    -- the later boundary is behind a longer beginning of the text
    obtain ⟨w, hw, rfl⟩ := exists_eq_append_of_byteSize_lt hu hv hlt
    obtain ⟨r, hr⟩ := hv
    -- an offset at a boundary is taken as it is, so the positions are those behind `u` and `u ++ w`
    have hbefore : takeBytes (byteSize u) source.toList = u := by
      rw [← hr, List.append_assoc, takeBytes_byteSize_append]
    have hbefore' : takeBytes (byteSize (u ++ w)) source.toList = u ++ w := by
      rw [← hr, takeBytes_byteSize_append]
    simp only [SyntaxError.ofOffset, hbefore, hbefore']
    exact Position.after_lt_append u hw

/-- An offset inside the second character of the second line is taken back to its start, which
comes before the end of the text. -/
theorem position_pins_offset_of_inside :
    (SyntaxError.ofOffset .missingValue "a\nbé:".toList 4).position.offset? "a\nbé:".toList =
      some 3 ∧
    (String.Pos.Raw.mk 3).IsValid "a\nbé:" ∧ (String.Pos.Raw.mk 6).IsValid "a\nbé:" ∧ 3 < 6 ∧
    (SyntaxError.ofOffset .missingValue "a\nbé:".toList 3).position <
      (SyntaxError.ofOffset .missingValue "a\nbé:".toList 6).position := by
  obtain ⟨hplace, horder⟩ := position_pins_offset "a\nbé:"
  have h : (String.Pos.Raw.mk 3).IsValid "a\nbé:" := by decide +kernel
  have h' : (String.Pos.Raw.mk 6).IsValid "a\nbé:" := by decide +kernel
  exact ⟨(hplace .missingValue 4).2, h, h', by decide, horder _ _ 3 6 h h' (by decide)⟩

end FieldMapping
