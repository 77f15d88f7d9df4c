import FieldMapping.Proofs.SyntaxError.Window

/-!
# The caret of a report

A printed report is a heading, the lines of its window, and a line with a caret
(`splitLines_message`). The caret is placed by the length of the last line of the window alone. It
stands under the last character of the window all the same, since a window is trimmed: no line feed
ends it, so its last line ends with its last character, and that line is printed as it is.

The last character of a window is the character at the place of the report if that is visible. If
it is not, or if the text ends there, the window ends with the last visible character before the
place. `exists_printed_ofOffset` collects what is printed.
-/

namespace FieldMapping

open Text

namespace Text

variable {s : List Char}

/-! ### Lines in print -/

/-- No line is left out of a text that does not end with a line feed. -/
theorem lines_of_getLast?_ne (hs : s ≠ []) (h : s.getLast? ≠ some '\n') :
    lines s = (endedLines s).map dropReturn ++ [lastLine s] := by
  have hlast : lastLine s ≠ [] := by
    rw [← List.getLast?_isSome, getLast?_lastLine h]
    simpa using hs
  rw [lines, splitLines_eq_endedLines_append]
  simp [hlast]

/-- The lines of a window as they are printed: behind a space, and without the carriage return of
their line end. -/
def shownLines (window : List Char) : List (List Char) :=
  (endedLines window).map (fun l => ' ' :: dropReturn l) ++ [' ' :: lastLine window]

/-- Leaving out a carriage return brings no line feed in. -/
theorem newline_not_mem_dropReturn {l : List Char} (h : '\n' ∉ l) : '\n' ∉ dropReturn l := by
  unfold dropReturn
  split
  · exact fun hmem => h ((List.dropLast_sublist l).subset hmem)
  · exact h

/-- No line of a window holds a line feed. -/
theorem newline_not_mem_of_mem_shownLines {l : List Char} (h : l ∈ shownLines s) : '\n' ∉ l := by
  rw [shownLines, List.mem_append, List.mem_map, List.mem_singleton] at h
  rcases h with ⟨k, hk, rfl⟩ | rfl
  · simpa using newline_not_mem_dropReturn (newline_not_mem_of_mem_endedLines hk)
  · simpa using newline_not_mem_lastLine s

/-- No decimal number holds a line feed. -/
theorem newline_not_mem_toDigits (n : Nat) : '\n' ∉ Nat.toDigits 10 n := by
  intro h
  exact absurd (Nat.isDigit_of_mem_toDigits (by decide) (by decide) h) (by decide)

end Text

namespace SyntaxError

variable {e : SyntaxError} {before after : List Char} {c : Char}

/-! ### The printed report -/

/-- The first line of a report. -/
def heading (e : SyntaxError) : String :=
  e.cause.message ++ " at line " ++ toString e.position.line ++ ", column " ++
    toString e.position.column ++ ":"

/-- The heading of a report is one line, if the message of its cause is. -/
theorem newline_not_mem_heading (h : '\n' ∉ e.cause.message.toList) :
    '\n' ∉ e.heading.toList := by
  simp [heading, h, newline_not_mem_toDigits]

/-- An excerpt is the lines of the window, each with a line feed, and the marker behind a space. -/
theorem toList_excerpt (h : e.window.toList.getLast? ≠ some '\n') :
    e.excerpt.toList =
      (shownLines e.window.toList).flatMap (· ++ ['\n']) ++ ' ' :: e.marker.toList := by
  by_cases hwindow : e.window.toList = []
  · simp [excerpt, hwindow, shownLines]
  · have hlines := lines_of_getLast?_ne hwindow h
    have hexcerpt : e.excerpt =
        String.join ((lines e.window.toList).map fun l => " " ++ String.ofList l ++ "\n") ++ " " ++
          e.marker := by
      unfold excerpt
      split
      case h_1 hnil => simp [hlines] at hnil
      case h_2 => rfl
    rw [hexcerpt, hlines]
    simp [shownLines, List.flatMap_map, Function.comp_def]

/-- The lines of a report. -/
theorem splitLines_message (hcause : '\n' ∉ e.cause.message.toList)
    (hwindow : e.window.toList.getLast? ≠ some '\n') (hmarker : '\n' ∉ e.marker.toList) :
    splitLines e.message.toList =
      e.heading.toList :: (shownLines e.window.toList ++ [' ' :: e.marker.toList]) := by
  have htext : e.message.toList =
      (e.heading.toList :: shownLines e.window.toList).flatMap (· ++ ['\n']) ++
        ' ' :: e.marker.toList := by
    have hexcerpt := toList_excerpt hwindow
    simp [message, heading, hexcerpt]
  -- written line by line, the report has the lines that were written
  rw [htext, splitLines_flatMap_append, List.cons_append]
  · rintro l (_ | ⟨_, hl⟩)
    · exact newline_not_mem_heading hcause
    · exact newline_not_mem_of_mem_shownLines hl
  · simpa using hmarker

/-! ### The last character of a window -/

/-- A window does not end with a line feed. -/
theorem getLast?_windowOf_ne (before after : List Char) :
    (windowOf before after).getLast? ≠ some '\n' := by
  intro h
  rw [windowOf_eq_trim_rtake] at h
  have hspace := isSpace_of_mem_getLast?_trim h
  simp at hspace

/-- A window ends with the character at the place, if that is visible. -/
theorem getLast?_windowOf_of_visible (hc : isSpace c = false) :
    (windowOf before (c :: after)).getLast? = some c := by
  rw [windowOf_cons, getLast?_trim, lastVisible_concat hc]

/-- A window to which the character at the place adds nothing is cut from the text before it. -/
theorem exists_windowOf_eq_trim (before : List Char)
    (h : ∀ c, after.head? = some c → isSpace c = true) :
    ∃ t, t <:+ before ∧ windowOf before after = trim t := by
  cases after with
  | nil => exact ⟨before.rtake 51, List.drop_suffix .., windowOf_nil_right before⟩
  | cons c after =>
    refine ⟨before.rtake 50, List.drop_suffix .., ?_⟩
    have htrim := trim_append_append (w := []) (a := before.rtake 50) (b := [c]) (by simp)
      (by simpa using h c rfl)
    rw [windowOf_cons, ← htrim, List.nil_append]

/-- A window to which the character at the place adds nothing ends with the last visible character
before the place. -/
theorem getLast?_windowOf_of_space (hne : windowOf before after ≠ [])
    (h : ∀ c, after.head? = some c → isSpace c = true) :
    (windowOf before after).getLast? = lastVisible before ∧
      ∃ p w, before = p ++ windowOf before after ++ w ∧ ∀ c ∈ w, isSpace c = true := by
  obtain ⟨t, ⟨q, hq⟩, hwindow⟩ := exists_windowOf_eq_trim before h
  obtain ⟨p, w, ht, -, hw⟩ := exists_eq_append_trim t
  rw [hwindow] at hne ⊢
  constructor
  · obtain ⟨c, hc⟩ := Option.isSome_iff_exists.1 (List.getLast?_isSome.2 hne)
    rw [getLast?_trim] at hc
    -- the last visible character of the window is in `t`, and `t` ends where the text before the
    -- place does
    rw [getLast?_trim, ← hq, lastVisible_append, hc, Option.some_or]
  · refine ⟨q ++ p, w, ?_, hw⟩
    rw [← hq, List.append_assoc, List.append_assoc, ← List.append_assoc p, ← ht]

/-! ### Reports -/

/-- How a report looks in print, where `before` and `after` are the text before its place and behind
it, and `n` characters stand in front of the caret. -/
structure Printed (e : SyntaxError) (before after : List Char) (n : Nat) : Prop where
  /-- The lines of the report. -/
  lines : splitLines e.message.toList =
    e.heading.toList :: (shownLines e.window.toList ++ [List.replicate n ' ' ++ ['^']])
  /-- Above the caret stands the last character of the window. -/
  above : e.window.toList ≠ [] →
    ∃ l, (shownLines e.window.toList).getLast? = some l ∧ l[n]? = e.window.toList.getLast?
  /-- It is the character at the place, if that is visible. -/
  at_place : ∀ c, after.head? = some c → isSpace c = false → e.window.toList.getLast? = some c
  /-- Otherwise it is the last visible character before the place, and the window shows nothing from
  behind it. -/
  before_place : e.window.toList ≠ [] → (∀ c, after.head? = some c → isSpace c = true) →
    e.window.toList.getLast? = lastVisible before ∧
      ∃ p w, before = p ++ e.window.toList ++ w ∧ ∀ c ∈ w, isSpace c = true

/-- **The caret points at the character at the place.** A report is printed as its heading, the
lines of its window and the caret, which stands under the last character of the window: the one at
the place, or the last visible one before it. -/
theorem exists_printed_ofOffset (cause : Cause) (source : String) (requested : Nat)
    (hcause : '\n' ∉ cause.message.toList) : ∃ before after n,
      source.toList = before ++ after ∧
      (ofOffset cause source.toList requested).offset = byteSize before ∧
      (ofOffset cause source.toList requested).Printed before after n := by
  obtain ⟨before, after, hsource, -, he⟩ := exists_ofOffset_eq cause source.toList requested
  have hlast : (lastLine (windowOf before after)).getLast? = (windowOf before after).getLast? :=
    getLast?_lastLine (getLast?_windowOf_ne before after)
  refine ⟨before, after, (lastLine (windowOf before after)).length - 1 + 1, hsource, by rw [he], ?_⟩
  rw [he]
  exact {
    lines := by
      rw [splitLines_message hcause]
      · simp [markerOf, List.replicate_succ]
      · simpa using getLast?_windowOf_ne before after
      · simp [markerOf]
    above := by
      intro _
      -- the marker is as long as the last line, and both stand behind one space
      refine ⟨' ' :: lastLine (windowOf before after), by simp [shownLines], ?_⟩
      rw [List.getElem?_cons_succ, ← List.getLast?_eq_getElem?, hlast, String.toList_ofList]
    at_place := by
      intro c hafter hc
      obtain ⟨r, rfl⟩ := List.head?_eq_some_iff.1 hafter
      simpa using getLast?_windowOf_of_visible hc
    before_place := by
      intro hne h
      simp only [String.toList_ofList] at hne ⊢
      exact getLast?_windowOf_of_space hne h }

/-- The caret below two lines, the first of which has a carriage return. -/
theorem exists_printed_of_paren : '\n' ∉ (Cause.unexpected ")").message.toList ∧
    ∃ before after n, "a: B,\r\né: D )".toList = before ++ after ∧
      (ofOffset (.unexpected ")") "a: B,\r\né: D )".toList 13).offset = byteSize before ∧
      (ofOffset (.unexpected ")") "a: B,\r\né: D )".toList 13).Printed before after n := by
  have hcause : '\n' ∉ (Cause.unexpected ")").message.toList := by decide +kernel
  exact ⟨hcause, exists_printed_ofOffset _ _ _ hcause⟩

end SyntaxError

end FieldMapping
