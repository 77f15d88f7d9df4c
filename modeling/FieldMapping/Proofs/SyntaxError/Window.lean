import FieldMapping.Document
import FieldMapping.Proofs.SyntaxError.Position
import FieldMapping.Proofs.Text.Trimming

/-!
# The window of a report

A report shows the text that leads up to its place: of what stands before it no more than fifty
characters, and the character that stands there (`SyntaxError.ShowsFifty`).

A window is cut from the last fifty-one characters of all that is shown. The character at the place
is one of them, if there is one. At the end of the text there is none, and all fifty-one come from
before the place. The one too many is seen in the report unless it is white space, which is trimmed
away: `showsFifty_iff_not_reachesBack` says that reports go wrong in this way only.
-/

namespace FieldMapping

open Text

/-! ### Ends of a text -/

namespace Text

variable {s : List Char} {c : Char} {n : Nat}

/-- All of a text is its end, if as many characters are asked for. -/
theorem rtake_eq_self (h : s.length ≤ n) : s.rtake n = s := by
  rw [List.rtake, Nat.sub_eq_zero_of_le h, List.drop_zero]

/-- One more character from the end of a text is the character before those. -/
theorem rtake_succ (h : s.reverse[n]? = some c) : s.rtake (n + 1) = c :: s.rtake n := by
  rw [List.rtake_eq_reverse_take_reverse, List.rtake_eq_reverse_take_reverse, List.take_add_one, h]
  simp

/-- The end of a text is no longer than it was asked for. -/
theorem length_rtake_le (s : List Char) (n : Nat) : (s.rtake n).length ≤ n := by
  rw [List.rtake, List.length_drop]
  omega

end Text

namespace SyntaxError

variable {e : SyntaxError} {source : String} {before after : List Char}

/-! ### What a window is cut from -/

/-- A window is the end of all that is shown, trimmed. -/
theorem windowOf_eq_trim_rtake (before after : List Char) :
    windowOf before after = trim ((before ++ after.take 1).rtake 51) := rfl

/-- The window at a character. -/
theorem windowOf_cons (before : List Char) (c : Char) (after : List Char) :
    windowOf before (c :: after) = trim (before.rtake 50 ++ [c]) := by
  rw [windowOf_eq_trim_rtake, List.take_succ_cons, List.take_zero, List.rtake_concat_succ]

/-- The window at the end of a text. -/
theorem windowOf_nil_right (before : List Char) :
    windowOf before [] = trim (before.rtake 51) := by
  rw [windowOf_eq_trim_rtake, List.take_nil, List.append_nil]

/-- A window is cut from fifty characters before the place and the one that stands there, unless
the fifty-first before the end of the text is visible. -/
theorem windowOf_eq_iff (before after : List Char) :
    windowOf before after = trim (before.rtake 50 ++ after.take 1) ↔
      ¬ (after = [] ∧ ∃ c, before.reverse[50]? = some c ∧ isSpace c = false) := by
  cases after with
  | cons c after => simp [windowOf_cons]
  | nil =>
    rw [windowOf_nil_right, List.take_nil, List.append_nil]
    cases h : before.reverse[50]? with
    | none =>
      have hlength : before.length ≤ 50 := by simpa using h
      simp [rtake_eq_self hlength, rtake_eq_self (Nat.le_succ_of_le hlength)]
    | some c =>
      -- the fifty-first character is in front of the fifty, and trimming decides whether it is
      -- seen
      rw [rtake_succ h, trim_cons_eq_iff]
      simp

/-! ### Reports -/

/-- The window of a report on `source` shows what it should: of the characters before the place, no
more than the last fifty, and the character at the place. -/
def ShowsFifty (e : SyntaxError) (source : String) : Prop :=
  ∃ before after, source.toList = before ++ after ∧ e.offset = byteSize before ∧
    e.window.toList = trim (before.rtake 50 ++ after.take 1) ∧
    e.window.length ≤ 50 + (after.take 1).length

/-- A report at the end of `source` reaches back to the fifty-first character before it, and the
character is no white space. -/
def ReachesBack (e : SyntaxError) (source : String) : Prop :=
  e.offset = source.utf8ByteSize ∧
    ∃ c, source.toList.reverse[50]? = some c ∧ isSpace c = false

/-- Whether a window shows what it should is decided by the text before the place and behind it. -/
theorem showsFifty_iff (hsource : source.toList = before ++ after)
    (hoffset : e.offset = byteSize before) :
    e.ShowsFifty source ↔ e.window.toList = trim (before.rtake 50 ++ after.take 1) := by
  constructor
  · rintro ⟨u, r, hu, hsize, hwindow, -⟩
    -- the offset tells the two parts of the text apart
    have htext : u ++ r = before ++ after := hu.symm.trans hsource
    obtain rfl : u = before := eq_of_byteSize_eq htext (hsize.symm.trans hoffset)
    rwa [List.append_cancel_left htext] at hwindow
  · intro hwindow
    refine ⟨before, after, hsource, hoffset, hwindow, ?_⟩
    have htrim := length_trim_le (before.rtake 50 ++ after.take 1)
    have hrtake := length_rtake_le before 50
    rw [List.length_append] at htrim
    rw [← String.length_toList, hwindow]
    omega

/-- The window of a report keeps no more than fifty characters from before the place, except at the
end of a text whose fifty-first character from the end is no white space. -/
theorem showsFifty_iff_not_reachesBack (cause : Cause) (source : String) (requested : Nat) :
    (ofOffset cause source.toList requested).ShowsFifty source ↔
      ¬ (ofOffset cause source.toList requested).ReachesBack source := by
  obtain ⟨before, after, hsource, -, he⟩ := exists_ofOffset_eq cause source.toList requested
  have hoffset : (ofOffset cause source.toList requested).offset = byteSize before := by rw [he]
  have hwindow : (ofOffset cause source.toList requested).window.toList =
      windowOf before after := by rw [he, String.toList_ofList]
  rw [showsFifty_iff hsource hoffset, hwindow, windowOf_eq_iff, ReachesBack, hoffset,
    byteSize_eq_iff hsource, not_iff_not]
  refine and_congr_right fun hafter => ?_
  rw [hsource, hafter, List.append_nil]

/-- The report on a text of fifty-one characters that ends behind a colon shows all of them. -/
theorem not_showsFifty_of_end : ∃ e,
    parse "xxxxxxxxxxxxxxxxxxxxxxxxxxxxxxxxxxxxxxxxxxxxxxxxxx:" = .error e ∧
      ¬ e.ShowsFifty "xxxxxxxxxxxxxxxxxxxxxxxxxxxxxxxxxxxxxxxxxxxxxxxxxx:" := by
  have hparse : parse "xxxxxxxxxxxxxxxxxxxxxxxxxxxxxxxxxxxxxxxxxxxxxxxxxx:" =
      .error (.ofOffset .missingValue
        "xxxxxxxxxxxxxxxxxxxxxxxxxxxxxxxxxxxxxxxxxxxxxxxxxx:".toList 51) := by
    decide +kernel
  refine ⟨_, hparse, fun h => ?_⟩
  have hwindow := (showsFifty_iff (List.append_nil _).symm (by decide +kernel)).1 h
  exact absurd hwindow (by decide +kernel)

/-- The report on a text that breaks off behind sixty characters, and not at its end, shows fifty
of them. -/
theorem showsFifty_of_character : ∃ e,
    parse "xxxxxxxxxxxxxxxxxxxxxxxxxxxxxxxxxxxxxxxxxxxxxxxxxxxxxxxxxx: )" = .error e ∧
      e.ShowsFifty "xxxxxxxxxxxxxxxxxxxxxxxxxxxxxxxxxxxxxxxxxxxxxxxxxxxxxxxxxx: )" := by
  have hparse : parse "xxxxxxxxxxxxxxxxxxxxxxxxxxxxxxxxxxxxxxxxxxxxxxxxxxxxxxxxxx: )" =
      .error (.ofOffset (.unexpected ")")
        "xxxxxxxxxxxxxxxxxxxxxxxxxxxxxxxxxxxxxxxxxxxxxxxxxxxxxxxxxx: )".toList 60) := by
    decide +kernel
  refine ⟨_, hparse, (showsFifty_iff_not_reachesBack _ _ _).2 fun h => ?_⟩
  exact absurd h.1 (by decide +kernel)

end SyntaxError

end FieldMapping
