/-!
# White space

The characters that separate words: `isSpace` is the Unicode property `White_Space`, `isBlank` is
the same class without the line feed, which is punctuation in a field mapping. `trim` removes the
white space at both ends of a text.

Text is a list of characters here and in every module that reads it, so that what is still unread
is a suffix of what was given.
-/

namespace FieldMapping.Text

/-! ### The classes -/

/-- The code point ranges of the Unicode property `White_Space`, ends included. -/
def spaceRanges : List (Nat × Nat) :=
  [(0x09, 0x0D), (0x20, 0x20), (0x85, 0x85), (0xA0, 0xA0), (0x1680, 0x1680), (0x2000, 0x200A),
    (0x2028, 0x2029), (0x202F, 0x202F), (0x205F, 0x205F), (0x3000, 0x3000)]

/-- Whether `c` has the Unicode property `White_Space`. -/
def isSpace (c : Char) : Bool :=
  spaceRanges.any fun (first, last) => first ≤ c.toNat && c.toNat ≤ last

/-- White space other than a line feed. -/
def isBlank (c : Char) : Bool :=
  isSpace c && c != '\n'

@[simp] theorem isSpace_newline : isSpace '\n' = true := rfl

@[simp] theorem isBlank_newline : isBlank '\n' = false := rfl

/-- Blanks are white space; line feeds are the white space that is none. -/
theorem isSpace_of_isBlank {c : Char} (h : isBlank c = true) : isSpace c = true := by
  simp only [isBlank, Bool.and_eq_true] at h
  exact h.1

/-! ### Trimming -/

/-- `s` without the white space at its start. -/
def trimStart (s : List Char) : List Char :=
  s.dropWhile isSpace

/-- `s` without the white space at its end. -/
def trimEnd (s : List Char) : List Char :=
  (s.reverse.dropWhile isSpace).reverse

/-- `s` without the white space at its two ends. -/
def trim (s : List Char) : List Char :=
  trimEnd (trimStart s)

@[simp] theorem trimStart_nil : trimStart [] = [] := rfl

@[simp] theorem trimEnd_nil : trimEnd [] = [] := rfl

@[simp] theorem trim_nil : trim [] = [] := rfl

theorem length_trimStart_le (s : List Char) : (trimStart s).length ≤ s.length :=
  (List.dropWhile_sublist _).length_le

/-- What is left of a text after its leading white space starts with none. -/
theorem isSpace_of_trimStart_eq_cons {s r : List Char} {c : Char} (h : trimStart s = c :: r) :
    isSpace c = false := by
  have hc := List.head?_dropWhile_not isSpace s
  rw [trimStart] at h
  simpa [h] using hc

end FieldMapping.Text
