import FieldMapping.Scan
import FieldMapping.Statement

/-!
# Reading values

The value of a parameter or an argument is a quoted literal, a plain value, or a plain value with
an index in brackets. A literal is recognised by the quote at the next token; behind a line feed,
which is a token of its own, a quote is an ordinary character of a plain value.
-/

namespace FieldMapping

open Scan

/-- The value at the start of `s`. -/
def Value.read (s : List Char) : Except Fault (Value × List Char) :=
  if startsQuoted s then do
    let (text, r) ← quoted s
    .ok (.scalar text, r)
  else do
    let (base, r) ← value s
    match nextToken r with
    | (.operator .openBracket, r) => do
      let (index, r) ← value r
      match nextToken r with
      | (.operator .closeBracket, r') => .ok (.indexed base index, r')
      | _ => .error (unexpected r)
    | _ => .ok (.scalar base, r)

/-- Reading a value never lengthens the text. A value may be empty, so nothing stronger holds. -/
theorem Value.length_read_le {s r : List Char} {v : Value} (h : read s = .ok (v, r)) :
    r.length ≤ s.length := by
  unfold read at h
  split at h
  · obtain ⟨text, r₁, h₁, h⟩ := Fault.bind_eq_ok_iff.1 h
    cases h
    exact Nat.le_of_lt (length_quoted_lt h₁)
  · obtain ⟨base, r₁, h₁, h⟩ := Fault.bind_eq_ok_iff.1 h
    have hr₁ := length_value_le h₁
    simp only at h
    split at h
    · -- an index follows
      rename_i r₂ h₂
      have hr₂ := length_nextToken_lt h₂
      obtain ⟨index, r₃, h₃, h⟩ := Fault.bind_eq_ok_iff.1 h
      have hr₃ := length_value_le h₃
      simp only at h
      split at h
      · rename_i r₄ h₄
        have hr₄ := length_nextToken_lt h₄
        cases h
        omega
      · cases h
    · cases h
      exact hr₁

end FieldMapping
