import FieldMapping.Scan

/-!
# Reading lists

Parameters, arguments and processors come in lists of at least one item. An `ItemReader` reads one
item and tells whether another one follows, and `ItemReader.readAll` reads items until none does.
The one duty of an item reader is to take something whenever it announces a further item.
-/

namespace FieldMapping

open Scan

/-- What stands behind an item in parentheses: a comma announces another item, a closing parenthesis
ends the list. -/
def itemEnd (s : List Char) : Except Fault (Bool × List Char) :=
  match nextToken s with
  | (.operator .comma, r) => .ok (true, r)
  | (.operator .closeParen, r) => .ok (false, r)
  | _ => .error (unexpected s)

/-- Each of the two ends takes its own character, which is what makes a list shrink from item to
item. -/
theorem length_itemEnd_lt {s r : List Char} {more : Bool} (h : itemEnd s = .ok (more, r)) :
    r.length < s.length := by
  unfold itemEnd at h
  split at h
  · rename_i r₁ h₁
    cases h
    exact length_nextToken_lt h₁
  · rename_i r₁ h₁
    cases h
    exact length_nextToken_lt h₁
  · cases h

/-- A reader of one item, which also tells whether another item follows. -/
structure ItemReader (α : Type) where
  /-- The item at the start of a text, and whether another one follows it. -/
  read : List Char → Except Fault ((α × Bool) × List Char)
  /-- An item that another one follows is read from a non-empty piece of text. -/
  length_lt : ∀ {s r a}, read s = .ok ((a, true), r) → r.length < s.length

/-- The list of items at the start of `s`. -/
def ItemReader.readAll {α : Type} (item : ItemReader α) (s : List Char) :
    Except Fault (List α × List Char) :=
  match _h : item.read s with
  | .error f => .error f
  | .ok ((a, false), r) => .ok ([a], r)
  | .ok ((a, true), r) => do
    let (as, r) ← item.readAll r
    .ok (a :: as, r)
termination_by s.length
decreasing_by exact item.length_lt _h

namespace ItemReader

variable {α : Type} {item : ItemReader α} {s r : List Char} {a : α}

/-- A list fails with its item. This lemma and the two after it are the equations of `readAll`, one
for each answer of the item reader. -/
theorem readAll_of_error {f : Fault} (h : item.read s = .error f) :
    item.readAll s = .error f := by
  unfold readAll
  split <;> simp_all

/-- An item that none follows is the whole list. -/
theorem readAll_of_last (h : item.read s = .ok ((a, false), r)) :
    item.readAll s = .ok ([a], r) := by
  unfold readAll
  split <;> simp_all

/-- An item that another one follows is the head of the list, and the rest is read behind it. -/
theorem readAll_of_more (h : item.read s = .ok ((a, true), r)) :
    item.readAll s = (do let (as, r) ← item.readAll r; .ok (a :: as, r)) := by
  rw [readAll]
  split <;> simp_all

/-- If reading an item never lengthens the text, reading a list does not either. -/
theorem length_readAll_le
    (hitem : ∀ {s r a more}, item.read s = .ok ((a, more), r) → r.length ≤ s.length)
    {as : List α} (h : item.readAll s = .ok (as, r)) : r.length ≤ s.length := by
  fun_induction item.readAll s generalizing as r with
  | case1 s f hf => cases h
  | case2 s a r' hr' =>
    cases h
    exact hitem hr'
  | case3 s a r' hr' ih =>
    obtain ⟨as', r₁, h₁, h⟩ := Fault.bind_eq_ok_iff.1 h
    cases h
    exact Nat.le_trans (ih h₁) (hitem hr')

end ItemReader

end FieldMapping
