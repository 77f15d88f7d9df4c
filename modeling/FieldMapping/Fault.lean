import FieldMapping.SyntaxError

/-!
# Faults

Reading works on the text that is still unread, so it knows no offsets. A `Fault` says why reading
failed and marks the place by what was unread there; `Fault.locate` turns it into the report for a
whole text that ends in that unread part. Reading the rest of a text therefore fails as reading it
within the whole text does, with the place shifted.
-/

namespace FieldMapping

open Text

/-- Results can be compared if what they hold can be. -/
instance instDecidableEqExcept {ε α : Type} [DecidableEq ε] [DecidableEq α] :
    DecidableEq (Except ε α)
  | .ok a, .ok b => if h : a = b then .isTrue (by rw [h]) else .isFalse (by simp [h])
  | .error e, .error f => if h : e = f then .isTrue (by rw [h]) else .isFalse (by simp [h])
  | .ok _, .error _ => .isFalse (by simp)
  | .error _, .ok _ => .isFalse (by simp)

/-- What becomes of a failure does not matter for a success. -/
theorem mapError_eq_ok_iff {ε δ α : Type} {x : Except ε α} {f : ε → δ} {a : α} :
    x.mapError f = .ok a ↔ x = .ok a := by
  constructor
  · intro h
    cases x with
    | ok b => exact congrArg Except.ok (Except.ok.inj h)
    | error e => cases h
  · rintro rfl
    rfl

/-- A mapped failure comes from a failure. -/
theorem mapError_eq_error_iff {ε δ α : Type} {x : Except ε α} {f : ε → δ} {d : δ} :
    x.mapError f = .error d ↔ ∃ e, x = .error e ∧ f e = d := by
  constructor
  · intro h
    cases x with
    | ok a => cases h
    | error e => exact ⟨e, rfl, Except.error.inj h⟩
  · rintro ⟨e, rfl, rfl⟩
    rfl

/-- A failure of reading. -/
structure Fault where
  /-- Why reading failed. -/
  cause : Cause
  /-- The unread text at the place that the cause is about. -/
  place : List Char
  /-- The unread text when reading stopped. -/
  rest : List Char
  deriving DecidableEq, Repr

namespace Fault

/-- The failure with `cause` where reading stands. -/
def here (cause : Cause) (s : List Char) : Fault :=
  ⟨cause, s, s⟩

/-- The report on a failure within `source`. -/
def locate (f : Fault) (source : List Char) : SyntaxError :=
  .ofOffset f.cause source (byteSize source - byteSize f.place)

@[simp] theorem cause_locate (f : Fault) (source : List Char) :
    (f.locate source).cause = f.cause := rfl

/-- A failure behind `u` is reported at the size of `u`. -/
theorem locate_append (cause : Cause) (u place rest : List Char) :
    locate ⟨cause, place, rest⟩ (u ++ place) = .ofOffset cause (u ++ place) (byteSize u) := by
  simp [locate]

end Fault

/-! ### Sequences

What is read from the start of a text is an `Except Fault (α × List Char)`: the thing that was read
together with the text that is left, or a fault. -/

/-- Two acts of reading in a row succeed if the first does, and the second does on its result. -/
theorem Fault.bind_eq_ok_iff {α β : Type} {x : Except Fault (α × List Char)}
    {f : α × List Char → Except Fault β} {b : β} :
    x >>= f = .ok b ↔ ∃ a r, x = .ok (a, r) ∧ f (a, r) = .ok b := by
  cases x with
  | error f => simp [bind, Except.bind]
  | ok p =>
    constructor
    · intro h
      exact ⟨p.1, p.2, rfl, h⟩
    · rintro ⟨a, r, h, hb⟩
      cases h
      exact hb

end FieldMapping
