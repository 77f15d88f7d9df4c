/-!
# Sizes in bytes

Places in a text are counted in bytes of its UTF-8 form. `byteSize` is the size of a text, and
`takeBytes n` is its longest beginning of whole characters that fits into `n` bytes: a byte offset
inside a character, or past the end, falls back to the nearest character boundary before it.
-/

namespace FieldMapping.Text

/-- The number of bytes of the UTF-8 form of `s`. -/
def byteSize (s : List Char) : Nat :=
  s.foldr (fun c n => c.utf8Size + n) 0

@[simp] theorem byteSize_nil : byteSize [] = 0 := rfl

@[simp] theorem byteSize_cons (c : Char) (s : List Char) :
    byteSize (c :: s) = c.utf8Size + byteSize s := rfl

@[simp] theorem byteSize_append (s t : List Char) :
    byteSize (s ++ t) = byteSize s + byteSize t := by
  induction s with
  | nil => simp
  | cons c s ih => rw [List.cons_append, byteSize_cons, byteSize_cons, ih, Nat.add_assoc]

/-- The size of a text as a list is its size as a string. -/
theorem byteSize_toList (s : String) : byteSize s.toList = s.utf8ByteSize := by
  have h : ∀ l : List Char, byteSize l = (String.ofList l).utf8ByteSize := by
    intro l
    induction l with
    | nil => rfl
    | cons c l ih => simp [ih]
  rw [h, String.ofList_toList]

/-- The longest beginning of `s` that takes at most `n` bytes. -/
def takeBytes : Nat → List Char → List Char
  | _, [] => []
  | n, c :: s => if c.utf8Size ≤ n then c :: takeBytes (n - c.utf8Size) s else []

@[simp] theorem takeBytes_nil (n : Nat) : takeBytes n [] = [] := rfl

theorem takeBytes_cons (n : Nat) (c : Char) (s : List Char) :
    takeBytes n (c :: s) =
      if c.utf8Size ≤ n then c :: takeBytes (n - c.utf8Size) s else [] := rfl

/-- What is kept of a text is a prefix of it: no character is skipped for a shorter one behind
it. -/
theorem takeBytes_prefix (n : Nat) (s : List Char) : takeBytes n s <+: s := by
  induction s generalizing n with
  | nil => simp
  | cons c s ih =>
    rw [takeBytes_cons]
    split
    · exact List.cons_prefix_cons.2 ⟨rfl, ih _⟩
    · exact List.nil_prefix

/-- What is kept fits into the bytes that are allowed. -/
theorem byteSize_takeBytes_le (n : Nat) (s : List Char) : byteSize (takeBytes n s) ≤ n := by
  induction s generalizing n with
  | nil => simp
  | cons c s ih =>
    rw [takeBytes_cons]
    split
    · have := ih (n - c.utf8Size)
      simp only [byteSize_cons]
      omega
    · simp

/-- An offset at a character boundary is taken as it is. -/
theorem takeBytes_byteSize_append (s t : List Char) : takeBytes (byteSize s) (s ++ t) = s := by
  induction s with
  | nil =>
    cases t with
    | nil => rfl
    | cons c t => simp [takeBytes_cons, Nat.not_le.2 c.utf8Size_pos]
  | cons c s ih => simp [takeBytes_cons, ih]

end FieldMapping.Text
