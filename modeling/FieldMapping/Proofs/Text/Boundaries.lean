import FieldMapping.Text.Bytes
import Mathlib.Order.Bounds.Basic

/-!
# Boundaries between characters

The places of a text are the sizes of its beginnings (`isValid_iff`). `takeBytes` goes to the last
of them that the given bytes reach (`isGreatest_takeBytes`), and the place tells the beginning
(`eq_of_byteSize_eq`).
-/

namespace FieldMapping.Text

variable {u v r r' s : List Char} {n : Nat} {source : String}

/-- An offset is between two characters if it is the size of a beginning of the text. -/
theorem isValid_iff : (String.Pos.Raw.mk n).IsValid source ↔
    ∃ u, u <+: source.toList ∧ byteSize u = n := by
  rw [String.Pos.Raw.isValid_iff_exists_append]
  constructor
  · rintro ⟨t, t', rfl, ht⟩
    refine ⟨t.toList, by simp, ?_⟩
    rw [byteSize_toList]
    exact (congrArg String.Pos.Raw.byteIdx ht).symm
  · rintro ⟨u, ⟨v, hv⟩, rfl⟩
    refine ⟨String.ofList u, String.ofList v, ?_, ?_⟩
    · rw [← String.ofList_append, hv, String.ofList_toList]
    · rw [← String.toList_ofList (l := u), byteSize_toList, String.toList_ofList]
      rfl

/-! ### Beginnings of a text -/

/-- A beginning of a text has no more bytes than the text. -/
theorem byteSize_le_of_isPrefix (h : u <+: s) : byteSize u ≤ byteSize s := by
  obtain ⟨v, rfl⟩ := h
  simp

/-- Two beginnings of a text of one size are the same. -/
theorem eq_of_byteSize_eq (h : u ++ r = v ++ r') (hsize : byteSize u = byteSize v) : u = v := by
  have hu := takeBytes_byteSize_append u r
  rwa [h, hsize, takeBytes_byteSize_append, eq_comm] at hu

/-- Of two beginnings of a text, the one with more bytes goes on where the other ends. -/
theorem exists_eq_append_of_byteSize_lt (hu : u <+: s) (hv : v <+: s)
    (h : byteSize u < byteSize v) : ∃ w, w ≠ [] ∧ v = u ++ w := by
  rcases List.prefix_or_prefix_of_prefix hu hv with ⟨w, rfl⟩ | hle
  · refine ⟨w, ?_, rfl⟩
    rintro rfl
    simp at h
  · exact absurd (byteSize_le_of_isPrefix hle) (by omega)

/-- A place is the end of the source if nothing stands behind it. -/
theorem byteSize_eq_iff {before after : List Char} (h : source.toList = before ++ after) :
    byteSize before = source.utf8ByteSize ↔ after = [] := by
  rw [← byteSize_toList, h, byteSize_append]
  cases after with
  | nil => simp
  | cons c after =>
    have := c.utf8Size_pos
    simp only [byteSize_cons, reduceCtorEq, iff_false]
    omega

/-! ### The last boundary before an offset -/

/-- No longer beginning of a text fits into the bytes that are given. -/
theorem byteSize_le_takeBytes (h : u <+: s) (hn : byteSize u ≤ n) :
    byteSize u ≤ byteSize (takeBytes n s) := by
  -- on the text: a beginning that fits starts with a character that fits
  induction s generalizing u n with
  | nil => simp [List.prefix_nil.1 h]
  | cons c s ih =>
    cases u with
    | nil => simp
    | cons d u =>
      obtain ⟨rfl, hu⟩ := List.cons_prefix_cons.1 h
      rw [byteSize_cons] at hn
      have hle : byteSize u ≤ byteSize (takeBytes (n - d.utf8Size) s) := ih hu (by omega)
      rw [takeBytes_cons, if_pos (by omega), byteSize_cons, byteSize_cons]
      omega

/-- What the given bytes reach is the last boundary that they and the text allow. -/
theorem isGreatest_takeBytes (source : String) (n : Nat) :
    IsGreatest {o | (String.Pos.Raw.mk o).IsValid source ∧ o ≤ min n source.utf8ByteSize}
      (byteSize (takeBytes n source.toList)) := by
  have hprefix := takeBytes_prefix n source.toList
  constructor
  · refine ⟨isValid_iff.2 ⟨_, hprefix, rfl⟩, le_min (byteSize_takeBytes_le n _) ?_⟩
    rw [← byteSize_toList]
    exact byteSize_le_of_isPrefix hprefix
  · rintro o ⟨hvalid, ho⟩
    obtain ⟨u, hu, rfl⟩ := isValid_iff.1 hvalid
    exact byteSize_le_takeBytes hu (ho.trans (min_le_left ..))

end FieldMapping.Text
