import FieldMapping.Proofs.Text.Trimming

/-!
# Pieces between operators

`pieces` splits a text at its operators and keeps what is more than white space, trimmed. Operators
and white space in front of a text do not change its pieces, and a text that starts with a trimmed
piece, up to an operator or the end, has that piece first (`pieces_append`).
-/

namespace FieldMapping.Text

variable {s r w a : List Char} {c : Char}

/-- The texts between the operators of `s`, without the white space around them, as far as they are
not empty then. -/
def pieces (s : List Char) : List String :=
  (((s.splitOnP isOperator).map trim).filter (· ≠ [])).map String.ofList

/-- A text of blanks has no pieces. -/
theorem pieces_eq_nil (h : ∀ c ∈ s, isBlank c = true) : pieces s = [] := by
  have htrim : trim s = [] := trim_eq_nil_iff.2 fun c hc => isSpace_of_isBlank (h c hc)
  rw [pieces, List.splitOnP_eq_singleton fun c hc => isOperator_of_isBlank (h c hc)]
  simp [htrim]

/-- An operator in front of a text adds no piece. -/
theorem pieces_cons_operator (hc : isOperator c = true) : pieces (c :: s) = pieces s := by
  rw [pieces, List.splitOnP_cons_eq_if_modifyHead, if_pos hc]
  simp [pieces]

/-- White space in front of a text is trimmed from its first piece. -/
theorem pieces_cons_space (hc : isSpace c = true) : pieces (c :: s) = pieces s := by
  by_cases hop : isOperator c = true
  · exact pieces_cons_operator hop
  · -- the white space goes to the first stretch, and trimming takes it away
    obtain ⟨x, xs, hs⟩ := List.exists_cons_of_ne_nil (List.splitOnP_ne_nil isOperator s)
    have htrim : trim (c :: x) = trim x := by
      simpa using trim_append_append (w := [c]) (a := x) (b := []) (by simpa using hc) (by simp)
    rw [pieces, List.splitOnP_cons_eq_if_modifyHead, if_neg hop, hs, List.modifyHead_cons,
      List.map_cons, htrim, ← List.map_cons, ← hs, pieces]

/-- A trimmed text without operators is the first piece where only blanks separate it from the next
operator or the end. -/
theorem pieces_append (hne : a ≠ []) (ha : ∀ c ∈ a, isOperator c = false) (htrim : trim a = a)
    (hw : ∀ c ∈ w, isBlank c = true) (hr : ∀ c ∈ r.head?, isOperator c = true) :
    pieces (a ++ (w ++ r)) = String.ofList a :: pieces (w ++ r) := by
  have hop : ∀ c ∈ a ++ w, isOperator c = false := by
    intro c hc
    exact (List.mem_append.1 hc).elim (ha c) fun hc => isOperator_of_isBlank (hw c hc)
  have haw : trim (a ++ w) = a := by
    have hspace : ∀ c ∈ w, isSpace c = true := fun c hc => isSpace_of_isBlank (hw c hc)
    have h := trim_append_append (w := []) (a := a) (by simp) hspace
    rw [List.nil_append] at h
    exact h.trans htrim
  cases r with
  | nil =>
    rw [List.append_nil, pieces_eq_nil hw, pieces, List.splitOnP_eq_singleton hop]
    simp [haw, hne]
  | cons c r =>
    have hc : isOperator c = true := hr c rfl
    -- the blanks in front of the operator are no piece of their own
    have hrest : pieces (w ++ c :: r) = pieces r := by
      rw [pieces, List.splitOnP_append_cons _ _ hc, List.map_append, List.filter_append,
        List.map_append]
      exact congrArg (· ++ pieces r) (pieces_eq_nil hw)
    rw [hrest, ← List.append_assoc, pieces,
      List.splitOnP_append_cons_of_forall_mem hop c hc r]
    simp [haw, hne, pieces]

end FieldMapping.Text
