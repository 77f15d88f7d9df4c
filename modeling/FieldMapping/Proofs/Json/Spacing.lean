import FieldMapping.Proofs.Json.Writing

/-!
# The two written forms

The compact form of a value stands on one line: it has no control characters, since those of the
texts are escaped (`printable_compact`). The pretty form is the same but for white space outside of
the literals (`stripSpace_pretty`).
-/

namespace FieldMapping.Json

variable {α : Type} {s u rest : List Char} {c closing : Char} {l : Layout} {depth depth' : Nat}
  {W W' : α → List Char → List Char} {as : List α}

/-! ### Control characters -/

/-- The text has no control characters below the space. -/
def Printable (s : List Char) : Prop :=
  ∀ c ∈ s, 0x20 ≤ c.toNat

@[simp] theorem printable_nil : Printable [] := nofun

@[simp] theorem printable_cons : Printable (c :: s) ↔ 0x20 ≤ c.toNat ∧ Printable s :=
  List.forall_mem_cons

@[simp] theorem printable_append : Printable (u ++ s) ↔ Printable u ∧ Printable s :=
  List.forall_mem_append

/-- The digits of an escape belong to its literal and do not end it. -/
theorem hexDigit_spec : ∀ n < 16,
    0x20 ≤ (hexDigit n).toNat ∧ hexDigit n ≠ '"' ∧ hexDigit n ≠ '\\' := by decide

/-- What is written for a character has no control characters, which are what escapes are for. -/
theorem printable_escape (c : Char) : Printable (escape c) := by
  rcases escape_cases c with ⟨h, -, -, hc⟩ | ⟨e, h, he⟩ | ⟨h, hc⟩
  · simpa [h] using hc
  · have hshort : ∀ p ∈ shortEscapes, 0x20 ≤ p.1.toNat := by decide
    simpa [h] using hshort _ he
  · have hhigh := hexDigit_spec (c.toNat / 16) (by omega)
    have hlow := hexDigit_spec (c.toNat % 16) (by omega)
    simpa [h] using ⟨hhigh.1, hlow.1⟩

/-- What is written for a text has no control characters. -/
theorem printable_writeText (text : String) (h : Printable rest) :
    Printable (writeText text rest) := by
  have htext : Printable (text.toList.flatMap escape) := by
    intro d hd
    obtain ⟨c, -, hc⟩ := List.mem_flatMap.1 hd
    exact printable_escape c d hc
  simpa [writeText] using ⟨htext, h⟩

/-- The items behind the first one, on one line, bring no control characters in by themselves. -/
theorem printable_encloseMore (hclosing : 0x20 ≤ closing.toNat) (h : Printable rest)
    (hW : ∀ a ∈ as, ∀ s, Printable s → Printable (W a s)) :
    Printable (encloseMore .compact depth closing W as rest) := by
  induction as with
  | nil => exact printable_cons.2 ⟨hclosing, h⟩
  | cons a as ih =>
    have has := ih fun b hb => hW b (List.mem_cons_of_mem a hb)
    exact printable_cons.2 ⟨by decide, hW a (List.mem_cons_self ..) _ has⟩

/-- A list on one line brings no control characters in by itself. -/
theorem printable_enclose (hclosing : 0x20 ≤ closing.toNat) (h : Printable rest)
    (hW : ∀ a ∈ as, ∀ s, Printable s → Printable (W a s)) :
    Printable (enclose .compact depth closing W as rest) := by
  cases as with
  | nil => exact printable_cons.2 ⟨hclosing, h⟩
  | cons a as =>
    refine hW a (List.mem_cons_self ..) _ ?_
    exact printable_encloseMore hclosing h fun b hb => hW b (List.mem_cons_of_mem a hb)

/-- What the compact layout writes for a value has no control characters. -/
theorem printable_write (v : Json) (depth : Nat) (h : Printable rest) :
    Printable (write .compact depth v rest) := by
  -- on the value, at any depth and in front of any rest without control characters
  induction v using recOnParts generalizing depth rest with
  | text text =>
    rw [write_text]
    exact printable_writeText text h
  | array vs ih =>
    rw [write_array, printable_cons]
    exact ⟨by decide, printable_enclose (by decide) h fun v hv s hs => ih v hv (depth + 1) hs⟩
  | object fs ih =>
    rw [write_object, printable_cons]
    refine ⟨by decide, printable_enclose (by decide) h fun f hf s hs => ?_⟩
    refine printable_writeText f.1 (printable_cons.2 ⟨by decide, ?_⟩)
    exact ih f hf (depth + 1) hs

/-- The compact form has no control characters. -/
theorem printable_compact (v : Json) : Printable v.compact.toList := by
  rw [compact, String.toList_ofList]
  exact printable_write v 0 printable_nil

/-! ### White space -/

/-- Where a place in a text lies: outside of the literals, inside of one, or inside of one behind a
backslash. -/
inductive Region where
  | outside
  | inside
  | escaped

/-- The text without the white space outside of its literals. -/
def stripSpace : Region → List Char → List Char
  | _, [] => []
  | .outside, c :: s =>
    if isSpace c then stripSpace .outside s
    else c :: stripSpace (if c = '"' then .inside else .outside) s
  | .inside, c :: s =>
    c :: stripSpace (if c = '\\' then .escaped else if c = '"' then .outside else .inside) s
  | .escaped, c :: s => c :: stripSpace .inside s

/-- White space outside of the literals is stripped. -/
theorem stripSpace_spaces (hu : ∀ d ∈ u, isSpace d = true) :
    stripSpace .outside (u ++ s) = stripSpace .outside s := by
  induction u with
  | nil => rfl
  | cons d u ih =>
    rw [List.cons_append, stripSpace, if_pos (hu d (List.mem_cons_self ..))]
    exact ih fun e he => hu e (List.mem_cons_of_mem _ he)

/-- A character outside of the literals that starts none and is no white space stays where it is. -/
theorem stripSpace_outside (h : isSpace c = false) (hquote : c ≠ '"') :
    stripSpace .outside (c :: s) = c :: stripSpace .outside s := by
  simp [stripSpace, h, hquote]

theorem stripSpace_inside (hquote : c ≠ '"') (hbackslash : c ≠ '\\') :
    stripSpace .inside (c :: s) = c :: stripSpace .inside s := by
  simp [stripSpace, hquote, hbackslash]

/-- What is written for a character within a literal stays as it is, and the literal goes on behind
it. -/
theorem stripSpace_escape (c : Char) (s : List Char) :
    stripSpace .inside (escape c ++ s) = escape c ++ stripSpace .inside s := by
  rcases escape_cases c with ⟨h, hquote, hbackslash, -⟩ | ⟨e, h, -⟩ | ⟨h, hc⟩
  · rw [h]
    exact stripSpace_inside hquote hbackslash
  · rw [h]
    rfl
  · -- neither digit ends the literal or escapes what follows it
    obtain ⟨-, hhigh, hhigh'⟩ := hexDigit_spec (c.toNat / 16) (by omega)
    obtain ⟨-, hlow, hlow'⟩ := hexDigit_spec (c.toNat % 16) (by omega)
    rw [h]
    show '\\' :: 'u' :: '0' :: '0' :: stripSpace .inside (hexDigit _ :: hexDigit _ :: s) = _
    rw [stripSpace_inside hhigh hhigh', stripSpace_inside hlow hlow']
    rfl

/-- What is written for a text stays as it is, its white space included. -/
theorem stripSpace_writeText (text : String) (rest : List Char) :
    stripSpace .outside (writeText text rest) = writeText text (stripSpace .outside rest) := by
  -- the literal goes on through all of its characters, up to the quote that closes it
  have htext : ∀ cs : List Char, stripSpace .inside (cs.flatMap escape ++ '"' :: rest) =
      cs.flatMap escape ++ '"' :: stripSpace .outside rest := by
    intro cs
    induction cs with
    | nil => rfl
    | cons c cs ih =>
      rw [List.flatMap_cons, List.append_assoc, stripSpace_escape, ih, List.append_assoc]
  show '"' :: stripSpace .inside _ = _
  rw [htext]
  rfl

/-- The items behind the first one lose their gaps, if each of them loses its own. -/
theorem stripSpace_encloseMore (hl : l.Spacing) (hclosing : isSpace closing = false)
    (hquote : closing ≠ '"') (hW : ∀ a ∈ as, ∀ s,
      stripSpace .outside (W a s) = W' a (stripSpace .outside s)) :
    stripSpace .outside (encloseMore l depth closing W as rest) =
      encloseMore .compact depth' closing W' as (stripSpace .outside rest) := by
  induction as with
  | nil =>
    rw [encloseMore, stripSpace_spaces (hl.gap depth), stripSpace_outside hclosing hquote]
    rfl
  | cons a as ih =>
    rw [encloseMore, stripSpace_outside rfl (by decide), stripSpace_spaces (hl.gap (depth + 1)),
      hW a (List.mem_cons_self ..), ih fun b hb => hW b (List.mem_cons_of_mem a hb)]
    rfl

/-- A list loses its gaps, if each of its items loses its own. -/
theorem stripSpace_enclose (hl : l.Spacing) (hclosing : isSpace closing = false)
    (hquote : closing ≠ '"') (hW : ∀ a ∈ as, ∀ s,
      stripSpace .outside (W a s) = W' a (stripSpace .outside s)) :
    stripSpace .outside (enclose l depth closing W as rest) =
      enclose .compact depth' closing W' as (stripSpace .outside rest) := by
  cases as with
  | nil => exact stripSpace_outside hclosing hquote
  | cons a as =>
    rw [enclose, stripSpace_spaces (hl.gap (depth + 1)), hW a (List.mem_cons_self ..),
      stripSpace_encloseMore hl hclosing hquote fun b hb => hW b (List.mem_cons_of_mem a hb)]
    rfl

/-- Without the white space, every layout is the compact one. -/
theorem stripSpace_write (hl : l.Spacing) (v : Json) (depth depth' : Nat) (rest : List Char) :
    stripSpace .outside (write l depth v rest) =
      write .compact depth' v (stripSpace .outside rest) := by
  -- on the value; the depth does not matter to the compact layout
  induction v using recOnParts generalizing depth depth' rest with
  | text text =>
    rw [write_text, write_text]
    exact stripSpace_writeText text rest
  | array vs ih =>
    rw [write_array, write_array, stripSpace_outside rfl (by decide)]
    refine congrArg _ (stripSpace_enclose hl rfl (by decide) fun v hv s => ?_)
    exact ih v hv (depth + 1) (depth' + 1) s
  | object fs ih =>
    rw [write_object, write_object, stripSpace_outside rfl (by decide)]
    refine congrArg _ (stripSpace_enclose hl rfl (by decide) fun f hf s => ?_)
    rw [writeField, stripSpace_writeText, stripSpace_outside rfl (by decide),
      stripSpace_spaces hl.afterColon, ih f hf (depth + 1) (depth' + 1) s]
    rfl

/-- The pretty form is the compact one but for the white space outside of the literals. -/
theorem stripSpace_pretty (v : Json) :
    stripSpace .outside v.pretty.toList = v.compact.toList := by
  rw [pretty, compact, String.toList_ofList, String.toList_ofList]
  exact stripSpace_write spacing_pretty v 0 0 []

end FieldMapping.Json
