import FieldMapping.Proofs.Json.Grammar

/-!
# Written JSON

What is written for a value is JSON for this value and for no other (`reads_compact_iff`,
`reads_pretty_iff`).

Both written forms of a list, items and fields, are read off one definition, `enclose`, so that a
property of written values takes one lemma for lists and an induction over the value. What is
written for a character of a text is told by `escape_cases`.
-/

namespace FieldMapping.Json

variable {α : Type} {s t u r rest : List Char} {c closing : Char} {l : Layout} {depth depth' : Nat}

/-! ### Characters -/

/-- A hexadecimal digit is read as the number it is written for. -/
theorem hexValue?_hexDigit : ∀ n < 16, hexValue? (hexDigit n) = some n := by decide

/-- A character stands for itself, behind a backslash, or as an escape with its number. -/
theorem escape_cases (c : Char) :
    (escape c = [c] ∧ c ≠ '"' ∧ c ≠ '\\' ∧ 0x20 ≤ c.toNat) ∨
    (∃ e, escape c = ['\\', e] ∧ (e, c) ∈ shortEscapes) ∨
    (escape c = ['\\', 'u', '0', '0', hexDigit (c.toNat / 16), hexDigit (c.toNat % 16)] ∧
      c.toNat < 0x20) := by
  unfold escape
  split
  · exact .inr (.inl ⟨'"', rfl, by decide⟩)
  · exact .inr (.inl ⟨'\\', rfl, by decide⟩)
  · exact .inr (.inl ⟨'n', rfl, by decide⟩)
  · exact .inr (.inl ⟨'r', rfl, by decide⟩)
  · exact .inr (.inl ⟨'t', rfl, by decide⟩)
  · exact .inr (.inl ⟨'b', rfl, by decide⟩)
  · exact .inr (.inl ⟨'f', rfl, by decide⟩)
  · split <;> rename_i h
    · exact .inr (.inr ⟨rfl, h⟩)
    · exact .inl ⟨rfl, by assumption, by assumption, by omega⟩

/-- An escape of two characters is read as the character it is for. -/
theorem readEscape?_short {e : Char} (h : (e, c) ∈ shortEscapes) :
    readEscape? (e :: r) = some (c, r) := by
  simp only [shortEscapes, List.mem_cons, List.not_mem_nil, or_false, Prod.mk.injEq] at h
  rcases h with ⟨rfl, rfl⟩ | ⟨rfl, rfl⟩ | ⟨rfl, rfl⟩ | ⟨rfl, rfl⟩ | ⟨rfl, rfl⟩ | ⟨rfl, rfl⟩ |
    ⟨rfl, rfl⟩ | ⟨rfl, rfl⟩ <;> rfl

/-- An escape with the number of a character in front of the surrogates is read as this
character. -/
theorem readEscape?_unit {n : Nat} (h : readUnit? s = some (n, r)) (hn : n < 0xD800) :
    readEscape? ('u' :: s) = some (Char.ofNat n, r) := by
  simp only [readEscape?, h, Option.bind_eq_bind, Option.bind_some]
  exact if_pos (.inl hn)

/-- A character that is neither a quote, nor a backslash, nor a control stands for itself. -/
theorem readCharacter?_plain (hquote : c ≠ '"') (hbackslash : c ≠ '\\') (hc : 0x20 ≤ c.toNat) :
    readCharacter? (c :: r) = some (c, r) := by
  unfold readCharacter?
  split <;> rename_i hs <;> cases hs
  · exact absurd rfl hbackslash
  · exact absurd rfl hquote
  · exact if_neg (by omega)

/-- What is written for a character is read as this character. -/
theorem readCharacter?_escape (c : Char) (r : List Char) :
    readCharacter? (escape c ++ r) = some (c, r) := by
  rcases escape_cases c with ⟨h, hquote, hbackslash, hc⟩ | ⟨e, h, he⟩ | ⟨h, hc⟩
  · rw [h]
    exact readCharacter?_plain hquote hbackslash hc
  · rw [h]
    exact readEscape?_short he
  · -- the number of a control has two digits, behind two zeros
    have hunit : readUnit? ('0' :: '0' :: hexDigit (c.toNat / 16) ::
        hexDigit (c.toNat % 16) :: r) = some (c.toNat, r) := by
      have hzero : hexValue? '0' = some 0 := rfl
      simp only [readUnit?, hzero, hexValue?_hexDigit (c.toNat / 16) (by omega),
        hexValue?_hexDigit (c.toNat % 16) (by omega), Option.bind_eq_bind, Option.bind_some]
      rw [show ((0 * 16 + 0) * 16 + c.toNat / 16) * 16 + c.toNat % 16 = c.toNat by omega]
    rw [h]
    show readEscape? ('u' :: '0' :: '0' :: hexDigit _ :: hexDigit _ :: r) = _
    rw [readEscape?_unit hunit (by omega), Char.ofNat_toNat]

/-- What is written for the characters of a text, with a quote behind it, is read as these
characters. -/
theorem characters_flatMap (cs r : List Char) :
    Characters (cs.flatMap escape ++ '"' :: r) cs r := by
  induction cs with
  | nil => exact .close
  | cons c cs ih =>
    rw [List.flatMap_cons, List.append_assoc]
    exact .cons (readCharacter?_escape c _) ih

/-! ### White space -/

/-- A character that is no white space comes next where it stands first. -/
theorem mark_cons (h : isSpace c = false) : Mark c (c :: r) r :=
  List.dropWhile_cons_of_neg (by simp [h])

/-- White space in front of a mark is skipped. -/
theorem Mark.of_spaces (hu : ∀ d ∈ u, isSpace d = true) (h : Mark c s r) : Mark c (u ++ s) r :=
  (List.dropWhile_append_of_pos hu).trans h

/-- White space in front of a literal is skipped. -/
theorem Literal.of_spaces {text : String} (hu : ∀ d ∈ u, isSpace d = true)
    (h : Literal s text r) : Literal (u ++ s) text r := by
  obtain ⟨t, ht, hcs⟩ := h
  exact ⟨t, ht.of_spaces hu, hcs⟩

/-- What is written for a text is the literal for it. -/
theorem literal_writeText (text : String) (rest : List Char) :
    Literal (writeText text rest) text rest :=
  ⟨_, mark_cons rfl, characters_flatMap text.toList rest⟩

/-- White space in front of a value is skipped. -/
theorem Denotes.of_spaces {v : Json} (hu : ∀ d ∈ u, isSpace d = true) (h : Denotes s v r) :
    Denotes (u ++ s) v r := by
  cases h with
  | text h => exact .text (h.of_spaces hu)
  | array h hvs => exact .array (h.of_spaces hu) hvs
  | object h hfs => exact .object (h.of_spaces hu) hfs

/-- White space in front of a field is skipped. -/
theorem Field.of_spaces {f : String × Json} (hu : ∀ d ∈ u, isSpace d = true) (h : Field s f r) :
    Field (u ++ s) f r := by
  cases h with
  | mk hkey hcolon hv => exact .mk (hkey.of_spaces hu) hcolon hv

/-- A layout that puts nothing but white space between the tokens. -/
structure Layout.Spacing (l : Layout) : Prop where
  gap : ∀ depth, ∀ c ∈ l.gap depth, isSpace c = true
  afterColon : ∀ c ∈ l.afterColon, isSpace c = true

/-- The compact layout puts nothing between the tokens. -/
theorem spacing_compact : Layout.compact.Spacing := by
  constructor <;> simp [Layout.compact]

/-- The pretty layout puts line feeds and spaces between the tokens. -/
theorem spacing_pretty : Layout.pretty.Spacing := by
  constructor
  · intro depth c hc
    rcases List.mem_cons.1 hc with rfl | hc
    · rfl
    · rw [List.eq_of_mem_replicate hc]
      rfl
  · intro c hc
    rw [List.mem_singleton.1 hc]
    rfl

/-! ### Lists -/

/-- Items written by `W` inside `depth` brackets and one more, each behind a comma, and the bracket
that closes the list, in front of `rest`. -/
def encloseMore (l : Layout) (depth : Nat) (closing : Char) (W : α → List Char → List Char) :
    List α → List Char → List Char
  | [], rest => l.gap depth ++ closing :: rest
  | a :: as, rest => ',' :: (l.gap (depth + 1) ++ W a (encloseMore l depth closing W as rest))

/-- The items of a list behind the bracket that opens it, and the bracket that closes it. -/
def enclose (l : Layout) (depth : Nat) (closing : Char) (W : α → List Char → List Char) :
    List α → List Char → List Char
  | [], rest => closing :: rest
  | a :: as, rest => l.gap (depth + 1) ++ W a (encloseMore l depth closing W as rest)

/-- A field of an object inside `depth` brackets, in front of `rest`. -/
def writeField (l : Layout) (depth : Nat) (f : String × Json) (rest : List Char) : List Char :=
  writeText f.1 (':' :: (l.afterColon ++ write l depth f.2 rest))

/-- The items of an array that is not empty, behind the first one, are written as those of any
list. -/
theorem writeItems_eq (vs : List Json) :
    writeItems l (depth + 1) vs (l.gap depth ++ closing :: rest) =
      encloseMore l depth closing (write l (depth + 1)) vs rest := by
  induction vs with
  | nil => rfl
  | cons v vs ih => rw [writeItems, ih, encloseMore]

/-- The fields of an object that is not empty, behind the first one, are written as those of any
list. -/
theorem writeFields_eq (fs : List (String × Json)) :
    writeFields l (depth + 1) fs (l.gap depth ++ closing :: rest) =
      encloseMore l depth closing (writeField l (depth + 1)) fs rest := by
  induction fs with
  | nil => rfl
  | cons f fs ih => rw [writeFields, ih, encloseMore, writeField]

theorem write_text (text : String) : write l depth (.text text) rest = writeText text rest := by
  rw [write]

/-- An array is a list between brackets. -/
theorem write_array (vs : List Json) : write l depth (.array vs) rest =
    '[' :: enclose l depth ']' (write l (depth + 1)) vs rest := by
  cases vs with
  | nil => rw [write, enclose]
  | cons v vs => rw [write, enclose, writeItems_eq]

/-- An object is a list of fields between braces. -/
theorem write_object (fs : List (String × Json)) : write l depth (.object fs) rest =
    '{' :: enclose l depth '}' (writeField l (depth + 1)) fs rest := by
  cases fs with
  | nil => rw [write, enclose]
  | cons f fs => rw [write, enclose, writeFields_eq, writeField]

/-! ### Reading what is written -/

section Items

variable {R : List Char → α → List Char → Prop} {W : α → List Char → List Char} {as : List α}

/-- What is written for the items behind the first one is read as these items, if what `W` writes
for each of them is. -/
theorem items_encloseMore (hl : l.Spacing) (hclosing : isSpace closing = false)
    (hspaces : ∀ u s a r, (∀ d ∈ u, isSpace d = true) → R s a r → R (u ++ s) a r)
    (hW : ∀ a ∈ as, ∀ rest, R (W a rest) a rest) :
    Items R closing false (encloseMore l depth closing W as rest) as rest := by
  -- on the items: the gap is skipped behind each comma and in front of the closing bracket
  induction as with
  | nil => exact .close ((mark_cons hclosing).of_spaces (hl.gap depth))
  | cons a as ih =>
    have ha := hW a (List.mem_cons_self ..) (encloseMore l depth closing W as rest)
    refine .more (mark_cons rfl) (hspaces _ _ _ _ (hl.gap (depth + 1)) ha) ?_
    exact ih fun b hb => hW b (List.mem_cons_of_mem a hb)

/-- What is written for the items of a list is read as these items, if what `W` writes for each
is. -/
theorem items_enclose (hl : l.Spacing) (hclosing : isSpace closing = false)
    (hspaces : ∀ u s a r, (∀ d ∈ u, isSpace d = true) → R s a r → R (u ++ s) a r)
    (hW : ∀ a ∈ as, ∀ rest, R (W a rest) a rest) :
    Items R closing true (enclose l depth closing W as rest) as rest := by
  cases as with
  | nil => exact .close (mark_cons hclosing)
  | cons a as =>
    have ha := hW a (List.mem_cons_self ..) (encloseMore l depth closing W as rest)
    refine .first (hspaces _ _ _ _ (hl.gap (depth + 1)) ha) ?_
    exact items_encloseMore hl hclosing hspaces fun b hb => hW b (List.mem_cons_of_mem a hb)

end Items

/-- What is written for a field is read as this field, if what is written for its value is. -/
theorem field_writeField {f : String × Json} (hl : l.Spacing)
    (hv : Denotes (write l depth f.2 rest) f.2 rest) : Field (writeField l depth f rest) f rest :=
  .mk (literal_writeText f.1 _) (mark_cons rfl) (hv.of_spaces hl.afterColon)

/-- What is written for a value, in any layout, is JSON for this value. -/
theorem denotes_write (hl : l.Spacing) (v : Json) (depth : Nat) (rest : List Char) :
    Denotes (write l depth v rest) v rest := by
  -- on the value, at any depth and in front of any rest
  induction v using recOnParts generalizing depth rest with
  | text text =>
    rw [write_text]
    exact .text (literal_writeText text rest)
  | array vs ih =>
    rw [write_array]
    refine .array (mark_cons rfl) (items_enclose hl rfl (fun _ _ _ _ => Denotes.of_spaces) ?_)
    exact fun v hv rest => ih v hv (depth + 1) rest
  | object fs ih =>
    rw [write_object]
    refine .object (mark_cons rfl) (items_enclose hl rfl (fun _ _ _ _ => Field.of_spaces) ?_)
    exact fun f hf rest => field_writeField hl (ih f hf (depth + 1) rest)

/-- In a layout of white space, a value is read as itself and as nothing else. -/
theorem reads_ofList_write (hl : l.Spacing) (v u : Json) :
    Reads (String.ofList (v.write l 0 [])) u ↔ u = v := by
  have hv : Reads (String.ofList (v.write l 0 [])) v := by
    refine ⟨[], ?_, by simp⟩
    rw [String.toList_ofList]
    exact denotes_write hl v 0 []
  constructor
  · exact hv.unique
  · rintro rfl
    exact hv

/-- The compact form of a value is JSON for this value and for no other. -/
theorem reads_compact_iff (v u : Json) : Reads v.compact u ↔ u = v :=
  reads_ofList_write spacing_compact v u

/-- The pretty form of a value is JSON for this value and for no other. -/
theorem reads_pretty_iff (v u : Json) : Reads v.pretty u ↔ u = v :=
  reads_ofList_write spacing_pretty v u

end FieldMapping.Json
