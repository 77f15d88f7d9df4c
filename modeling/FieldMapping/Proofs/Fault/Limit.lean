import FieldMapping.Proofs.Fault.Place

/-!
# What the limit on nesting does

Blocks may nest as deep as a limit allows. Two parses of one text under different limits take the
same steps until a block lies too deep for the lower limit, so a limit changes a result in one way
only: what would come behind the brace of such a block is replaced by a refusal of the block.
-/

namespace FieldMapping

open Text Grammar Statement

variable {source : String} {limit limit' : Nat} {e : SyntaxError} {ts : List Statement}

/-- A text that is a field mapping under a limit is the same one under every limit that its blocks
keep to. -/
theorem parse_eq_ok_of_nesting_le (h : parse source limit = .ok ts) (hle : nesting ts ≤ limit') :
    parse source limit' = .ok ts :=
  parse_of_document (document_of_parse h).1 hle

/-- An error under a limit is an error under a higher one too, unless it refuses a block for its
depth. Then whatever else is wrong with the text comes behind it. -/
theorem parse_eq_error_or_tooDeep (h : parse source limit = .error e) (hle : limit ≤ limit') :
    parse source limit' = .error e ∨ e.cause = .tooDeep limit ∧
      ∀ e', parse source limit' = .error e' → e.offset ≤ e'.offset := by
  obtain ⟨before, after, hsource, hoffset, hbroken, he⟩ := broken_of_parse h
  rcases run_of_broken_le hbroken hle (Nat.zero_le _) {} rfl rfl with hf | ⟨-, hcause, w, hw⟩
  · refine .inl (parse_eq_error_iff.2 ⟨e.cause, after, fails_run_iff.1 hf, ?_⟩)
    rw [he, hsource]
    simp
  · refine .inr ⟨hcause, fun e' h' => ?_⟩
    obtain ⟨before', after', hsource', hoffset', hbroken', -⟩ := broken_of_parse h'
    -- the pass with the higher limit goes on in `after`
    have hf : Fails (w.run limit' 0 after).result e'.cause after' :=
      hw ▸ fails_run_iff.2 hbroken'
    obtain ⟨v, rfl⟩ := (broken_of_run hf).suffix
    obtain rfl : before' = before ++ v :=
      List.append_cancel_right (hsource'.symm.trans (hsource.trans (by simp)))
    rw [hoffset, hoffset', byteSize_append]
    exact Nat.le_add_right ..

/-- A higher limit changes a result only if a block was refused for its depth. A text that is a
field mapping under the higher limit is one under the lower limit if its blocks keep to it, and
refused for their depth if they do not. Of a text that is refused under both limits, the place under
the higher one is no earlier. -/
theorem parse_limit_le (source : String) (hle : limit ≤ limit') :
    ((∀ e n, parse source limit = .error e → e.cause ≠ .tooDeep n) →
      parse source limit' = parse source limit) ∧
    (∀ ts, parse source limit' = .ok ts →
      (nesting ts ≤ limit → parse source limit = .ok ts) ∧
      (¬ nesting ts ≤ limit → ∃ e, parse source limit = .error e ∧ e.cause = .tooDeep limit)) ∧
    (∀ e e' n, parse source limit = .error e → e.cause = .tooDeep n →
      parse source limit' = .error e' → e.offset ≤ e'.offset) := by
  refine ⟨fun hno => ?_, fun ts h' => ⟨parse_eq_ok_of_nesting_le h', fun hdeep => ?_⟩,
    fun e e' n h hcause h' => ?_⟩
  · cases h : parse source limit with
    | ok ts => exact parse_eq_ok_of_nesting_le h ((document_of_parse h).2.trans hle)
    | error e =>
      exact (parse_eq_error_or_tooDeep h hle).resolve_right fun hdeep => hno e limit h hdeep.1
  · cases h : parse source limit with
    | ok us =>
      -- the statements are the same, and they keep to the lower limit
      have hus := (document_of_parse h).2
      cases h'.symm.trans (parse_eq_ok_of_nesting_le h (hus.trans hle))
      exact absurd hus hdeep
    | error e =>
      rcases parse_eq_error_or_tooDeep h hle with h'' | ⟨hcause, -⟩
      · cases h'.symm.trans h''
      · exact ⟨e, rfl, hcause⟩
  · rcases parse_eq_error_or_tooDeep h hle with h'' | ⟨-, hle'⟩
    · cases h'.symm.trans h''
      exact le_rfl
    · exact hle' e' h'

/-- Two blocks in one another are two deep, and refused where the limit is one. -/
theorem parse_inner_block : 1 ≤ 2 ∧ ∃ ts, parse "a\x7bb\x7bc,\x7d\x7d" 2 = .ok ts ∧
    ¬ nesting ts ≤ 1 ∧
      ∃ e, parse "a\x7bb\x7bc,\x7d\x7d" 1 = .error e ∧ e.cause = .tooDeep 1 := by
  have h : parse "a\x7bb\x7bc,\x7d\x7d" 2 = .ok
      [⟨"a", none, some [⟨"b", none, some [⟨"c", none, none⟩]⟩]⟩] := by decide +kernel
  have hle : 1 ≤ 2 := by decide
  obtain ⟨-, hok, -⟩ := parse_limit_le "a\x7bb\x7bc,\x7d\x7d" hle
  exact ⟨hle, _, h, by simp, (hok _ h).2 (by simp)⟩

end FieldMapping
