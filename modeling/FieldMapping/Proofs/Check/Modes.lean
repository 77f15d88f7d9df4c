import FieldMapping.Check
import FieldMapping.Proofs.Grammar.Parsing
import FieldMapping.Proofs.Json.Recovery

/-!
# The modes of a check

A check looks at its text twice. Before it parses, it turns down a text that is nothing but white
space, and then it reports what the parser returns in one of three modes. The two looks agree:
the texts that are turned down are the ones that the parser would return no statements for
(`parse_eq_ok_nil_iff`), whatever the limit. So no mode ever reports on no statements.
-/

namespace FieldMapping

open Text Grammar Statement

variable {source : String} {limit : Nat}

/-- A text has no statements just if it is nothing but white space. Separators alone are refused. -/
theorem parse_eq_ok_nil_iff :
    parse source limit = .ok [] ↔ ∀ c ∈ source.toList, isSpace c = true := by
  rw [parse_eq_ok_iff_document]
  constructor
  · rintro ⟨hdoc, -⟩
    -- every other rule adds a statement, or needs one in front of it
    cases hdoc with
    | finish hs =>
      obtain ⟨u, hu, hspace, -⟩ := hs
      rwa [hu, List.append_nil]
  · intro h
    exact ⟨.finish ⟨source.toList, (List.append_nil _).symm, h, by simp⟩, by simp⟩

namespace CheckOptions

variable {o : CheckOptions} {report : CheckReport} {e : SyntaxError} {ts : List Statement}

/-- A check finds no input in a text that is nothing but white space. -/
theorem isEmpty_iff : isEmpty source = true ↔ ∀ c ∈ source.toList, isSpace c = true := by
  rw [isEmpty, List.isEmpty_iff, trim_eq_nil_iff]

/-- A text that is more than white space has a statement, if it has any. -/
theorem ne_nil_of_parse (h : ¬ isEmpty source = true) (hparse : parse source limit = .ok ts) :
    ts ≠ [] := by
  rintro rfl
  exact h (isEmpty_iff.2 (parse_eq_ok_nil_iff.1 hparse))

/-! ### What a check returns -/

/-- Behind the first look, a check refuses what the parser refuses. -/
theorem check_of_parse_eq_error (h : ¬ isEmpty source = true)
    (hparse : parse source o.effectiveLimit = .error e) :
    o.check source = .error (.refused e) := by
  rw [check, if_neg h, hparse]

/-- Behind the first look, a check reports what the parser returns. -/
theorem check_of_parse_eq_ok (h : ¬ isEmpty source = true)
    (hparse : parse source o.effectiveLimit = .ok ts) : o.check source = .ok (o.report ts) := by
  rw [check, if_neg h, hparse]

/-- A report is one on statements that the parser returns. -/
theorem check_eq_ok_iff : o.check source = .ok report ↔
    isEmpty source = false ∧ ∃ ts, parse source o.effectiveLimit = .ok ts ∧
      o.report ts = report := by
  by_cases hempty : isEmpty source = true
  · simp [check_of_isEmpty hempty, hempty]
  · cases hparse : parse source o.effectiveLimit with
    | error e => simp [check_of_parse_eq_error hempty hparse]
    | ok ts => simp [check_of_parse_eq_ok hempty hparse, hempty]

/-- A check finds no input only where there is none. -/
theorem check_eq_noInput_iff : o.check source = .error .noInput ↔ isEmpty source = true := by
  refine ⟨fun h => ?_, check_of_isEmpty⟩
  by_contra hempty
  cases hparse : parse source o.effectiveLimit with
  | error e => cases h.symm.trans (check_of_parse_eq_error hempty hparse)
  | ok ts => cases h.symm.trans (check_of_parse_eq_ok hempty hparse)

/-- No mode reports statements as it would report that there are none. -/
theorem report_ne (h : ts ≠ []) : o.report ts ≠ .count 0 ∧ o.report ts ≠ .json "[]" := by
  have hcompact : toJsonText [] = "[]" := Json.compact_array_nil
  have hpretty : toPrettyJsonText [] = "[]" := Json.pretty_array_nil
  have hcompact' : toJsonText ts ≠ "[]" := fun hts =>
    h (toJsonText_injective (hts.trans hcompact.symm))
  have hpretty' : toPrettyJsonText ts ≠ "[]" := fun hts =>
    h (toPrettyJsonText_injective (hts.trans hpretty.symm))
  -- the modes are told apart: a count, the pretty form, the compact form
  unfold report
  split
  · simpa using h
  · split
    · simpa using hpretty'
    · simpa using hcompact'

/-- **All modes of a check agree with the parser.** A text that is nothing but white space is the
only one without statements, and the only one that a check finds no input in. Of every other text,
each mode refuses it as the parser does, or reports the statements that the parser returns, of which
there is one at least. -/
theorem check_modes (source : String) (limit : Option Nat) :
    (parse source (limit.getD defaultLimit) = .ok [] ↔ ∀ c ∈ source.toList, isSpace c = true) ∧
    (∀ pretty countOnly, check ⟨pretty, countOnly, limit⟩ source = .error .noInput ↔
      ∀ c ∈ source.toList, isSpace c = true) ∧
    ((∃ c ∈ source.toList, isSpace c = false) →
      (∀ e, parse source (limit.getD defaultLimit) = .error e →
        ∀ pretty countOnly, check ⟨pretty, countOnly, limit⟩ source = .error (.refused e)) ∧
      ∀ ts, parse source (limit.getD defaultLimit) = .ok ts → ts ≠ [] ∧
        (∀ pretty, check ⟨pretty, true, limit⟩ source = .ok (.count ts.length)) ∧
        check ⟨false, false, limit⟩ source = .ok (.json (toJsonText ts)) ∧
        check ⟨true, false, limit⟩ source = .ok (.json (toPrettyJsonText ts))) ∧
    ∀ pretty countOnly, check ⟨pretty, countOnly, limit⟩ source ≠ .ok (.count 0) ∧
      check ⟨pretty, countOnly, limit⟩ source ≠ .ok (.json "[]") := by
  refine ⟨parse_eq_ok_nil_iff, fun pretty countOnly => check_eq_noInput_iff.trans isEmpty_iff,
    fun ⟨c, hc, hspace⟩ => ?_, fun pretty countOnly => ?_⟩
  · have hinput : ¬ isEmpty source = true := by
      intro hempty
      rw [isEmpty_iff.1 hempty c hc] at hspace
      cases hspace
    exact ⟨fun e hparse pretty countOnly => check_of_parse_eq_error hinput hparse,
      fun ts hparse => ⟨ne_nil_of_parse hinput hparse, fun pretty =>
        check_of_parse_eq_ok hinput hparse, check_of_parse_eq_ok hinput hparse,
        check_of_parse_eq_ok hinput hparse⟩⟩
  · -- whatever is reported comes from statements, of which there is one at least
    have hreport : ∀ report, check ⟨pretty, countOnly, limit⟩ source = .ok report →
        report ≠ .count 0 ∧ report ≠ .json "[]" := by
      intro report h
      obtain ⟨hinput, ts, hparse, rfl⟩ := check_eq_ok_iff.1 h
      exact report_ne (ne_nil_of_parse (by simp [hinput]) hparse)
    exact ⟨fun h => (hreport _ h).1 rfl, fun h => (hreport _ h).2 rfl⟩

/-- The modes of a check of two statements, on lines of their own and behind white space. -/
theorem check_modes_of_two_lines : (∃ c ∈ " \n a:b \r\nc".toList, isSpace c = false) ∧
    ∃ ts, parse " \n a:b \r\nc" 0 = .ok ts ∧ ts ≠ [] ∧
      (∀ pretty, check ⟨pretty, true, some 0⟩ " \n a:b \r\nc" = .ok (.count ts.length)) ∧
      check ⟨false, false, some 0⟩ " \n a:b \r\nc" = .ok (.json (toJsonText ts)) ∧
      check ⟨true, false, some 0⟩ " \n a:b \r\nc" = .ok (.json (toPrettyJsonText ts)) := by
  have hparse : parse " \n a:b \r\nc" 0 =
      .ok [⟨"a", some (.field "b"), none⟩, ⟨"c", none, none⟩] := by decide +kernel
  have hspace : ∃ c ∈ " \n a:b \r\nc".toList, isSpace c = false := ⟨'a', by decide, rfl⟩
  obtain ⟨-, -, hmodes, -⟩ := check_modes " \n a:b \r\nc" (some 0)
  exact ⟨hspace, _, hparse, (hmodes hspace).2 _ hparse⟩

end CheckOptions

end FieldMapping
