import FieldMapping.Proofs.Invariance.Replacing
import FieldMapping.Proofs.Online.Literal

/-!
# What a literal holds

What stands between the quotes of a literal changes nothing but the literal
(`parse_literal`). Nothing is asked of it except that it does not hold the quote: it may hold
operators, line ends, the other quote and braces without a partner, and it may be of any length.

Behind the quote that opens the literal, either text leads through it to the same state up to the
literal that has been read (`read_enclosed`). From there on the two texts are the same, and so are
the statements up to that literal, or the place and the reason of a refusal (`agree_read`).
-/

namespace FieldMapping

open Text Online

/-- The literal that holds `body`. -/
def enclose (quote : Char) (body : String) : String :=
  String.singleton quote ++ body ++ String.singleton quote

/-- The characters of a literal: its quote on both sides of what it holds. -/
theorem toList_enclose (quote : Char) (body : String) :
    (enclose quote body).toList = quote :: body.toList ++ [quote] := by
  simp [enclose]

/-- What the reader has collected at the second quote is the literal. -/
theorem ofList_enclosed (quote : Char) (body : String) :
    String.ofList (quote :: body.toList ++ [quote]) = enclose quote body := by
  rw [← toList_enclose, String.ofList_toList]

namespace Online

variable {limit : Nat} {w : Walk} {items : Items} {q : Char} {b : String} {s : List Char}

/-- A literal is read up to its quote, whatever it holds. -/
theorem read_enclosed (hb : q ∉ b.toList) :
    read limit ⟨w, .literal items q []⟩ (b.toList ++ q :: s) =
      read limit ⟨w, .behindValue items (.scalar (enclose q b))⟩ s := by
  have hbody : ∀ c ∈ b.toList, (c != q) = true := by
    intro c hc
    simpa using fun h : c = q => hb (h ▸ hc)
  have hstop : ∀ c ∈ (q :: s).head?, (c != q) = false := by simp
  rw [read_within_literal, dropWhile_append_eq hbody hstop, takeWhile_append_eq hbody hstop,
    List.nil_append, ofList_enclosed]

/-- Behind the text before a literal, what is read is what goes on behind the literal. -/
theorem read_literal {u v : String}
    (hu : feed limit start (u.toList ++ [q]) = .ok ⟨w, .literal items q []⟩) (hb : q ∉ b.toList) :
    read limit start (u ++ enclose q b ++ v).toList =
      read limit ⟨w, .behindValue items (.scalar (enclose q b))⟩ v.toList := by
  have htext : (u ++ enclose q b ++ v).toList =
      (u.toList ++ [q]) ++ (b.toList ++ q :: v.toList) := by
    simp [toList_enclose]
  rw [htext, read_append, hu]
  exact read_enclosed hb

end Online

/-- What a literal holds changes nothing but the literal, wherever it stands: the statements are the
same up to this one scalar, and a refusal behind it is the same at a place shifted by what the
literal is longer. -/
theorem parse_literal {limit : Nat} {u : String} {q : Char} {b b' : String} {e₀ : SyntaxError}
    (hu : parse (u ++ String.singleton q) limit = .error e₀) (hq : e₀.cause = .unclosedQuote q)
    (hb : q ∉ b.toList) (hb' : q ∉ b'.toList) (v : String) :
    (∀ ts, parse (u ++ enclose q b ++ v) limit = .ok ts →
      ∃ ts', parse (u ++ enclose q b' ++ v) limit = .ok ts' ∧
        ReplacesOne (Statement.Replaces (enclose q b) (enclose q b')) ts ts') ∧
    ∀ e, parse (u ++ enclose q b ++ v) limit = .error e →
      ∃ e', parse (u ++ enclose q b' ++ v) limit = .error e' ∧ e'.cause = e.cause ∧
        e'.offset + b.utf8ByteSize = e.offset + b'.utf8ByteSize := by
  -- the first text is refused for its open quote, so the reader is in a literal behind it
  obtain ⟨w, items, hfeed⟩ := literal_of_parse hu hq
  have hagree := agree_read (State.replaces_scalar (enclose q b) (enclose q b') w items) limit
    v.toList
  rw [← read_literal hfeed hb, ← read_literal hfeed hb'] at hagree
  generalize hread' : Online.read limit start (u ++ enclose q b' ++ v).toList = result' at hagree
  constructor
  · intro ts hts
    rw [parse_eq_ok_iff_read.1 hts] at hagree
    cases hagree with
    | ok h => exact ⟨_, parse_eq_ok_iff_read.2 hread', h⟩
  · intro e he
    obtain ⟨r, hread, hoffset⟩ := exists_read_of_parse he
    rw [hread] at hagree
    cases hagree
    obtain ⟨e', he', hcause, hoffset'⟩ := exists_parse_eq_error hread'
    refine ⟨e', he', hcause, ?_⟩
    -- what is unread behind the literal is the same in both
    simp only [String.toList_append, toList_enclose, byteSize_append,
      byteSize_cons] at hoffset hoffset'
    rw [← byteSize_toList, ← byteSize_toList]
    omega

/-- A literal among parameters, with the end of the list in it or an open brace: in front of the end
of the list, and of something that does not fit. -/
theorem parse_literal_of_param : ∃ e₀ ts ts' e e',
    parse ("n: T(k: " ++ String.singleton '\'') 1 = .error e₀ ∧ e₀.cause = .unclosedQuote '\'' ∧
    '\'' ∉ "x, y)".toList ∧ '\'' ∉ "\x7b".toList ∧
    parse ("n: T(k: " ++ enclose '\'' "x, y)" ++ ")") 1 = .ok ts ∧
    parse ("n: T(k: " ++ enclose '\'' "\x7b" ++ ")") 1 = .ok ts' ∧
    ReplacesOne (Statement.Replaces (enclose '\'' "x, y)") (enclose '\'' "\x7b")) ts ts' ∧
    parse ("n: T(k: " ++ enclose '\'' "x, y)" ++ " z)") 1 = .error e ∧
    parse ("n: T(k: " ++ enclose '\'' "\x7b" ++ " z)") 1 = .error e' ∧ e'.cause = e.cause ∧
    e'.offset + "x, y)".utf8ByteSize = e.offset + "\x7b".utf8ByteSize := by
  have hu : parse ("n: T(k: " ++ String.singleton '\'') 1 =
      .error (.ofOffset (.unclosedQuote '\'') "n: T(k: '".toList 9) := by decide +kernel
  have hb : '\'' ∉ "x, y)".toList := by decide +kernel
  have hb' : '\'' ∉ "\x7b".toList := by decide +kernel
  have hok : parse ("n: T(k: " ++ enclose '\'' "x, y)" ++ ")") 1 = .ok
      [⟨"n", some (.type ⟨"T", some [⟨"k", some (.scalar "'x, y)'")⟩], none⟩), none⟩] := by
    decide +kernel
  have herror : parse ("n: T(k: " ++ enclose '\'' "x, y)" ++ " z)") 1 =
      .error (.ofOffset (.unexpected "z") "n: T(k: 'x, y)' z)".toList 16) := by decide +kernel
  obtain ⟨ts', hok', hts⟩ := (parse_literal hu rfl hb hb' ")").1 _ hok
  obtain ⟨e', he', hsame⟩ := (parse_literal hu rfl hb hb' " z)").2 _ herror
  exact ⟨_, _, ts', _, e', hu, rfl, hb, hb', hok, hok', hts, herror, he', hsame⟩

end FieldMapping
