import FieldMapping.Proofs.Grammar.Failing
import Mathlib.Logic.Relation

/-!
# The blocks open at a failure

A text that is refused breaks off at one place, and some blocks are open there. `BreaksIn` counts
them for the grammar, without a pass: statements and ends of blocks are passed up to the place
(`Passes`), and there the text stops to fit (`StopsAt`). Two blocks are not counted. A block that
would lie too deep is refused instead of opened, and where the end of a block is missing at the end
of the text, that block counts as closed.

A pass that fails leaves exactly these blocks open (`depth_run_eq_iff`).
-/

namespace FieldMapping.Grammar

open Text Relation

variable {limit n k : Nat} {s t u r : List Char} {name : String} {origin : Option Origin}
  {cause : Cause} {e : Bool}

/-- A place in a text: the number of blocks open there, whether a statement has ended there, and
what is unread. -/
structure Spot where
  blocks : Nat
  ended : Bool
  rest : List Char

/-- One statement or the start of its block, the end of a block, or separators are passed. -/
inductive Passes (limit : Nat) : Spot → Spot → Prop
  | separate {n : Nat} {s t : List Char} (hs : Skips Walk.isSeparating s t)
      (hne : t.head? ≠ some '}') : Passes limit ⟨n, true, s⟩ ⟨n, false, t⟩
  | block {n : Nat} {s t u : List Char} {name : String} {origin : Option Origin}
      (hhead : Head s name origin t) (hb : Sign .openBrace t u) (hlimit : n < limit) :
      Passes limit ⟨n, false, s⟩ ⟨n + 1, false, u⟩
  | close {n : Nat} {s t : List Char} (hs : Skips Walk.isSeparating s ('}' :: t)) :
      Passes limit ⟨n + 1, true, s⟩ ⟨n, true, t⟩
  | ended {n : Nat} {s t : List Char} {name : String} {origin : Option Origin}
      (hhead : Head s name origin t) (hends : EndsStatement t) :
      Passes limit ⟨n, false, s⟩ ⟨n, true, t⟩
  | runOn {n : Nat} {s t u : List Char} {name : String} {origin : Option Origin}
      (hhead : Head s name origin t) (hr : RunsOn t u) : Passes limit ⟨n, false, s⟩ ⟨n, false, u⟩

/-- Nothing more is passed, for the given cause and at the given place. The number is that of the
blocks open there. -/
inductive StopsAt (limit : Nat) : Spot → Cause → List Char → Nat → Prop
  | head {n : Nat} {s r : List Char} {cause : Cause} (h : Head.Broken s cause r) :
      StopsAt limit ⟨n, false, s⟩ cause r n
  | tooDeep {n : Nat} {s t r : List Char} {name : String} {origin : Option Origin}
      (hhead : Head s name origin t) (hb : Sign .openBrace t r) (hlimit : limit ≤ n) :
      -- the block is not counted
      StopsAt limit ⟨n, false, s⟩ (.tooDeep limit) r n
  | unclosed {n : Nat} {s : List Char} (hs : Skips isSpace s []) :
      -- the innermost block is not counted
      StopsAt limit ⟨n + 1, false, s⟩ (found []) [] n
  | unopened {s r : List Char} (hs : Skips Walk.isSeparating s ('}' :: r)) :
      StopsAt limit ⟨0, true, s⟩ (found ('}' :: r)) ('}' :: r) 0

/-- The text `s` breaks off in front of `r` for the given cause, with `n` blocks open. -/
def BreaksIn (limit : Nat) (s : List Char) (cause : Cause) (r : List Char) (n : Nat) : Prop :=
  ∃ p, ReflTransGen (Passes limit) ⟨0, false, s⟩ p ∧ StopsAt limit p cause r n

/-- Whatever is broken breaks off somewhere. -/
theorem exists_stopsAt_of_broken (h : Statements.Broken limit n e s cause r) :
    ∃ p k, ReflTransGen (Passes limit) ⟨n, e, s⟩ p ∧ StopsAt limit p cause r k := by
  -- on the way the text is broken, which passes one thing after the other
  induction h with
  | head h => exact ⟨_, _, .refl, .head h⟩
  | tooDeep hhead hb hlimit => exact ⟨_, _, .refl, .tooDeep hhead hb hlimit⟩
  | unclosed hs => exact ⟨_, _, .refl, .unclosed hs⟩
  | unopened hs => exact ⟨_, _, .refl, .unopened hs⟩
  | separate hs hne _ ih =>
    obtain ⟨p, k, hp, hstop⟩ := ih
    exact ⟨p, k, .head (.separate hs hne) hp, hstop⟩
  | block hhead hb hlimit _ ih =>
    obtain ⟨p, k, hp, hstop⟩ := ih
    exact ⟨p, k, .head (.block hhead hb hlimit) hp, hstop⟩
  | close hs _ ih =>
    obtain ⟨p, k, hp, hstop⟩ := ih
    exact ⟨p, k, .head (.close hs) hp, hstop⟩
  | ended hhead hends _ ih =>
    obtain ⟨p, k, hp, hstop⟩ := ih
    exact ⟨p, k, .head (.ended hhead hends) hp, hstop⟩
  | runOn hhead hr _ ih =>
    obtain ⟨p, k, hp, hstop⟩ := ih
    exact ⟨p, k, .head (.runOn hhead hr) hp, hstop⟩

/-! ### Passes -/

section PassEnds

variable {P : Outcome → Prop} {p q : Spot}

/-- What a pass ends with behind a part of a text, it ends with in front of that part. -/
theorem PassEnds.of_passes (h : Passes limit p q) (hq : PassEnds limit q.blocks q.ended q.rest P) :
    PassEnds limit p.blocks p.ended p.rest P := by
  cases h with
  | separate hs hne => exact hq.separate hs hne
  | block hhead hb hlimit => exact hq.block hhead hb hlimit
  | close hs => exact hq.close hs
  | ended hhead hends => exact hq.ended hhead hends
  | runOn hhead hr => exact hq.runOn hhead hr

/-- A pass that stops leaves the blocks open that are counted there. -/
theorem PassEnds.of_stopsAt (h : StopsAt limit p cause r k) :
    PassEnds limit p.blocks p.ended p.rest (·.depth = k) := by
  intro w hn he
  have hdepth : w.depth 0 = w.blocks.length := Nat.zero_add _
  cases h with
  | head h =>
    obtain ⟨outcome, hdone, -, hk⟩ := takeStatement_of_broken (w := w) h
    rw [Walk.run_of_done ((step_statement he).trans hdone), hk]
    exact hdepth.trans hn
  | tooDeep hhead hb hlimit =>
    rw [Walk.run_of_done ((step_statement he).trans
      (takeStatement_tooDeep hhead hb (hdepth.trans hn ▸ hlimit)))]
    exact hdepth.trans hn
  | unclosed hs =>
    rw [Walk.run_of_done ((step_statement he).trans (takeStatement_finish hs))]
    change w.blocks.length = k + 1 at hn
    -- the end of the text drops the innermost block before it complains
    obtain ⟨b, outer, hblocks⟩ := List.exists_cons_of_length_eq_add_one hn
    rw [hblocks, List.length_cons] at hn
    rw [Walk.finish, hblocks]
    show 0 + outer.length = k
    omega
  | unopened hs =>
    have hclose : w.closeBlock? = none :=
      closeBlock?_eq_none_iff.2 (List.eq_nil_of_length_eq_zero hn)
    rw [Walk.run_of_done ((step_of_closeBrace he hs).trans (by rw [hclose]))]
    exact hdepth.trans hn

/-- A pass over a text that breaks off leaves the blocks open that are counted there. -/
theorem depth_run_of_breaksIn (h : BreaksIn limit s cause r k) :
    (Walk.run limit 0 {} s).depth = k := by
  obtain ⟨p, hp, hstop⟩ := h
  -- from the place where the text stops to fit back to its start
  have hends : ∀ q, ReflTransGen (Passes limit) q p →
      PassEnds limit q.blocks q.ended q.rest (·.depth = k) := by
    intro q hq
    induction hq using ReflTransGen.head_induction_on with
    | refl => exact .of_stopsAt hstop
    | head h _ ih => exact .of_passes h ih
  exact hends _ hp {} rfl rfl

/-- A pass that fails leaves exactly the blocks open that are open where the text breaks off. -/
theorem depth_run_eq_iff (h : Fails (Walk.run limit 0 {} s).result cause r) :
    (Walk.run limit 0 {} s).depth = k ↔ BreaksIn limit s cause r k := by
  constructor
  · rintro rfl
    obtain ⟨p, k, hp, hstop⟩ := exists_stopsAt_of_broken (fails_run_iff.1 h)
    -- the number is the one that the pass ends with, whatever the way there
    have hbreaks : BreaksIn limit s cause r k := ⟨p, hp, hstop⟩
    rwa [depth_run_of_breaksIn hbreaks]
  · exact depth_run_of_breaksIn

end PassEnds

end FieldMapping.Grammar
