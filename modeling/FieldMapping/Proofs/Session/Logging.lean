import FieldMapping.Proofs.Grammar.Parsing
import Mathlib.Data.List.Chain

/-!
# The log of a parse

The log of a parse tells the tree that is returned: between its first and its last event it names
the statements of the tree in the order in which they are written, with the number of blocks around
each (`records_parseEvents`).

A parse that fails has named its statements before it was known whether they are good, so there is
no tree to compare them with. They are those of the beginning of a tree all the same: the first one
stands in no block, each of the others at most one block deeper than the one before it, and none
deeper than the limit (`Climbs`). A pass keeps to that because it opens a block only behind a
statement that it has named (`Walk.Climbing`).
-/

namespace FieldMapping

open Text Scan Grammar Statement

variable {limit : Nat} {w w' : Walk} {s r : List Char} {v : Visit} {vs : List Visit} {o : Outcome}
  {name : String} {origin : Option Origin}

/-! ### Statements in the order in which they are met -/

/-- The statements `vs` may be met one behind the other, where `limit` blocks may be open. -/
structure Climbs (limit : Nat) (vs : List Visit) : Prop where
  /-- The first one stands in no block. -/
  first : ∀ v ∈ vs.head?, v.depth = 0
  /-- One block at most is opened between two of them. -/
  chain : vs.IsChain fun v v' => v'.depth ≤ v.depth + 1
  depth_le : ∀ v ∈ vs, v.depth ≤ limit

theorem climbs_nil : Climbs limit [] := by
  refine ⟨?_, .nil, ?_⟩ <;> simp

/-- Another statement climbs if it is at most one block deeper than the last one, and within the
limit. -/
theorem Climbs.concat (h : Climbs limit vs) (hfirst : vs = [] → v.depth = 0)
    (hlast : ∀ u ∈ vs.getLast?, v.depth ≤ u.depth + 1) (hlimit : v.depth ≤ limit) :
    Climbs limit (vs ++ [v]) where
  first := by
    cases vs with
    | nil => simpa using hfirst rfl
    | cons u us => simpa using h.first
  chain := h.chain.append (.singleton v) (by simpa using hlast)
  depth_le := by
    intro u hu
    rcases List.mem_append.1 hu with hu | hu
    · exact h.depth_le u hu
    · obtain rfl := List.mem_singleton.1 hu
      exact hlimit

/-! ### The invariant of a pass -/

/-- The statements met by a pass climb, and go on to do so with a statement that is met here. -/
structure Walk.Climbing (limit : Nat) (w : Walk) : Prop where
  climbs : Climbs limit w.visits.reverse
  first : w.visits = [] → w.depth 0 = 0
  last : ∀ v ∈ w.visits.head?, w.depth 0 ≤ v.depth + 1
  depth_le : w.depth 0 ≤ limit

/-- A pass that ends at the end of the text has met what it has met. -/
theorem Walk.visits_finish (w : Walk) : (w.finish 0).visits = w.visits.reverse := by
  unfold finish
  split <;> rfl

namespace Walk.Climbing

/-- The invariant holds in the first state, where no statement has been met. -/
theorem initial (limit : Nat) : Climbing limit {} where
  climbs := climbs_nil
  first := fun _ => rfl
  last := by simp
  depth_le := Nat.zero_le limit

/-- It is kept where a statement is met: this one is now the last. -/
theorem visit (h : w.Climbing limit) (name : String) : (w.visit 0 name).Climbing limit where
  climbs := by
    show Climbs limit (⟨name, w.depth 0⟩ :: w.visits).reverse
    rw [List.reverse_cons]
    refine h.climbs.concat (fun hnil => h.first (by simpa using hnil)) ?_ h.depth_le
    rw [List.getLast?_reverse]
    exact h.last
  first := fun hnil => nomatch hnil
  last := by
    intro v hv
    obtain rfl := Option.some.inj hv
    exact Nat.le_succ (w.depth 0)
  depth_le := h.depth_le

/-- It is kept where a statement is added, which changes no depth. -/
theorem add (h : w.Climbing limit) (name : String) (origin : Option Origin) (ended : Bool) :
    (w.add name origin ended).Climbing limit :=
  ⟨h.climbs, h.first, h.last, h.depth_le⟩

/-- A block opens behind the statement that it belongs to. -/
theorem openBlock (h : w.Climbing limit) (hlimit : w.depth 0 < limit) :
    ((w.visit 0 name).openBlock name origin).Climbing limit where
  climbs := (h.visit name).climbs
  first := fun hnil => nomatch hnil
  last := by simp [Walk.visit, Walk.openBlock, Walk.depth]
  depth_le := hlimit

/-- It is kept where a block is closed, since nothing stands deeper than before. -/
theorem closeBlock? (h : w.Climbing limit) (hclose : w.closeBlock? = some w') :
    w'.Climbing limit := by
  have hdepth : w'.depth 0 + 1 = w.depth 0 := depth_closeBlock? hclose
  have hvisits : w'.visits = w.visits := by
    unfold Walk.closeBlock? at hclose
    split at hclose <;> cases hclose
    rfl
  refine ⟨hvisits ▸ h.climbs, fun hnil => ?_, fun v hv => ?_, ?_⟩
  · have hzero := h.first (hvisits ▸ hnil)
    omega
  · have hle := h.last v (hvisits ▸ hv)
    omega
  · have hle := h.depth_le
    omega

/-- It is kept by taking a statement, with a block or without one. -/
theorem takeStatement (h : w.Climbing limit) (hstep : w.takeStatement limit 0 s = .next w' r) :
    w'.Climbing limit := by
  obtain ⟨name, origin, t, -, ⟨-, hlimit, rfl⟩ | ⟨-, -, rfl⟩ | ⟨-, rfl⟩⟩ :=
    of_takeStatement_next hstep
  · exact h.openBlock hlimit
  · exact (h.visit name).add name origin true
  · exact (h.visit name).add name origin false

/-- It is kept by every step. -/
theorem step (h : w.Climbing limit) (hstep : w.step limit 0 s = .next w' r) :
    w'.Climbing limit := by
  rcases step_cases limit 0 w s with ⟨-, hs⟩ | ⟨-, t, -, -, hs⟩ | ⟨he, r', hr'⟩
  · exact h.takeStatement (hs.symm.trans hstep)
  · exact h.takeStatement (hs.symm.trans hstep)
  · rw [step_of_closeBrace he hr'] at hstep
    split at hstep
    · rename_i w'' hclose
      cases hstep
      exact h.closeBlock? hclose
    · cases hstep

/-- Where a pass ends at a statement, what it has met climbs, the name of this one included. -/
theorem takeStatement_done (h : w.Climbing limit) (hdone : w.takeStatement limit 0 s = .done o) :
    Climbs limit o.visits := by
  rcases takeStatement_done_cases hdone with ⟨-, rfl⟩ | ⟨f, rfl⟩ | ⟨name, f, rfl⟩
  · exact w.visits_finish ▸ h.climbs
  · exact h.climbs
  · exact (h.visit name).climbs

/-- Where a step ends the pass, what it has met climbs. -/
theorem step_done (h : w.Climbing limit) (hdone : w.step limit 0 s = .done o) :
    Climbs limit o.visits := by
  rcases step_cases limit 0 w s with ⟨-, hs⟩ | ⟨-, t, -, -, hs⟩ | ⟨he, r', hr'⟩
  · exact h.takeStatement_done (hs.symm.trans hdone)
  · exact h.takeStatement_done (hs.symm.trans hdone)
  · -- a brace that closes no block
    rw [step_of_closeBrace he hr'] at hdone
    split at hdone <;> cases hdone
    exact h.climbs

/-- What a pass meets climbs, however it ends. -/
theorem run (h : w.Climbing limit) : Climbs limit (w.run limit 0 s).visits := by
  -- along the run, from the state it starts in
  fun_induction Walk.run limit 0 w s with
  | case1 w s w' r hstep ih => exact ih (h.step hstep)
  | case2 w s o hdone => exact h.step_done hdone

end Walk.Climbing

/-! ### The log -/

/-- The event for a statement that is met. -/
def Visit.event (v : Visit) : LogEvent :=
  .statement v.name v.depth

/-- The event that a parse ends with. -/
def LogEvent.ofResult : Except SyntaxError (List Statement) → LogEvent
  | .ok ts => .finished ts.length
  | .error e => .failed e

/-- The events of a parse are its start, one for each statement that it meets, and its end. -/
theorem parseEvents_eq (source : String) (limit : Nat) : parseEvents source limit =
    .started source.utf8ByteSize :: (Session.start source limit).outcome.visits.map Visit.event ++
      [.ofResult (parse source limit)] := by
  rw [← byteSize_toList source]
  show Session.events _ = _
  -- the last event depends on nothing but the result
  unfold Session.events parse
  cases (Session.start source limit).result <;> rfl

/-- A parse that succeeds meets the statements that it returns, in their order. -/
theorem visits_of_parse {source : String} {ts : List Statement} (h : parse source limit = .ok ts) :
    (Session.start source limit).outcome.visits = preorder 0 ts := by
  obtain ⟨hdoc, hle⟩ := document_of_parse h
  have htakes : Takes limit 0 {} source.toList ts [] .root :=
    takes_of_statements hdoc {} rfl (show 0 + nesting ts ≤ limit by omega)
  show (Walk.run limit 0 {} source.toList).visits = _
  rw [htakes rfl]
  rfl

/-- An event as it is recorded: what happened, and the particulars. -/
def LogEvent.record (e : LogEvent) : String × List (String × String) :=
  (e.message, e.fields)

/-- The record of a statement that is met. -/
def Visit.record (v : Visit) : String × List (String × String) :=
  ("statement", [("name", v.name), ("depth", toString v.depth)])

/-- **The log tells the tree.** The log of a parse is its start, with the size of the source, then
the statements that it meets, then its end. Where statements are returned, the log has met all of
them, blocks included, in their order, and ends with their number. Where an error is returned, the
log ends with its place and its cause; the statements met before it climb. -/
theorem records_parseEvents (source : String) (limit : Nat) : ∃ visits last,
    (parseEvents source limit).map LogEvent.record =
      ("parsing document", [("len", toString source.utf8ByteSize)]) ::
        visits.map Visit.record ++ [last] ∧
    match parse source limit with
    | .ok ts => visits = preorder 0 ts ∧
      last = ("parsed document", [("statements", toString ts.length)])
    | .error e => Climbs limit visits ∧
      last = ("parse failed", [("line", toString e.position.line),
        ("column", toString e.position.column), ("error", e.cause.message)]) := by
  refine ⟨(Session.start source limit).outcome.visits,
    (LogEvent.ofResult (parse source limit)).record, ?_, ?_⟩
  · -- recording is done event by event
    rw [parseEvents_eq, List.map_append, List.map_cons, List.map_map]
    rfl
  · cases h : parse source limit with
    | ok ts => exact ⟨visits_of_parse h, rfl⟩
    | error e => exact ⟨(Walk.Climbing.initial limit).run, rfl⟩

end FieldMapping
