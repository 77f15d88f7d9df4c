import FieldMapping.Cursor
import FieldMapping.Log
import FieldMapping.Reading.Walk

/-!
# Documents

`parse` reads a text as a field mapping: its statements, or the report on the first thing in it
that does not fit. Blocks may nest as deep as a limit allows, `defaultLimit` unless another one is
given.

A `Session` reads the same way and can be asked again. It goes on where it stopped, inside the
blocks that were open there, which lets a caller get past a fault. A parse is a session that is
asked once.
-/

namespace FieldMapping

open Text

/-- How deep blocks may nest where no limit is given. -/
def defaultLimit : Nat := 64

/-! ### Sessions -/

/-- A text that is read in one or more parses. -/
structure Session where
  /-- The whole text. -/
  source : List Char
  /-- What is still unread of it. -/
  rest : List Char
  /-- How many blocks may be open around a statement. -/
  limit : Nat := defaultLimit
  /-- How many blocks are open. -/
  depth : Nat := 0
  deriving DecidableEq

namespace Session

/-- A session at the start of a text. -/
def start (source : String) (limit : Nat := defaultLimit) : Session where
  source := source.toList
  rest := source.toList
  limit := limit

/-- The session that goes on where a cursor stands. -/
def ofCursor (c : Cursor) (limit : Nat := defaultLimit) : Session where
  source := c.source
  rest := c.rest
  limit := limit

/-- How the pass over what is still unread ends. -/
def outcome (s : Session) : Outcome :=
  Walk.run s.limit s.depth {} s.rest

/-- What the next parse returns. -/
def result (s : Session) : Except SyntaxError (List Statement) :=
  s.outcome.result.mapError (·.locate s.source)

/-- The session behind the next parse. -/
def next (s : Session) : Session :=
  { s with rest := s.outcome.rest, depth := s.outcome.depth }

/-- The log of the next parse. -/
def events (s : Session) : List LogEvent :=
  .started (byteSize s.source) ::
    s.outcome.visits.map (fun v => .statement v.name v.depth) ++
    [match s.result with
      | .ok statements => .finished statements.length
      | .error e => .failed e]

/-- What the next `n` parses return. -/
def results (s : Session) : Nat → List (Except SyntaxError (List Statement))
  | 0 => []
  | n + 1 => s.result :: s.next.results n

@[simp] theorem source_next (s : Session) : s.next.source = s.source := rfl

@[simp] theorem limit_next (s : Session) : s.next.limit = s.limit := rfl

@[simp] theorem results_zero (s : Session) : s.results 0 = [] := rfl

theorem results_succ (s : Session) (n : Nat) : s.results (n + 1) = s.result :: s.next.results n :=
  rfl

/-- Nothing is unread behind a parse that succeeds. -/
theorem rest_next_of_ok {s : Session} {statements : List Statement}
    (h : s.result = .ok statements) : s.next.rest = [] := by
  unfold result at h
  show s.outcome.rest = []
  unfold Outcome.rest
  split
  · rfl
  · rename_i f hf
    rw [hf] at h
    cases h

end Session

/-! ### Parsing -/

/-- The statements of the field mapping `source`, or why it is none. -/
def parse (source : String) (limit : Nat := defaultLimit) :
    Except SyntaxError (List Statement) :=
  (Session.start source limit).result

/-- The log of the parse of `source`. -/
def parseEvents (source : String) (limit : Nat := defaultLimit) : List LogEvent :=
  (Session.start source limit).events

end FieldMapping
