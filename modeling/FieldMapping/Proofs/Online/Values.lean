import FieldMapping.Proofs.Online.Parsing

/-!
# The values of a document

The values of parameters and arguments are completed one after the other while a document is read:
a literal by its second quote, a plain value by what ends its item, an indexed reference by its
bracket (`State.completed`). A value that is completed stays, first in what is being read of a
statement and then in the tree, and no value comes from anywhere else (`mem_values_next`). So the
values of a document are those that some character of it completes (`mem_values_of_parse`).
-/

namespace FieldMapping

/-! ### The values of a tree -/

/-- The values of parameters. -/
def Param.values (ps : List Param) : List Value :=
  ps.filterMap (·.value)

/-- The values of the arguments of processors. -/
def Processor.values (ps : List Processor) : List Value :=
  ps.flatMap (·.args)

/-- The values of an origin. -/
def Origin.values : Origin → List Value
  | .field _ => []
  | .type ref => ref.params.elim [] Param.values ++ ref.processors.elim [] Processor.values

/-- The values of a list of statements, those in blocks included. -/
def Statement.values : List Statement → List Value :=
  fold [] fun _ origin block rest => origin.elim [] Origin.values ++ (block.getD [] ++ rest)

@[simp] theorem Param.values_nil : values [] = [] := rfl

@[simp] theorem Param.values_append (ps qs : List Param) :
    values (ps ++ qs) = values ps ++ values qs :=
  List.filterMap_append ..

/-- A parameter has the value that is written for its key, or none. -/
@[simp] theorem Param.values_singleton (p : Param) : values [p] = p.value.toList := by
  obtain ⟨key, value⟩ := p
  cases value <;> rfl

@[simp] theorem Processor.values_nil : values [] = [] := rfl

@[simp] theorem Processor.values_append (ps qs : List Processor) :
    values (ps ++ qs) = values ps ++ values qs :=
  List.flatMap_append ..

@[simp] theorem Processor.values_singleton (p : Processor) : values [p] = p.args := by
  simp [values]

@[simp] theorem Statement.values_nil : values [] = [] := rfl

/-- The values of a statement come in the order in which they are written: those of its origin,
those in its block, and then those of the statements behind it. -/
@[simp] theorem Statement.values_cons (name : String) (origin : Option Origin)
    (block : Option (List Statement)) (ts : List Statement) :
    values (⟨name, origin, block⟩ :: ts) =
      origin.elim [] Origin.values ++ (block.elim [] values ++ values ts) := by
  cases block <;> simp [values]

@[simp] theorem Statement.values_append (ts ts' : List Statement) :
    values (ts ++ ts') = values ts ++ values ts' := by
  induction ts with
  | nil => rfl
  | cons t ts ih =>
    obtain ⟨name, origin, block⟩ := t
    rw [List.cons_append, values_cons, values_cons, ih]
    simp only [List.append_assoc]

/-- The pass keeps its statements with the last one first, which has the same values. -/
theorem Statement.mem_values_reverse {v : Value} (ts : List Statement) :
    v ∈ values ts.reverse ↔ v ∈ values ts := by
  induction ts with
  | nil => rfl
  | cons t ts ih =>
    have hcons : values (t :: ts) = values [t] ++ values ts := values_append [t] ts
    rw [List.reverse_cons, values_append, hcons, List.mem_append, List.mem_append, ih, or_comm]

namespace Online

open Text

variable {limit : Nat} {w : Walk} {σ σ' : State} {s : List Char} {c : Char} {v : Value}

/-! ### The values of a state -/

/-- The values of a pipeline. -/
def Pipeline.values (p : Pipeline) : List Value :=
  p.params.elim [] Param.values ++ Processor.values p.processors

/-- The values in front of the one that is due. -/
def Items.values : Items → List Value
  | .params _ _ before _ => Param.values before
  | .args pipeline _ before => pipeline.values ++ before

/-- The values in front of an atom, within its statement. -/
def Role.values : Role → List Value
  | .name | .origin _ => []
  | .key _ _ before => Param.values before
  | .plain items | .index items _ => items.values
  | .processor pipeline => pipeline.values

/-- The values that have been read of a statement. -/
def Mode.values : Mode → List Value
  | .due role | .atom role _ => role.values
  | .value items | .item items | .literal items _ _ => items.values
  | .behindValue items v => v :: items.values
  | .behindList pipeline => pipeline.values
  | .behind => []

/-- The values of the statements before the one that has started. -/
def walkValues (w : Walk) : List Value :=
  Statement.values w.before ++
    w.blocks.flatMap fun b => b.origin.elim [] Origin.values ++ Statement.values b.before

/-- The values that have been read. -/
def State.values (σ : State) : List Value :=
  walkValues σ.walk ++ σ.mode.values

@[simp] theorem values_mk (w : Walk) (m : Mode) :
    State.values ⟨w, m⟩ = walkValues w ++ m.values := rfl

/-- The value that `c` completes behind the atom `a`. -/
def Role.completed (role : Role) (a : String) (c : Char) : Option Value :=
  match role with
  | .plain _ => if c = ',' ∨ c = ')' then some (.scalar a) else none
  | .index _ base => if c = ']' then some (.indexed base a) else none
  | _ => none

/-- The value that `c` completes. -/
def State.completed (σ : State) (c : Char) : Option Value :=
  match σ.mode with
  | .atom role run => role.completed (String.ofList (trim run)) c
  | .literal _ q body => if c = q then some (.scalar (String.ofList (q :: body ++ [q]))) else none
  | _ => none

/-- That a statement starts adds no value. -/
@[simp] theorem walkValues_visit (w : Walk) (name : String) :
    walkValues (w.visit 0 name) = walkValues w := rfl

/-- A statement that is complete takes along the values of its origin. -/
@[simp] theorem mem_walkValues_add (w : Walk) (name : String) (origin : Option Origin)
    (ended : Bool) : v ∈ walkValues (w.add name origin ended) ↔
      v ∈ walkValues w ∨ v ∈ origin.elim [] Origin.values := by
  simp only [walkValues, Walk.add, Statement.values_cons, List.mem_append, Option.elim]
  grind

/-- A block that opens keeps the values of the origin in front of it. -/
@[simp] theorem mem_walkValues_openBlock (w : Walk) (name : String) (origin : Option Origin) :
    v ∈ walkValues (w.openBlock name origin) ↔
      v ∈ walkValues w ∨ v ∈ origin.elim [] Origin.values := by
  simp only [walkValues, Walk.openBlock, Statement.values_nil, List.flatMap_cons, List.mem_append]
  grind

/-- The end of a pipeline adds no value. -/
@[simp] theorem mem_values_origin (p : Pipeline) : v ∈ p.origin.values ↔ v ∈ p.values := by
  unfold Pipeline.origin Pipeline.values Origin.values
  -- a pipeline without processors becomes a type without a pipeline
  by_cases h : p.processors = []
  · simp [h]
  · simp [h]

/-- A processor adds its arguments. -/
@[simp] theorem values_add (p : Pipeline) (processor : Processor) :
    (p.add processor).values = p.values ++ processor.args := by
  simp [Pipeline.values, Pipeline.add]

/-- A list that is closed behind a value has this value and those before it. -/
theorem mem_values_close (items : Items) (v' : Value) :
    v ∈ (items.close v').values ↔ v ∈ items.values ∨ v = v' := by
  cases items with
  | params statement type before key => simp [Items.close, Pipeline.values, Items.values]
  | args p name before => simp [Items.close, Items.values, or_assoc]

/-- So has a list that goes on behind it. -/
theorem mem_values_more (items : Items) (v' : Value) :
    v ∈ (items.more v').values ↔ v ∈ items.values ∨ v = v' := by
  cases items with
  | params statement type before key => simp [Items.more, Mode.values, Role.values, Items.values]
  | args p name before => simp [Items.more, Mode.values, Items.values, or_assoc]

/-! ### What a character leads to -/

/-- Where `x` is no refusal, the values that have been read are those of which `P` holds. -/
def Gives (P : Value → Prop) (x : Except Cause State) : Prop :=
  ∀ σ, x = .ok σ → ∀ v, v ∈ σ.values ↔ P v

section Gives

variable {P : Value → Prop} {items : Items}

/-- A refusal gives no state. -/
theorem gives_refuse : Gives P (refuse c) :=
  fun _ h => nomatch h

/-- What a state has read can be told by looking at it. -/
theorem gives_ok (h : ∀ v, v ∈ σ.values ↔ P v) : Gives P (.ok σ) := by
  intro σ' h' v
  cases h'
  exact h v

/-- The values may be described in another way. -/
theorem Gives.congr {Q : Value → Prop} {x : Except Cause State} (h : Gives P x)
    (hPQ : ∀ v, P v ↔ Q v) : Gives Q x :=
  fun σ hσ v => (h σ hσ v).trans (hPQ v)

/-- An atom that starts completes no value. -/
theorem gives_startAtom (role : Role) :
    Gives (fun v => v ∈ walkValues w ∨ v ∈ role.values) (startAtom w role c) := by
  unfold startAtom
  split
  · exact gives_refuse
  · exact gives_ok fun v => by simp [Mode.values]

/-- Neither does a literal that starts. -/
theorem gives_startValue (items : Items) :
    Gives (fun v => v ∈ walkValues w ∨ v ∈ items.values) (startValue w items c) := by
  unfold startValue
  split
  · exact gives_ok fun v => by simp [Mode.values]
  · exact gives_startAtom (.plain items)

/-- The block of a statement takes its values along. -/
theorem gives_closeBlock (w : Walk) : Gives (· ∈ walkValues w) (closeBlock w) := by
  unfold closeBlock Walk.closeBlock?
  cases hblocks : w.blocks with
  | nil => exact gives_refuse
  | cons b outer =>
    -- what stood in the block becomes part of one statement behind it
    refine gives_ok fun v => ?_
    simp only [values_mk, Mode.values, walkValues, hblocks, Statement.values_cons, Option.elim_some,
      List.flatMap_cons, List.mem_append, Statement.mem_values_reverse, List.not_mem_nil]
    grind

/-- What follows the start of a statement takes over the values of its origin, wherever it leads. -/
theorem gives_behindHead (name : String) (origin : Option Origin) :
    Gives (fun v => v ∈ walkValues w ∨ v ∈ origin.elim [] Origin.values)
      (behindHead limit w name origin c) := by
  unfold behindHead
  split
  · split
    · exact gives_ok fun v => by simp [Mode.values, Role.values]
    · exact fun _ h => nomatch h
  · -- the statement is complete, and so is the block around it
    exact (gives_closeBlock _).congr fun v => mem_walkValues_add ..
  all_goals exact gives_ok fun v => by simp [Mode.values, Role.values]

/-- What follows a pipeline takes over its values. -/
theorem gives_behindPipeline (p : Pipeline) :
    Gives (fun v => v ∈ walkValues w ∨ v ∈ p.values) (behindPipeline limit w p c) := by
  unfold behindPipeline
  split
  · exact gives_ok fun v => by simp [Mode.values, Role.values]
  · exact (gives_behindHead _ _).congr fun v => or_congr_right (mem_values_origin p)

/-- An item ends in front of a comma or a parenthesis. -/
theorem gives_endItem {v' : Value}
    (hP : c = ',' ∨ c = ')' → ∀ v, (v ∈ walkValues w ∨ v ∈ items.values ∨ v = v') ↔ P v) :
    Gives P (endItem w items v' c) := by
  unfold endItem
  split
  · rename_i hc
    refine gives_ok fun v => ?_
    rw [← hP (.inl (Grammar.ofChar_eq_operator_iff.1 hc)), values_mk, List.mem_append,
      mem_values_more]
  · rename_i hc
    refine gives_ok fun v => ?_
    rw [← hP (.inr (Grammar.ofChar_eq_operator_iff.1 hc)), values_mk, List.mem_append, Mode.values,
      mem_values_close]
  · exact gives_refuse

/-- The operator behind an atom completes the value that the atom is, if it is one. -/
theorem gives_endAtom (role : Role) (a : String) :
    Gives (fun v => v ∈ walkValues w ∨ v ∈ role.values ∨ role.completed a c = some v)
      (endAtom limit w role a c) := by
  -- only a plain value and an index are values, or part of one
  cases role with
  | name =>
    rw [endAtom]
    split
    · exact gives_ok fun v => by simp [Mode.values, Role.values, Role.completed]
    · exact (gives_behindHead a none).congr fun v => by simp [Role.values, Role.completed]
  | origin statement =>
    rw [endAtom]
    split
    · exact (gives_behindHead statement _).congr fun v => by
        simp [Role.values, Role.completed, Origin.values]
    · split
      · exact gives_ok fun v => by simp [Mode.values, Role.values, Role.completed]
      · exact gives_ok fun v => by
          simp [Mode.values, Role.values, Role.completed, Pipeline.values]
      · split
        · exact (gives_behindHead statement _).congr fun v => by
            simp [Role.values, Role.completed, Origin.values]
        · exact gives_refuse
  | key statement type before =>
    rw [endAtom]
    split
    · exact gives_ok fun v => by simp [Mode.values, Role.values, Role.completed, Pipeline.values]
    · exact gives_ok fun v => by simp [Mode.values, Role.values, Role.completed, Items.values]
    · exact gives_refuse
  | plain items =>
    rw [endAtom]
    split
    · rename_i hc
      obtain rfl : c = '[' := Grammar.ofChar_eq_operator_iff.1 hc
      exact gives_ok fun v => by simp [Mode.values, Role.values, Role.completed]
    · refine gives_endItem fun hc v => ?_
      simp [Role.values, Role.completed, hc, eq_comm]
  | index items base =>
    rw [endAtom]
    split
    · rename_i hc
      obtain rfl : c = ']' := Grammar.ofChar_eq_operator_iff.1 hc
      exact gives_ok fun v => by
        simp [Mode.values, Role.values, Role.completed, or_comm, eq_comm]
    · exact gives_refuse
  | processor p =>
    rw [endAtom]
    split
    · exact gives_ok fun v => by simp [Mode.values, Role.values, Role.completed, Items.values]
    · exact (gives_behindPipeline _).congr fun v => by simp [Role.values, Role.completed]

/-- A character that is no operator completes no value. -/
theorem completed_of_not_isOperator {role : Role} {a : String} (hc : isOperator c = false) :
    role.completed a c = none := by
  have hne : c ≠ ',' ∧ c ≠ ')' ∧ c ≠ ']' := by
    refine ⟨?_, ?_, ?_⟩ <;> rintro rfl <;> cases hc
  obtain ⟨hcomma, hparen, hbracket⟩ := hne
  cases role <;> simp [Role.completed, hcomma, hparen, hbracket]

end Gives

/-- A character adds the value that it completes, and no value is lost. -/
theorem mem_values_next (h : σ.next limit c = .ok σ') :
    v ∈ σ'.values ↔ v ∈ σ.values ∨ σ.completed c = some v := by
  suffices hgives : Gives (fun v => v ∈ σ.values ∨ σ.completed c = some v) (σ.next limit c) from
    hgives σ' h v
  -- behind an atom and in a literal a value may be completed, everywhere else none is
  clear h
  obtain ⟨w, m⟩ := σ
  unfold State.next
  cases m with
  | due role =>
    dsimp only
    split
    · exact gives_ok fun v => by simp [State.completed]
    · exact (gives_startAtom role).congr fun v => by simp [State.completed, Mode.values]
  | atom role run =>
    dsimp only
    split
    · exact (gives_endAtom role _).congr fun v => by
        simp [State.completed, Mode.values, or_assoc]
    · rename_i hc
      refine gives_ok fun v => ?_
      simp [State.completed, Mode.values, completed_of_not_isOperator (by simpa using hc)]
  | value items =>
    dsimp only
    split
    · exact gives_ok fun v => by simp [State.completed]
    · split
      · exact gives_ok fun v => by simp [State.completed, Mode.values, Role.values]
      · exact (gives_startValue items).congr fun v => by simp [State.completed, Mode.values]
  | item items =>
    dsimp only
    split
    · exact gives_ok fun v => by simp [State.completed]
    · exact (gives_startValue items).congr fun v => by simp [State.completed, Mode.values]
  | literal items q body =>
    -- the quote that closes it completes a literal
    dsimp only
    split
    · rename_i hc
      refine gives_ok fun v => ?_
      simp only [State.completed, Mode.values, values_mk, if_pos hc, List.mem_append,
        List.mem_cons, Option.some.injEq]
      grind
    · rename_i hc
      exact gives_ok fun v => by simp [State.completed, Mode.values, hc]
  | behindValue items v' =>
    dsimp only
    split
    · exact gives_ok fun v => by simp [State.completed]
    · refine gives_endItem fun _ v => ?_
      simp [State.completed, Mode.values, or_comm]
  | behindList p =>
    dsimp only
    split
    · exact gives_ok fun v => by simp [State.completed]
    · exact (gives_behindPipeline p).congr fun v => by simp [State.completed, Mode.values]
  | behind =>
    dsimp only
    split
    · exact gives_ok fun v => by simp [State.completed]
    · split
      · exact (gives_closeBlock w).congr fun v => by simp [State.completed, Mode.values]
      · exact (gives_startAtom .name).congr fun v => by
          simp [State.completed, Mode.values, Role.values]

/-! ### The values of a document -/

/-- The values that have been read behind a text are those from before and those that some character
of it completes. -/
theorem mem_values_feed (h : feed limit σ s = .ok σ') : v ∈ σ'.values ↔ v ∈ σ.values ∨
    ∃ u c t σ₀, s = u ++ c :: t ∧ feed limit σ u = .ok σ₀ ∧ σ₀.completed c = some v := by
  -- the value that the first character completes comes first, with nothing in front of it
  induction s generalizing σ with
  | nil =>
    cases h
    simp
  | cons c s ih =>
    -- either the first character completes the value, or one of those behind it does
    cases hc : σ.next limit c with
    | error cause =>
      rw [feed_cons_error hc] at h
      cases h
    | ok σ₁ =>
      rw [feed_cons_ok hc] at h
      rw [ih h, mem_values_next hc, or_assoc]
      refine or_congr_right ⟨?_, ?_⟩
      · rintro (hfirst | ⟨u, d, t, σ₀, rfl, hu, hd⟩)
        · exact ⟨[], c, s, σ, rfl, rfl, hfirst⟩
        · exact ⟨c :: u, d, t, σ₀, rfl, (feed_cons_ok hc).trans hu, hd⟩
      · rintro ⟨u, d, t, σ₀, hs, hu, hd⟩
        cases u with
        | nil =>
          cases hs
          cases hu
          exact .inl hd
        | cons e u =>
          cases hs
          rw [feed_cons_ok hc] at hu
          exact .inr ⟨u, d, t, σ₀, rfl, hu, hd⟩

/-- Between two statements at the end of the text, all values are in statements. -/
theorem mem_values_finish {ts : List Statement} (h : finish w = .ok ts) :
    v ∈ Statement.values ts ↔ v ∈ walkValues w := by
  obtain ⟨hblocks, rfl⟩ := finish_eq_ok_iff.1 h
  rw [Statement.mem_values_reverse, walkValues, hblocks, List.flatMap_nil, List.append_nil]

/-- The end of a document loses no value and adds none. -/
theorem mem_values_ending {ts : List Statement} (h : σ.ending = .ok ts) :
    v ∈ Statement.values ts ↔ v ∈ σ.values := by
  -- an item cannot end with the text, so that no value is left to complete
  have hatom : ∀ {w : Walk} {role : Role} {a : String}, finishAtom w role a = .ok ts →
      (v ∈ Statement.values ts ↔ v ∈ walkValues w ∨ v ∈ role.values) := by
    intro w role a h
    cases role with
    | name =>
      rw [finishAtom] at h
      split at h
      · simp [mem_values_finish h, Role.values]
      · simp [mem_values_finish h, Role.values]
    | origin statement =>
      rw [finishAtom] at h
      split at h
      · cases h
      · split at h
        · simp [mem_values_finish h, Role.values, Origin.values]
        · simp [mem_values_finish h, Role.values, Origin.values]
    | processor p => simp [mem_values_finish h, Role.values]
    | _ => cases h
  obtain ⟨w, m⟩ := σ
  cases m with
  | due role => simpa [Mode.values] using hatom h
  | atom role run => simpa [Mode.values] using hatom h
  | behindList p => simp [mem_values_finish h, Mode.values]
  | behind => simp [mem_values_finish h, Mode.values]
  | _ => cases h

end Online

/-- The values of a document are those that a character of it completes. -/
theorem mem_values_of_parse {source : String} {limit : Nat} {ts : List Statement} {v : Value}
    (h : parse source limit = .ok ts) : v ∈ Statement.values ts ↔ ∃ u c t σ,
      source.toList = u ++ c :: t ∧ Online.feed limit Online.start u = .ok σ ∧
        σ.completed c = some v := by
  obtain ⟨σ, hfeed, hending⟩ := Online.read_eq_ok_iff.1 (Online.parse_eq_ok_iff_read.1 h)
  rw [Online.mem_values_ending hending, Online.mem_values_feed hfeed]
  -- at the start nothing has been read
  have hstart : v ∉ Online.start.values := List.not_mem_nil
  simp [hstart]

end FieldMapping
