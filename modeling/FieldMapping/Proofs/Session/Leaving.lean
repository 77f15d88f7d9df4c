import FieldMapping.Document
import FieldMapping.Proofs.Text.Trimming

/-!
# Reading never goes back

Whatever an act of reading gives, and also where it fails, what it leaves unread is an end of the
text that it was given (`Leaves`). So a cursor only moves forward, whichever acts it is used for
(`Cursor.foldl_move`), and so does a session, whether its parses succeed or fail
(`Session.suffix_rest_next`).
-/

namespace FieldMapping

open Text Scan

variable {α β : Type} {s r : List Char}

/-- What `x`, which was read from the start of `s`, leaves unread is an end of `s`. -/
def Leaves (s : List Char) : Except Fault (α × List Char) → Prop
  | .ok (_, r) => r <:+ s
  | .error f => f.rest <:+ s

namespace Leaves

variable {x : Except Fault (α × List Char)}

/-- What leaves an end of a text leaves an end of every text that ends in it. -/
theorem mono (h : Leaves r x) (hr : r <:+ s) : Leaves s x := by
  cases x with
  | ok p => exact List.IsSuffix.trans h hr
  | error f => exact List.IsSuffix.trans h hr

/-- Two acts of reading in a row leave an end of the text if each of them does. -/
theorem bind {f : α × List Char → Except Fault (β × List Char)} (hx : Leaves s x)
    (hf : ∀ a r, Leaves r (f (a, r))) : Leaves s (x >>= f) := by
  cases x with
  | ok p => exact (hf p.1 p.2).mono hx
  | error f => exact hx

end Leaves

/-! ### Elementary acts -/

/-- Taking a token leaves an end of the text. -/
theorem suffix_nextToken (s : List Char) : (nextToken s).2 <:+ s := by
  have hs : significant s <:+ s := List.dropWhile_suffix _
  unfold nextToken
  split <;> rename_i h
  · exact List.nil_suffix
  · rename_i c r
    rw [h] at hs
    have hr : r <:+ s := (List.suffix_cons c r).trans hs
    split
    · -- a comma takes the white space behind it along
      exact (List.dropWhile_suffix _).trans hr
    · exact hr
    · exact hs

/-- What is unread behind a token is an end of the text. -/
theorem suffix_of_nextToken {t : Token} (h : nextToken s = (t, r)) : r <:+ s := by
  have hs := suffix_nextToken s
  rw [h] at hs
  exact hs

/-- A complaint about a token leaves what is behind that token. -/
theorem leaves_unexpected (s : List Char) : Leaves (α := α) s (.error (unexpected s)) :=
  suffix_nextToken s

/-- A plain value leaves an end of the text, also where there is none. -/
theorem leaves_value (s : List Char) : Leaves s (value s) := by
  have hs : trimStart s <:+ s := List.dropWhile_suffix _
  unfold value
  split <;> rename_i h
  · exact List.nil_suffix
  · rw [h] at hs
    split
    · exact hs
    · exact (List.dropWhile_suffix _).trans hs

/-- A literal leaves an end of the text. If it is not closed, nothing is left. -/
theorem leaves_quoted (s : List Char) : Leaves s (quoted s) := by
  have hs : significant s <:+ s := List.dropWhile_suffix _
  unfold quoted
  split <;> rename_i h
  · exact List.nil_suffix
  · rename_i q t
    rw [h] at hs
    split
    · split <;> rename_i hd
      · exact List.nil_suffix
      · have hd' : t.dropWhile (· != q) <:+ t := List.dropWhile_suffix _
        rw [hd] at hd'
        exact (List.suffix_cons _ _).trans (hd'.trans ((List.suffix_cons q t).trans hs))
    · exact hs

/-! ### Lists in parentheses -/

/-- A value leaves an end of the text. -/
theorem leaves_read (s : List Char) : Leaves s (Value.read s) := by
  unfold Value.read
  split
  · exact (leaves_quoted s).bind fun _ _ => List.suffix_rfl
  · refine (leaves_value s).bind fun base r => ?_
    dsimp only
    split
    · -- an index follows
      rename_i r₁ h₁
      refine Leaves.mono ?_ (suffix_of_nextToken h₁)
      refine (leaves_value r₁).bind fun index r₂ => ?_
      dsimp only
      split
      · rename_i r₃ h₃
        exact suffix_of_nextToken h₃
      · exact leaves_unexpected r₂
    · exact List.suffix_rfl

/-- The end of an item leaves an end of the text. -/
theorem leaves_itemEnd (s : List Char) : Leaves s (itemEnd s) := by
  unfold itemEnd
  split
  · rename_i r h
    exact suffix_of_nextToken h
  · rename_i r h
    exact suffix_of_nextToken h
  · exact leaves_unexpected s

/-- A list leaves an end of the text if its items do. -/
theorem leaves_readAll {item : ItemReader α} (hitem : ∀ s, Leaves s (item.read s))
    (s : List Char) : Leaves s (item.readAll s) := by
  -- on the items: what each of them leaves is what the next one reads
  fun_induction item.readAll s with
  | case1 s f h =>
    have hs := hitem s
    rw [h] at hs
    exact hs
  | case2 s a r h =>
    have hs := hitem s
    rw [h] at hs
    exact hs
  | case3 s a r h ih =>
    have hs := hitem s
    rw [h] at hs
    refine Leaves.mono (ih.bind fun as r => ?_) hs
    exact List.suffix_rfl

/-- A parameter leaves an end of the text. -/
theorem leaves_readParam (s : List Char) : Leaves s (Param.readItem s) := by
  refine (leaves_value s).bind fun key r => ?_
  dsimp only
  split
  · rename_i r₁ h₁
    exact suffix_of_nextToken h₁
  · rename_i r₁ h₁
    refine Leaves.mono ?_ (suffix_of_nextToken h₁)
    exact (leaves_read r₁).bind fun v r₂ => (leaves_itemEnd r₂).bind fun more r₃ => List.suffix_rfl
  · exact leaves_unexpected r

/-- An argument leaves an end of the text. -/
theorem leaves_readArg (s : List Char) : Leaves s (Processor.readArg s) :=
  (leaves_read s).bind fun _ r => (leaves_itemEnd r).bind fun _ _ => List.suffix_rfl

/-! ### Origins -/

/-- Arguments leave an end of the text, also where there are none. -/
theorem leaves_readArgs (s : List Char) : Leaves s (Processor.readArgs s) := by
  unfold Processor.readArgs
  split
  · rename_i r h
    exact (leaves_readAll leaves_readArg r).mono (suffix_of_nextToken h)
  · exact List.suffix_rfl

/-- A processor leaves an end of the text. -/
theorem leaves_readProcessor (s : List Char) : Leaves s (Processor.readItem s) := by
  refine (leaves_value s).bind fun name r => (leaves_readArgs r).bind fun args r₁ => ?_
  dsimp only
  split
  · rename_i r₂ h₂
    exact suffix_of_nextToken h₂
  · exact List.suffix_rfl

/-- A pipeline leaves an end of the text. -/
theorem leaves_readPipeline (s : List Char) : Leaves s (Processor.readPipeline s) := by
  unfold Processor.readPipeline
  split
  · rename_i r h
    refine Leaves.mono ?_ (suffix_of_nextToken h)
    exact (leaves_readAll leaves_readProcessor r).bind fun _ _ => List.suffix_rfl
  · exact List.suffix_rfl

/-- What follows the name of a type leaves an end of the text. -/
theorem leaves_readAfter (name : String) (s : List Char) :
    Leaves s (TypeRef.readAfter name s) := by
  unfold TypeRef.readAfter
  split
  · rename_i r h
    refine Leaves.mono ?_ (suffix_of_nextToken h)
    exact (leaves_readAll leaves_readParam r).bind fun _ r₁ =>
      (leaves_readPipeline r₁).bind fun _ _ => List.suffix_rfl
  · exact (leaves_readPipeline s).bind fun _ _ => List.suffix_rfl
  · split
    · exact List.suffix_rfl
    · exact leaves_unexpected s

/-- An origin leaves an end of the text. -/
theorem leaves_readOrigin (s : List Char) : Leaves s (Origin.read s) := by
  refine (leaves_value s).bind fun name r => ?_
  dsimp only
  split
  · exact List.suffix_rfl
  · split
    · exact List.suffix_rfl
    · exact (leaves_readAfter name r).bind fun _ _ => List.suffix_rfl

/-- An origin leaves an end of the text, also where there is none. -/
theorem leaves_readOptional (s : List Char) : Leaves s (Origin.readOptional s) := by
  unfold Origin.readOptional
  split
  · rename_i r h
    refine Leaves.mono ?_ (suffix_of_nextToken h)
    exact (leaves_readOrigin r).bind fun _ _ => List.suffix_rfl
  · exact List.suffix_rfl

/-! ### Passes -/

/-- The text behind a step: what the pass goes on with, or what it leaves. -/
def Step.rest : Step → List Char
  | .next _ r => r
  | .done o => o.rest

section Passes

variable {limit base : Nat} {w : Walk}

/-- Where the text ends, nothing is left. -/
theorem rest_finish : (w.finish base).rest = [] := by
  unfold Walk.finish
  split <;> rfl

/-- A statement leaves an end of the text, whether the pass goes on behind it or not. -/
theorem suffix_takeStatement (s : List Char) : (w.takeStatement limit base s).rest <:+ s := by
  have hname := leaves_value s
  unfold Walk.takeStatement
  split
  · rename_i f h
    rw [h] at hname
    exact hname
  · rename_i name r h
    rw [h] at hname
    split
    · -- the end of the text
      rw [Step.rest, rest_finish]
      exact List.nil_suffix
    · -- the name is behind the start, and the origin behind the name
      have horigin := (leaves_readOptional r).mono hname
      dsimp only
      split
      · rename_i f h
        rw [h] at horigin
        exact horigin
      · rename_i origin r₁ h
        rw [h] at horigin
        have hnext : ∀ {t r}, nextToken r₁ = (t, r) → r <:+ s := fun h =>
          (suffix_of_nextToken h).trans horigin
        split
        · -- a block, whether it is opened or refused
          rename_i r₂ h₂
          split <;> exact hnext h₂
        -- what ends the statement is left for the next step
        · exact horigin
        · exact horigin
        · exact horigin
        · rename_i r₂ _ _ _ _ h₂
          exact hnext h₂

/-- A step leaves an end of the text, whether the pass goes on behind it or not. -/
theorem suffix_step (s : List Char) : (w.step limit base s).rest <:+ s := by
  unfold Walk.step
  split
  · have hr : s.dropWhile Walk.isSeparating <:+ s := List.dropWhile_suffix _
    dsimp only
    split
    · rename_i r h
      split
      · exact (suffix_of_nextToken h).trans hr
      · -- no block is open that the brace could close
        exact (suffix_nextToken _).trans hr
    · exact (suffix_takeStatement _).trans hr
  · exact suffix_takeStatement s

/-- What a pass leaves is an end of the text, however it ends. -/
theorem suffix_run (s : List Char) : (w.run limit base s).rest <:+ s := by
  -- on the steps of the pass
  fun_induction Walk.run limit base w s with
  | case1 w s w' r h ih =>
    have hstep : (w.step limit base s).rest <:+ s := suffix_step s
    rw [h] at hstep
    exact ih.trans hstep
  | case2 w s o h =>
    have hstep : (w.step limit base s).rest <:+ s := suffix_step s
    rw [h] at hstep
    exact hstep

end Passes

/-! ### Cursors and sessions -/

/-- An act that moves a cursor. Looks ahead and complaints leave it where it is. -/
inductive Cursor.Act where
  | nextToken
  | value
  | quoted
  deriving DecidableEq, Repr

/-- The cursor behind an act, whether the act succeeds or fails. -/
def Cursor.move (c : Cursor) : Cursor.Act → Cursor
  | .nextToken => c.nextToken.2
  | .value => c.value.2
  | .quoted => c.quoted.2

/-- An act keeps a cursor in its text and does not move it back. -/
theorem Cursor.move_spec (c : Cursor) (act : Cursor.Act) :
    (c.move act).source = c.source ∧ (c.move act).rest <:+ c.rest := by
  -- values and literals move the cursor to what they leave, also when they are refused
  have hadvance : ∀ (mark : List Char) (taken : Except Fault (String × List Char)),
      Leaves c.rest taken → (c.advance mark taken).2.source = c.source ∧
        (c.advance mark taken).2.rest <:+ c.rest := by
    intro mark taken h
    cases taken with
    | ok p => exact ⟨rfl, h⟩
    | error f => exact ⟨rfl, h⟩
  cases act with
  | nextToken => exact ⟨rfl, suffix_nextToken c.rest⟩
  | value => exact hadvance _ _ (leaves_value c.rest)
  | quoted => exact hadvance _ _ (leaves_quoted c.rest)

/-- A cursor stays in its text, whichever acts it is used for. -/
theorem Cursor.foldl_move (c : Cursor) (acts : List Cursor.Act) :
    (acts.foldl Cursor.move c).source = c.source ∧
      (acts.foldl Cursor.move c).rest <:+ c.rest := by
  induction acts generalizing c with
  | nil => exact ⟨rfl, List.suffix_rfl⟩
  | cons act acts ih =>
    have hmove := c.move_spec act
    have hacts := ih (c.move act)
    exact ⟨hacts.1.trans hmove.1, hacts.2.trans hmove.2⟩

/-- A parse does not go back, whether it succeeds or fails. -/
theorem Session.suffix_rest_next (s : Session) : s.next.rest <:+ s.rest :=
  suffix_run s.rest

end FieldMapping
