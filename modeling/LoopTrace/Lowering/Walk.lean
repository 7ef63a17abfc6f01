import LoopTrace.Journal
import LoopTrace.Lowering.Fault
import LoopTrace.Lowering.Layout
import LoopTrace.Lowering.Settings

/-!
# The backward walk

A trace is lowered in one walk from its last instruction to its first. So the last use of a value is met
before its definition: a slot is bound to the value at that use, and released as soon as the code of the
defining instruction stands. Code is put in front of the code that is there already. At a guard the walk
closes the block that comes after it and opens the one that ends in it.

The walk begins with the parameters, then the moves that carry values into the next iteration, then the
body, and at last the prologue, in a block of its own.
-/

namespace LoopTrace

/-- What is given for a lowering. -/
structure Job where
  trace : Trace
  settings : Settings
  /-- The values that are the same in every iteration. -/
  invariants : List ValueId
  /-- The slot that receives the tag of a guard that fails. -/
  tagSlot : Slot

/-- Where the walk stands. -/
structure Walk where
  phase : Phase := .start
  pool : Pool
  /-- The code of the block that is being filled. -/
  code : List Instruction := []
  /-- The code of the blocks after it, the bailout block apart, in execution order. -/
  later : List (List Instruction) := []
  /-- What has happened so far. -/
  journal : Array Event := #[]
  deriving Inhabited

/-- A part of the walk, which may fail; what it did before it failed stands. -/
abbrev Walk.Step := ExceptT Fault (StateM Walk)

namespace Walk

/-- Enters an event into the journal. -/
def note (e : Event) : Step Unit := modify fun w => { w with journal := w.journal.push e }

/-- Enters events into the journal. -/
def noteAll (es : List Event) : Step Unit := es.forM note

/-- Puts instructions in front of the block that is being filled. -/
def prepend (code : List Instruction) : Step Unit := modify fun w => { w with code := code ++ w.code }

/-- Enters a phase. -/
def enter (phase : Phase) : Step Unit := modify fun w => { w with phase }

/-- Closes the block that is being filled and opens one in front of it. -/
def openBlock : Step Unit := modify fun w => { w with code := [], later := w.code :: w.later }

/-- The block that is being filled. -/
def current (w : Walk) : BlockId := ⟨w.later.length + 1⟩

/-- Hands out a slot. -/
def allocate (kind : Kind) (mode : Pool.Mode) : Step Slot := do
  let pool := (← get).pool
  noteAll (pool.events (.allocate kind mode))
  let (slot, pool) := pool.allocate kind mode
  modify fun w => { w with pool }
  return slot

/-- The slot bound to a value. -/
def allocateFor (value : ValueId) (kind : Kind) (mode : Pool.Mode) : Step Slot := do
  let pool := (← get).pool
  noteAll (pool.events (.allocateFor value kind mode))
  let (result, pool) := pool.allocateFor value kind mode
  modify fun w => { w with pool }
  match result with
  | .ok slot => return slot
  | .error e => throw (.breach (.pool e))

/-- Ends the life of a value. -/
def release (value : ValueId) : Step Unit := do
  let pool := (← get).pool
  noteAll (pool.events (.release value))
  match pool.release value with
  | .ok (_, pool) => modify fun w => { w with pool }
  | .error e => throw (.breach (.pool e))

/-- Gives back a slot that was never bound. -/
def recycle (slot : Slot) : Step Unit := do
  match (← get).pool.recycle slot with
  | .ok pool => modify fun w => { w with pool }
  | .error e => throw (.breach (.pool e))

/-- Ends the life of an instruction's result once the instruction stands. -/
def endDefinition (value : ValueId) (result : Option Slot) : Step Unit :=
  if result.isSome then release value else pure ()

end Walk

namespace Job

open Walk

variable (j : Job)

/-- How a value gets its slot. -/
def mode (id : ValueId) : Pool.Mode := if id ∈ j.invariants then .exclusive else .shared

/-- The value at a place of the arena. -/
def fetch (id : ValueId) : Step Trace.Value :=
  match j.trace.get? id with
  | some v => return v
  | none => throw (.invalidTrace (.dangling id))

/-- The slot of a value of a kind, which has to carry something. -/
def slotOf (id : ValueId) (kind : Kind) : Step Slot :=
  if kind = .void then throw (.breach (.noValue id)) else allocateFor id kind (j.mode id)

/-- The operand for a use of a value. Constants need no slot, and neither do values that are not
tracked. -/
def use (id : ValueId) : Step Operand := do
  match ← j.fetch id with
  | .constant c => return .immediate c
  | .untracked => return .undefined
  | v => return .slot (← j.slotOf id v.kind)

/-- The frame for an instruction that carries one. -/
def useFrame (frame : Frame ValueId) : Step (Frame Operand) := do
  return ⟨frame.method, frame.position, ← frame.locals.mapM j.use, ← frame.stack.mapM j.use⟩

/-- The frame for an instruction, if it carries one. -/
def useFrame? : Option (Frame ValueId) → Step (Option (Frame Operand))
  | some frame => return some (← j.useFrame frame)
  | none => return none

/-- The slot for the result of an instruction, if it has one. -/
def define (id : ValueId) (kind : Kind) : Step (Option Slot) :=
  if kind = .void then return none else return some (← allocateFor id kind (j.mode id))

/-- The parameters for a local on entry: its slot if it is read, and a slot of kind void otherwise; wide
locals take one more. -/
def parameter (id : ValueId) : Step (List Slot) := do
  match ← j.fetch id with
  | .atEntry _ kind flags =>
    let slot ← if flags.read then j.slotOf id kind else allocate .void .exclusive
    if kind.isWide then return [slot, ← allocate .void .exclusive] else return [slot]
  | _ => throw (.breach (.entryNotLocal id))

/-- The move that carries a value into the next iteration. A local whose new value is not tracked stays
as it is. -/
def writeMove (write : Trace.Write) : Step (Option Move) := do
  let source ← j.use write.source
  match ← j.use write.destination with
  | .slot destination =>
    if source = .undefined then
      note (.kept destination)
      return none
    else return some ⟨destination, source⟩
  | _ => throw (.breach (.noSlot write.destination))

/-- Puts the moves to the next iteration in front. Their temporaries are free again before them. -/
def writeBack : Step Unit := do
  let moves ← j.trace.writes.mapM j.writeMove
  let steps ← Move.schedule (fun kind => allocate kind .shared) (fun step => note (.moved step))
    (moves.filterMap id)
  let temporaries := steps.filterMap Move.Step.temporary?
  note (.wroteBack steps.length temporaries.length)
  prepend (steps.map fun step => step.move.instruction)
  temporaries.forM recycle

/-- Lowers a guard: the block after it is closed, and a new one ends in the guard's exit. -/
def lowerGuard (site : ValueId) (kind : Kind) (comparator : Comparator) (left right : ValueId)
    (frame : Option (Frame ValueId)) : Step Unit := do
  let continuation := (← get).current
  let left ← j.use left
  let right ← j.use right
  let frame ← j.useFrame? frame
  openBlock
  let block := (← get).current
  note (.emitted block block.index true)
  let g : GuardExit := ⟨site, kind, comparator, left, right, frame⟩
  note (.guarded g)
  prepend (g.code j.tagSlot Layout.bailoutId continuation)

/-- Lowers an instruction that is no guard. Leaves have no code. -/
def lowerPlain (id : ValueId) : Trace.Value → Step Unit
  | .operation op operands => do
    let result ← j.define id op.result
    let operands ← operands.mapM j.use
    prepend [.operate result op operands]
    endDefinition id result
  | .call method operands frame => do
    let result ← j.define id method.result
    let arguments ← operands.mapM j.use
    let frame ← j.useFrame? frame
    prepend [.call result (.method method) (j.settings.abi.ofMethod method) arguments frame]
    endDefinition id result
  | .inlinedCall method _ => throw (.unsupported (.inlining method))
  | _ => return ()

/-- Lowers an instruction of the body. -/
def lowerBody (id : ValueId) : Step Unit := do
  match ← j.fetch id with
  | .guard kind comparator left right frame => j.lowerGuard id kind comparator left right frame
  | v => j.lowerPlain id v

/-- Lowers an instruction of the prologue, where there is nothing to leave to. -/
def lowerPrologue (id : ValueId) : Step Unit := do
  match ← j.fetch id with
  | .guard .. => throw (.unsupported (.prologueGuard id))
  | v => j.lowerPlain id v

/-- Lowers the loop, and gives the parameters. -/
def lowerLoop : Step (List Slot) := do
  note (.emitted Layout.bailoutId 0 false)
  let parameters ← j.trace.entry.mapM j.parameter
  note (.emitted Layout.lastId 1 false)
  j.writeBack
  j.trace.body.reverse.forM j.lowerBody
  enter .loopBack
  note (.loopedBack Layout.lastId (← get).current)
  return parameters.flatten

/-- Lowers the prologue into a block in front of the loop. -/
def lowerEntry : Step Unit := do
  openBlock
  j.trace.prologue.reverse.forM j.lowerPrologue
  let w ← get
  if w.code.isEmpty then note (.dropped w.current) else note (.emitted w.current w.current.index true)

/-- The routine for the code that the walk has left. -/
def routine (parameters : List Slot) (w : Walk) : Routine :=
  let layout : Layout := ⟨w.code, w.later, j.settings.abi.bailoutCode j.tagSlot⟩
  layout.routine j.trace.anchor parameters w.pool.next

/-- Verifies the routine, if that is asked for. -/
def verify (r : Routine) : Step Unit :=
  if j.settings.verify then
    match r.verify with
    | .ok () => return ()
    | .error e => throw (.breach (.routine e))
  else return ()

/-- The whole walk. -/
def lower : Step Routine := do
  let t := j.trace
  note (.started t.anchor t.position t.body.length t.prologue.length)
  enter .body
  let parameters ← j.lowerLoop
  enter .prologue
  j.lowerEntry
  let r := j.routine parameters (← get)
  j.verify r
  note (.generated r.blocks.length r.slotCount r.parameters.length)
  if j.settings.dump then note (.shown r)
  enter .finished
  return r

end Job

end LoopTrace
