import LoopTrace.Proofs.Placement

/-!
# Renaming slots

A function from slots to slots renames the slots of code and leaves all else: which blocks there are and
how they are joined, which instructions stand in them, and what they work on apart from slots. As the
code of a trace is told from where its values are kept, renaming the places renames the code
(`Job.rowBefore_rename`), and a layout of renamed code is the renamed routine (`Layout.routine_rename`),
as it is for all changes of instructions in their places that leave the jumps alone.
-/

namespace LoopTrace

/-- The operand with its slot renamed. -/
def Operand.rename (f : Slot → Slot) : Operand → Operand
  | .slot s => .slot (f s)
  | .immediate c => .immediate c
  | .undefined => .undefined

/-- The instruction with its slots renamed, those of its frame included. -/
def Instruction.rename (f : Slot → Slot) : Instruction → Instruction
  | .assign destination source => .assign (f destination) (source.rename f)
  | .operate result op operands => .operate (result.map f) op (operands.map (Operand.rename f))
  | .call result callee convention arguments frame =>
    .call (result.map f) callee convention (arguments.map (Operand.rename f))
      (frame.map (Frame.map (Operand.rename f)))
  | .branch kind comparator tag candidates targets otherwise =>
    .branch kind comparator (tag.rename f) (candidates.map (Operand.rename f)) targets otherwise
  | .guardpoint frame => .guardpoint (frame.map (Frame.map (Operand.rename f)))
  | .jump target => .jump target
  | .leave value => .leave (value.rename f)

/-- The block with other instructions in the places of its own. -/
def Block.mapCode (F : Instruction → Instruction) (b : Block) : Block := { b with code := b.code.map F }

/-- The table with other instructions in the places of those of its blocks. -/
def BlockTable.mapCode (F : Instruction → Instruction) (t : BlockTable) : BlockTable :=
  ⟨t.entries.map fun entry => (entry.1, entry.2.mapCode F), by
    rw [List.map_map]
    exact t.nodup⟩

theorem BlockTable.entries_mapCode (F : Instruction → Instruction) (t : BlockTable) :
    (t.mapCode F).entries = t.entries.map fun entry => (entry.1, entry.2.mapCode F) := rfl

/-- The layout with other instructions in the places of its own. -/
def Layout.mapCode (F : Instruction → Instruction) (l : Layout) : Layout :=
  ⟨l.prologue.map F, l.loop.map (List.map F), l.bailout.map F⟩

/-- The routine with its slots renamed, the parameters included. How many slots were made stays what it
was. -/
def Routine.rename (f : Slot → Slot) (r : Routine) : Routine :=
  { r with parameters := r.parameters.map f, table := r.table.mapCode (Instruction.rename f) }

/-- The layout with the slots of its code renamed. -/
def Layout.rename (f : Slot → Slot) : Layout → Layout := Layout.mapCode (Instruction.rename f)

/-- The places with other names. -/
def Placement.rename (f : Slot → Slot) (place : Placement) : Placement := fun u => (place u).map f

/-- The exit of a guard with its slots renamed. -/
def GuardExit.rename (f : Slot → Slot) (g : GuardExit) : GuardExit :=
  { g with
    left := g.left.rename f
    right := g.right.rename f
    frame := g.frame.map (Frame.map (Operand.rename f)) }

variable {f : Slot → Slot}

/-! ### Layouts -/

namespace Layout

variable (F : Instruction → Instruction) (l : Layout)

theorem prologueId?_mapCode : (l.mapCode F).prologueId? = l.prologueId? := by
  simp [prologueId?, mapCode]

theorem header_mapCode : (l.mapCode F).header = l.header := by
  simp [header, mapCode]

theorem loopPredecessors_mapCode (id : BlockId) :
    (l.mapCode F).loopPredecessors id = l.loopPredecessors id := by
  rw [loopPredecessors, loopPredecessors, header_mapCode, prologueId?_mapCode]

theorem prologueBlocks_mapCode :
    (l.mapCode F).prologueBlocks = l.prologueBlocks.map (Block.mapCode F) := by
  rw [prologueBlocks, prologueBlocks, prologueId?_mapCode, header_mapCode, List.map_map]
  rfl

theorem bailoutBlock_mapCode : (l.mapCode F).bailoutBlock = l.bailoutBlock.mapCode F := by
  simp [bailoutBlock, Block.mapCode, mapCode]

section Jumps

variable {F} (hjump : ∀ target, F (.jump target) = .jump target)

include hjump

theorem loopBlock_mapCode (code : List Instruction) (rest : List (List Instruction)) :
    (l.mapCode F).loopBlock (code.map F) (rest.map (List.map F)) =
      (l.loopBlock code rest).mapCode F := by
  rw [loopBlock, loopBlock, loopPredecessors_mapCode, header_mapCode, List.length_map]
  by_cases hr : rest = []
  · subst hr
    simp [Block.mapCode, hjump]
  · have hr' : rest.map (List.map F) ≠ [] := by simpa using hr
    simp [Block.mapCode, hr, hr']

theorem loopBlocks_mapCode (cs : List (List Instruction)) :
    (l.mapCode F).loopBlocks (cs.map (List.map F)) = (l.loopBlocks cs).map (Block.mapCode F) := by
  induction cs with
  | nil => rfl
  | cons code rest ih =>
    rw [List.map_cons, loopBlocks_cons, loopBlocks_cons, List.map_cons, ih,
      l.loopBlock_mapCode hjump]

theorem blocks_mapCode : (l.mapCode F).blocks = l.blocks.map (Block.mapCode F) := by
  have hloop : (l.mapCode F).loopBlocks (l.mapCode F).loop =
      (l.loopBlocks l.loop).map (Block.mapCode F) := l.loopBlocks_mapCode hjump l.loop
  rw [blocks, blocks, prologueBlocks_mapCode, hloop, bailoutBlock_mapCode, List.map_append,
    List.map_append]
  rfl

/-- If the jumps stay, a layout with other instructions in the places of its own is a routine with those
instructions. -/
theorem routine_mapCode (anchor : Signature) (parameters : List Slot) (n : Nat) :
    (l.mapCode F).routine anchor parameters n =
      { l.routine anchor parameters n with
        table := (l.routine anchor parameters n).table.mapCode F } := by
  have hentries : BlockTable.ofBlocks (l.mapCode F).blocks =
      (BlockTable.ofBlocks l.blocks).mapCode F := by
    rw [BlockTable.mk.injEq, BlockTable.entries_mapCode, BlockTable.entries_ofBlocks (l.mapCode F).nodup_ids,
      BlockTable.entries_ofBlocks l.nodup_ids, l.blocks_mapCode hjump, List.map_map, List.map_map]
    rfl
  rw [routine, hentries]
  rfl

end Jumps

/-- A layout of renamed code is the renamed routine. -/
theorem routine_rename (f : Slot → Slot) (anchor : Signature) (parameters : List Slot) (n m : Nat) :
    (l.rename f).routine anchor (parameters.map f) m =
      { (l.routine anchor parameters n).rename f with slotCount := m } :=
  l.routine_mapCode (fun _ => rfl) anchor (parameters.map f) m

end Layout

/-! ### Code that is told from places -/

theorem GuardExit.code_rename (g : GuardExit) {tagSlot : Slot} (htag : f tagSlot = tagSlot)
    (bailout continuation : BlockId) : (g.rename f).code tagSlot bailout continuation =
      (g.code tagSlot bailout continuation).map (Instruction.rename f) := by
  simp only [code, List.map_cons, List.map_nil, Instruction.rename, htag, Operand.rename]
  rfl

theorem Abi.bailoutCode_rename (abi : Abi) {tagSlot : Slot} (htag : f tagSlot = tagSlot) :
    (abi.bailoutCode tagSlot).map (Instruction.rename f) = abi.bailoutCode tagSlot := by
  simp only [bailoutCode, callStub, List.map_cons, List.map_nil, Instruction.rename, Operand.rename,
    htag, Option.map_none]

namespace Job

variable {j : Job} (place : Placement)

theorem operandAt_rename (id : ValueId) :
    j.operandAt (place.rename f) id = (j.operandAt place id).rename f := by
  rw [operandAt, operandAt, Placement.rename]
  split
  · rfl
  · cases place id <;> rfl

theorem map_operandAt_rename (ids : List ValueId) :
    ids.map (j.operandAt (place.rename f)) =
      (ids.map (j.operandAt place)).map (Operand.rename f) := by
  rw [List.map_map]
  exact List.map_congr_left fun id _ => operandAt_rename place id

theorem frame_operandAt_rename (frame : Option (Frame ValueId)) :
    frame.map (Frame.map (j.operandAt (place.rename f))) =
      (frame.map (Frame.map (j.operandAt place))).map (Frame.map (Operand.rename f)) := by
  cases frame with
  | none => rfl
  | some frame =>
    simp only [Option.map_some, Frame.map, map_operandAt_rename]

theorem instructionAt_rename (id : ValueId) :
    j.instructionAt (place.rename f) id = (j.instructionAt place id).map (Instruction.rename f) := by
  rw [instructionAt, instructionAt]
  cases j.trace.get? id with
  | none => rfl
  | some v =>
    cases v with
    | operation op operands =>
      simp only [Option.map_some, Instruction.rename, map_operandAt_rename]
      rfl
    | call method operands frame =>
      simp only [Option.map_some, Instruction.rename, map_operandAt_rename, frame_operandAt_rename]
      rfl
    | _ => rfl

theorem exitAt_rename (id : ValueId) :
    j.exitAt (place.rename f) id = (j.exitAt place id).map (GuardExit.rename f) := by
  rw [exitAt, exitAt]
  cases j.trace.get? id with
  | none => rfl
  | some v =>
    cases v with
    | guard kind comparator left right frame =>
      simp only [Option.map_some, GuardExit.rename, operandAt_rename, frame_operandAt_rename]
    | _ => rfl

theorem codeAt_rename (ids : List ValueId) :
    j.codeAt (place.rename f) ids = (j.codeAt place ids).map (Instruction.rename f) := by
  rw [codeAt, codeAt, List.map_filterMap]
  exact List.filterMap_congr fun id _ => instructionAt_rename place id

theorem rowBefore_rename (htag : f j.tagSlot = j.tagSlot) (id : ValueId)
    (row : List (List Instruction)) :
    j.rowBefore (place.rename f) id (row.map (List.map (Instruction.rename f))) =
      (j.rowBefore place id row).map (List.map (Instruction.rename f)) := by
  rw [rowBefore, rowBefore, exitAt_rename, instructionAt_rename]
  cases j.exitAt place id with
  | some g => simp only [Option.map_some, GuardExit.code_rename _ htag, List.length_map, List.map_cons]
  | none =>
    cases row with
    | nil => rfl
    | cons code row =>
      cases j.instructionAt place id <;> rfl

theorem rowAt_rename (htag : f j.tagSlot = j.tagSlot) (ids : List ValueId)
    (row : List (List Instruction)) :
    j.rowAt (place.rename f) ids (row.map (List.map (Instruction.rename f))) =
      (j.rowAt place ids row).map (List.map (Instruction.rename f)) := by
  induction ids with
  | nil => rfl
  | cons id ids ih => exact (congrArg _ ih).trans (rowBefore_rename place htag id _)

end Job

/-! ### Names that stay -/

/-- An instruction whose slots keep their names stays as it is. -/
theorem Move.rename_instruction {m : Move} (hd : f m.destination = m.destination)
    (hs : ∀ s, m.source = .slot s → f s = s) : m.instruction.rename f = m.instruction := by
  have hsource : m.source.rename f = m.source := by
    cases h : m.source with
    | slot s => exact congrArg Operand.slot (hs s h)
    | immediate c => rfl
    | undefined => rfl
  rw [Move.instruction, Instruction.rename, hd, hsource]

/-- Steps stay as they are if all slots with numbers that they and their moves may have keep their
names. -/
theorem Move.Ordered.rename_stepCode {n o : Nat} {pending : List Move} {steps : List Move.Step}
    (h : Move.Ordered n pending steps o) (hbelow : Move.Below n pending)
    (hf : ∀ s : Slot, s.serial < o → f s = s) :
    (Move.stepCode steps).map (Instruction.rename f) = Move.stepCode steps := by
  induction h with
  | done n => rfl
  | @transfer n o a b ready steps unread rest ih =>
    obtain ⟨hd, hs⟩ := hbelow ready (by simp)
    have hready : ready.instruction.rename f = ready.instruction :=
      Move.rename_instruction (hf _ (Nat.lt_of_lt_of_le hd rest.le)) fun s he =>
        hf s (Nat.lt_of_lt_of_le (hs s he) rest.le)
    exact congrArg₂ List.cons hready (ih hbelow.transfer hf)
  | @save n o pending first steps mem read rest ih =>
    have hlt : n < o := rest.le
    have hsave : (Move.Step.save first.destination ⟨first.destination.kind, n⟩).move.instruction.rename f =
        (Move.Step.save first.destination ⟨first.destination.kind, n⟩).move.instruction :=
      Move.rename_instruction (hf _ hlt) fun s he => by
        obtain rfl := Operand.slot.inj he
        exact hf _ (Nat.lt_trans (hbelow first mem).1 hlt)
    exact congrArg₂ List.cons hsave (ih (hbelow.redirect _ _) hf)

end LoopTrace
