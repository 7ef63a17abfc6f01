import LoopTrace.Lowering.Settings
import LoopTrace.Proofs.Renaming

/-!
# Other tags

What a guard stores in the slot for the tag is a number that tells the runtime which guard failed. The
code itself does nothing with it: with other tags the same slots are read and written and the same blocks
are gone to, so that a routine passes verification, or fails it for one reason, whatever its tags are
(`Routine.verify_mapCode`).
-/

namespace LoopTrace

/-- The routine with other instructions in the places of its own. -/
def Routine.mapCode (F : Instruction → Instruction) (r : Routine) : Routine :=
  { r with table := r.table.mapCode F }

/-- The instruction with another tag, if it is one that stores a guard's tag in the slot for the tag. -/
def Instruction.retag (tagSlot : Slot) (s : ValueId → ValueId) : Instruction → Instruction
  | .assign destination (.immediate (.guardSite site)) =>
    .assign destination
      (.immediate (.guardSite (if destination = tagSlot then (s ⟨site⟩).index else site)))
  | i => i

/-- The routine with other tags. -/
def Routine.retag (tagSlot : Slot) (s : ValueId → ValueId) (r : Routine) : Routine :=
  r.mapCode (Instruction.retag tagSlot s)

/-- New instructions do with slots what the old ones did, and go where they went. -/
structure Instruction.KeepsFlow (F : Instruction → Instruction) : Prop where
  reads : ∀ i, (F i).reads = i.reads
  writes : ∀ i, (F i).writes = i.writes
  targets : ∀ i, (F i).targets = i.targets
  unresolved : ∀ i, F i = .jump none ↔ i = .jump none

namespace Instruction

variable {tagSlot : Slot} {s : ValueId → ValueId}

/-- Every other instruction stays as it is. -/
theorem retag_cases (i : Instruction) : i.retag tagSlot s = i ∨ ∃ site,
    i = .assign tagSlot (.immediate (.guardSite site)) ∧
      i.retag tagSlot s = .assign tagSlot (.immediate (.guardSite (s ⟨site⟩).index)) := by
  rw [retag.eq_def]
  split
  · next destination site =>
    by_cases hd : destination = tagSlot
    · subst hd
      exact Or.inr ⟨site, rfl, by rw [if_pos rfl]⟩
    · exact Or.inl (by rw [if_neg hd])
  · exact Or.inl rfl

theorem retag_of_writes_ne {i : Instruction} (h : i.writes ≠ some tagSlot) :
    i.retag tagSlot s = i :=
  (retag_cases i).resolve_right fun ⟨_, hi, _⟩ => h (hi ▸ rfl)

theorem keepsFlow_retag : KeepsFlow (retag tagSlot s) := by
  refine ⟨fun i => ?_, fun i => ?_, fun i => ?_, fun i => ?_⟩ <;>
    rcases (retag_cases i : i.retag tagSlot s = i ∨ _) with he | ⟨site, rfl, he⟩ <;> rw [he] <;>
    first | rfl | simp

end Instruction

namespace Block

variable {F : Instruction → Instruction} (hF : Instruction.KeepsFlow F)

include hF

theorem liveBefore_map (code : List Instruction) (after : List Slot) :
    liveBefore (code.map F) after = liveBefore code after := by
  rw [liveBefore, liveBefore, List.foldr_map]
  simp only [hF.reads, hF.writes]

theorem exposed_mapCode (b : Block) : (b.mapCode F).exposed = b.exposed :=
  congrArg List.eraseDups (liveBefore_map hF b.code [])

theorem written_mapCode (b : Block) : (b.mapCode F).written = b.written := by
  rw [written, written, mapCode, List.filterMap_map]
  exact List.filterMap_congr fun i _ => hF.writes i

end Block

namespace Routine

variable {F : Instruction → Instruction} (r : Routine)

theorem blocks_mapCode : (r.mapCode F).blocks = r.blocks.map (Block.mapCode F) := by
  rw [blocks, blocks, BlockTable.blocks, BlockTable.blocks, mapCode, BlockTable.entries_mapCode,
    List.map_map, List.map_map]
  rfl

theorem block?_mapCode (id : BlockId) :
    (r.mapCode F).block? id = (r.block? id).map (Block.mapCode F) :=
  lookup_map (fun k => k) (Block.mapCode F) fun _ _ h => h

theorem entry?_mapCode : Routine.entry? (r.mapCode F) = r.entry? := by
  rw [ entry?, entry?, blockIds, blockIds, BlockTable.ids, BlockTable.ids, mapCode,
    BlockTable.entries_mapCode, List.map_map]
  rfl

/-! ### What checks see of blocks -/

theorem checkSerial_mapCode (seen : List Nat) (b : Block) :
    checkSerial seen (b.mapCode F) = checkSerial seen b := by
  simp [checkSerial, Block.mapCode]

theorem checkTarget_mapCode (b : Block) :
    (r.mapCode F).checkTarget (b.mapCode F) = r.checkTarget b := by
  funext target
  rw [checkTarget, checkTarget, block?_mapCode, Option.isNone_map]
  rfl

theorem checkSuccessor_mapCode (b : Block) :
    (r.mapCode F).checkSuccessor (b.mapCode F) = r.checkSuccessor b := by
  funext successor
  rw [checkSuccessor, checkSuccessor, block?_mapCode, Option.any_map]
  rfl

theorem checkPredecessor_mapCode (b : Block) :
    (r.mapCode F).checkPredecessor (b.mapCode F) = r.checkPredecessor b := by
  funext predecessor
  rw [checkPredecessor, checkPredecessor, block?_mapCode, Option.any_map]
  rfl

theorem liveRounds_mapCode (summaries : List Summary) (bs : List Block) (limit : Nat)
    (sets : LiveSets) : liveRounds summaries (bs.map (Block.mapCode F)) limit sets =
      liveRounds summaries bs limit sets := by
  induction limit generalizing sets with
  | zero => rfl
  | succ limit ih =>
    -- a step looks at the id of a block and at its successors only
    have hround : (bs.map (Block.mapCode F)).foldl (liveStep summaries) sets =
        bs.foldl (liveStep summaries) sets := by
      rw [List.foldl_map]
      rfl
    rw [liveRounds, liveRounds, hround, ih]

section Flow

variable (hF : Instruction.KeepsFlow F)

include hF

/-! ### Live slots -/

theorem summary_mapCode (b : Block) : Summary.ofBlock (b.mapCode F) = Summary.ofBlock b := by
  rw [Summary.ofBlock, Summary.ofBlock, Block.exposed_mapCode hF, Block.written_mapCode hF]
  rfl

theorem mentioned_mapCode : (r.mapCode F).mentioned = r.mentioned := by
  rw [mentioned, mentioned, blocks_mapCode, List.flatMap_map]
  simp only [Block.mapCode, List.flatMap_map, hF.reads]

theorem liveSets_mapCode : (r.mapCode F).liveSets = r.liveSets := by
  have hsummaries : (r.blocks.map (Block.mapCode F)).reverse.map Summary.ofBlock =
      r.blocks.reverse.map Summary.ofBlock := by
    rw [← List.map_reverse, List.map_map]
    exact List.map_congr_left fun b _ => summary_mapCode hF b
  rw [liveSets, liveSets, blocks_mapCode, mentioned_mapCode r hF, List.length_map, hsummaries,
    ← List.map_reverse, liveRounds_mapCode]

theorem checkSlots_mapCode : (r.mapCode F).checkSlots = r.checkSlots := by
  have hundefined : ∀ entry, (r.mapCode F).undefinedOnEntry entry = r.undefinedOnEntry entry := by
    intro entry
    rw [undefinedOnEntry, undefinedOnEntry, liveSets_mapCode r hF]
    rfl
  simp only [checkSlots, entry?_mapCode, hundefined]

/-! ### Blocks -/

theorem checkInstruction_mapCode (b : Block) (i : Instruction) :
    (r.mapCode F).checkInstruction (b.mapCode F) (F i) = r.checkInstruction b i := by
  rw [checkInstruction, checkInstruction, hF.targets, checkTarget_mapCode]
  simp only [hF.unresolved]
  rfl

theorem checkBlocks_mapCode (seen : List Nat) (bs : List Block) :
    (r.mapCode F).checkBlocks seen (bs.map (Block.mapCode F)) = r.checkBlocks seen bs := by
  induction bs generalizing seen with
  | nil => rfl
  | cons b bs ih =>
    have hcode : (b.mapCode F).code.forM ((r.mapCode F).checkInstruction (b.mapCode F)) =
        b.code.forM (r.checkInstruction b) :=
      List.forM_map.trans (congrArg b.code.forM (funext (checkInstruction_mapCode r hF b)))
    rw [List.map_cons, checkBlocks, checkBlocks, checkSerial_mapCode, hcode, checkSuccessor_mapCode,
      checkPredecessor_mapCode]
    simp only [ih]
    rfl

/-- Verification comes to the same with instructions that do the same with slots and go to the same
blocks. -/
theorem verify_mapCode : (r.mapCode F).verify = r.verify := by
  rw [verify, verify, blocks_mapCode, checkBlocks_mapCode r hF, checkSlots_mapCode r hF]
  rfl

end Flow

end Routine

end LoopTrace
