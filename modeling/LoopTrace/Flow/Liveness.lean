import LoopTrace.Code.Routine

/-!
# Live slots

A slot is live at a point of the code if some path from there reads it before any instruction writes
it. What is live on entry to a block is found by going over the blocks again and again, from the last to
the first, until no set grows any more. A set only ever gains slots that the code mentions, so the number
of rounds is bounded.
-/

namespace LoopTrace

namespace Block

/-- The slots live before some code, from those live after it. -/
def liveBefore (code : List Instruction) (after : List Slot) : List Slot :=
  code.foldr
    (fun i live => i.reads ++ live.filter fun s => i.writes ≠ some s)
    after

/-- The slots that a block reads before it writes them. -/
def exposed (b : Block) : List Slot := (liveBefore b.code []).eraseDups

/-- The slots that a block writes. -/
def written (b : Block) : List Slot := b.code.filterMap Instruction.writes

end Block

namespace Routine

/-- What is known to be live on entry to blocks; an id that does not occur stands for no slots. -/
abbrev LiveSets := List (BlockId × List Slot)

namespace LiveSets

/-- The slots known to be live on entry to a block. -/
def onEntry (sets : LiveSets) (id : BlockId) : List Slot := (sets.lookup id).getD []

/-- Replaces the slots known to be live on entry to a block. -/
def put (sets : LiveSets) (id : BlockId) (live : List Slot) : LiveSets :=
  (id, live) :: sets.filter (·.1 ≠ id)

end LiveSets

/-- What is live on entry to a block with the given exposed and written slots, from what is live on
entry to its successors. -/
def liveIn (sets : LiveSets) (exposed written : List Slot) (successors : List BlockId) : List Slot :=
  successors.foldl
    (fun live id => live ++ (sets.onEntry id).filter fun s => s ∉ written ∧ s ∉ live)
    exposed

/-- What blocks read and write: the last block with an id stands for all of them. -/
structure Summary where
  id : BlockId
  exposed : List Slot
  written : List Slot

/-- The summary of a block. -/
def Summary.ofBlock (b : Block) : Summary := ⟨b.id, b.exposed, b.written⟩

/-- One step of a round: what is live on entry to one block, if that is another number of slots than
was known before. -/
def liveStep (summaries : List Summary) (sets : LiveSets) (b : Block) : LiveSets :=
  match summaries.find? (·.id = b.id) with
  | none => sets
  | some summary =>
    let live := liveIn sets summary.exposed summary.written b.successors.toList
    if live.length = (sets.onEntry b.id).length then sets else sets.put b.id live

/-- Rounds over the blocks, from the last to the first, until nothing changes. -/
def liveRounds (summaries : List Summary) (reversed : List Block) : Nat → LiveSets → LiveSets
  | 0, sets => sets
  | limit + 1, sets =>
    let sets' := reversed.foldl (liveStep summaries) sets
    if sets' = sets then sets else liveRounds summaries reversed limit sets'

/-- The slots that the code of a routine mentions. -/
def mentioned (r : Routine) : List Slot :=
  (r.blocks.flatMap fun b => b.code.flatMap Instruction.reads).eraseDups

/-- What is live on entry to the blocks of a routine. Each round but the last adds a slot to a set. -/
def liveSets (r : Routine) : LiveSets :=
  let reversed := r.blocks.reverse
  liveRounds (reversed.map Summary.ofBlock) reversed (r.blocks.length * r.mentioned.length + 1) []

/-- The slots that are live on entry to the routine and no parameters. -/
def undefinedOnEntry (r : Routine) (entry : BlockId) : List Slot :=
  (r.liveSets.onEntry entry).filter fun s => s ∉ r.parameters

end Routine

end LoopTrace
