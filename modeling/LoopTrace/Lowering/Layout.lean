import LoopTrace.Code.Routine

/-!
# The layout of a lowered trace

A lowered trace has a fixed shape. Its loop is a row of blocks, each but the last ending in a guard that
goes on to the next one or leaves to the bailout block; the last one jumps back to the first. The
prologue, if there is any code in it, falls into the loop, and the bailout block comes last of all.

Blocks get their ids from the last to the first, so that the id of a block is the number of blocks after
it, and its serial is the same number.
-/

namespace LoopTrace

/-- The code of a lowered trace, block by block. -/
structure Layout where
  prologue : List Instruction
  /-- The blocks of the loop in execution order, the jump back left out. -/
  loop : List (List Instruction)
  bailout : List Instruction
  deriving DecidableEq, Repr

namespace Layout

/-- The bailout block. -/
def bailoutId : BlockId := ⟨0⟩

/-- The last block of the loop. -/
def lastId : BlockId := ⟨1⟩

variable (l : Layout)

/-- The first block of the loop. -/
def header : BlockId := ⟨l.loop.length⟩

/-- The prologue's block, if it has code. -/
def prologueId? : Option BlockId := if l.prologue.isEmpty then none else some ⟨l.loop.length + 1⟩

/-- The predecessors of a block of the loop: the first one is entered from the last one and from the
prologue, any other one from the block before it. -/
def loopPredecessors (id : BlockId) : List BlockId :=
  if id = l.header then lastId :: l.prologueId?.toList else [⟨id.index + 1⟩]

/-- The blocks of the loop, from some block on. -/
def loopBlocks : List (List Instruction) → List Block
  | [] => []
  | [code] =>
    [⟨lastId, .normal, some 1, code ++ [.jump (some l.header)], .ofList (l.loopPredecessors lastId),
      .ofList [l.header]⟩]
  | code :: next :: rest =>
    let number := rest.length + 2
    ⟨⟨number⟩, .normal, some number, code, .ofList (l.loopPredecessors ⟨number⟩),
      .ofList [⟨number - 1⟩, bailoutId]⟩ :: loopBlocks (next :: rest)

/-- The prologue's block, if it has code. -/
def prologueBlocks : List Block :=
  l.prologueId?.toList.map fun id => ⟨id, .normal, some id.index, l.prologue, .empty, .ofList [l.header]⟩

/-- The bailout block, which every block of the loop but the last may leave to. -/
def bailoutBlock : Block :=
  ⟨bailoutId, .synthetic, some 0, l.bailout,
    .ofList ((List.range (l.loop.length - 1)).map fun k => ⟨k + 2⟩), .empty⟩

/-- All blocks in execution order. -/
def blocks : List Block := l.prologueBlocks ++ l.loopBlocks l.loop ++ [l.bailoutBlock]

/-- The routine with the layout's blocks. -/
def routine (anchor : Signature) (parameters : List Slot) (slotCount : Nat) : Routine :=
  ⟨anchor, parameters, BlockTable.ofBlocks l.blocks, slotCount, true⟩

end Layout

end LoopTrace
