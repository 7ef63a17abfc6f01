import LoopTrace.Flow.Liveness

/-!
# Verification

What a finished routine has to keep. Each block in turn: it has code and a serial of its own, its jumps
have targets, its branches go to blocks of the routine along edges that it lists, and its edges are
listed on both sides. Then, for the routine as a whole, no path from its entry reads a slot before it
writes it, parameters apart.
-/

namespace LoopTrace.Routine

/-- A rule that a routine breaks. -/
inductive Defect where
  | notGenerated
  | emptyBlock (id : BlockId)
  | serialTwice (serial : Nat)
  | neverEmitted (id : BlockId)
  | unresolvedJump (id : BlockId)
  | missingTarget (id target : BlockId)
  | unlistedTarget (id target : BlockId)
  | oneSidedEdge (origin target : BlockId)
  | readBeforeWrite (slot : Slot) (entry : BlockId)
  deriving DecidableEq, Repr

/-- The broken rule in words. -/
def Defect.message : Defect → String
  | .notGenerated => "verifying a method that was never generated"
  | .emptyBlock id => "block " ++ id.text ++ " is empty"
  | .serialTwice serial => "serial " ++ toString serial ++ " used twice"
  | .neverEmitted id => "block " ++ id.text ++ " was never emitted"
  | .unresolvedJump id => "unresolved goto in " ++ id.text
  | .missingTarget id target => id.text ++ " branches to missing " ++ target.text
  | .unlistedTarget id target => id.text ++ " branches to " ++ target.text ++ " without a successor edge"
  | .oneSidedEdge origin target => "edge " ++ origin.text ++ " -> " ++ target.text ++ " is one-sided"
  | .readBeforeWrite slot entry =>
    slot.text ++ " is read before any write reaches it from " ++ entry.text

variable (r : Routine)

/-- A block has code and a serial that is none of `seen`. -/
def checkSerial (seen : List Nat) (b : Block) : Except Defect Nat :=
  if b.code.isEmpty then .error (.emptyBlock b.id)
  else
    match b.serial with
    | some serial => if serial ∈ seen then .error (.serialTwice serial) else .ok serial
    | none => .error (.neverEmitted b.id)

/-- A target of a block's branches is a block of the routine and one of its successors. -/
def checkTarget (b : Block) (target : BlockId) : Except Defect Unit :=
  if (r.block? target).isNone then .error (.missingTarget b.id target)
  else if target ∈ b.successors then .ok ()
  else .error (.unlistedTarget b.id target)

/-- An instruction of a block goes where it may. -/
def checkInstruction (b : Block) (i : Instruction) : Except Defect Unit :=
  if i = .jump none then .error (.unresolvedJump b.id) else i.targets.forM (r.checkTarget b)

/-- A successor of a block lists it as a predecessor. -/
def checkSuccessor (b : Block) (successor : BlockId) : Except Defect Unit :=
  if (r.block? successor).any fun s => b.id ∈ s.predecessors then .ok ()
  else .error (.oneSidedEdge b.id successor)

/-- A predecessor of a block lists it as a successor. -/
def checkPredecessor (b : Block) (predecessor : BlockId) : Except Defect Unit :=
  if (r.block? predecessor).any fun p => b.id ∈ p.successors then .ok ()
  else .error (.oneSidedEdge predecessor b.id)

/-- Blocks keep the rules if they come after blocks with the serials of `seen`. -/
def checkBlocks : List Nat → List Block → Except Defect Unit
  | _, [] => .ok ()
  | seen, b :: rest => do
    let serial ← checkSerial seen b
    b.code.forM (r.checkInstruction b)
    b.successors.toList.forM (r.checkSuccessor b)
    b.predecessors.toList.forM (r.checkPredecessor b)
    checkBlocks (serial :: seen) rest

/-- The least slot of a list. -/
def leastSlot? : List Slot → Option Slot
  | [] => none
  | s :: rest =>
    match leastSlot? rest with
    | some s' => some (if s'.precedes s then s' else s)
    | none => some s

/-- No path from the entry reads a slot before it writes it. -/
def checkSlots : Except Defect Unit :=
  match r.entry? with
  | none => .ok ()
  | some entry =>
    match leastSlot? (r.undefinedOnEntry entry) with
    | some slot => .error (.readBeforeWrite slot entry)
    | none => .ok ()

/-- The routine keeps all the rules. -/
def verify : Except Defect Unit := do
  if r.generated then .ok () else .error .notGenerated
  r.checkBlocks [] r.blocks
  r.checkSlots

end LoopTrace.Routine
