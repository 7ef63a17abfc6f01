import LoopTrace.Code.Block

/-!
# Guards and the bailout

A guard becomes a branch that is taken when its comparison does not hold. The path that leaves the trace
first stores the guard's tag in the bailout slot; all guards of a trace leave to one bailout block, which
saves the registers, hands the tag to the runtime and returns it.
-/

namespace LoopTrace

/-- A guard whose operands have been found. -/
structure GuardExit where
  /-- The guard. -/
  site : ValueId
  kind : Kind
  /-- The comparison that has to hold for the trace to go on. -/
  comparator : Comparator
  left : Operand
  right : Operand
  frame : Option (Frame Operand)
  deriving DecidableEq, Repr

namespace GuardExit

/-- The tag that tells the runtime which guard failed. -/
def tag (g : GuardExit) : Constant := .guardSite g.site.index

/-- The code of the guard. -/
def code (g : GuardExit) (tagSlot : Slot) (bailout continuation : BlockId) : List Instruction :=
  [.assign tagSlot (.immediate g.tag), .guardpoint g.frame,
    .branch g.kind g.comparator.complement g.left [g.right] [bailout] continuation]

end GuardExit

namespace Abi

/-- A call of the runtime. -/
def callStub (abi : Abi) (stub : Stub) (arguments : List Operand) : Instruction :=
  .call none (.stub stub) (abi.ofStub stub) arguments none

/-- The code of the bailout block. -/
def bailoutCode (abi : Abi) (tagSlot : Slot) : List Instruction :=
  [abi.callStub .saveRegisters [], abi.callStub .bailout [.slot tagSlot], .leave (.slot tagSlot)]

end Abi

end LoopTrace
