import LoopTrace.Trace.Basic

/-!
# Slots and operands

Generated code keeps its values in slots: abstract places, each of one kind, which a register allocator
maps to registers later. An operand is a slot, a constant, or a value that the trace never tracked, for
which any bit pattern will do.
-/

namespace LoopTrace

/-- A place for values of one kind. -/
structure Slot where
  kind : Kind
  /-- Its number, unique within one lowering. -/
  serial : Nat
  deriving DecidableEq, Repr, Inhabited

namespace Slot

/-- The slot as listings write it. -/
def text (s : Slot) : String := s.kind.letter ++ toString s.serial

/-- The order of slots: by kind, then by number. -/
def precedes (s s' : Slot) : Bool :=
  s.kind.index < s'.kind.index || (s.kind.index = s'.kind.index && s.serial < s'.serial)

end Slot

/-- What an instruction works on. -/
inductive Operand where
  | slot (s : Slot)
  | immediate (c : Constant)
  | undefined
  deriving DecidableEq, Repr, Inhabited

namespace Operand

/-- The slot of an operand that is one. -/
def slot? : Operand → Option Slot
  | .slot s => some s
  | _ => none

/-- The operand as listings write it. -/
def text : Operand → String
  | .slot s => s.text
  | .immediate c => c.text
  | .undefined => "undef"

/-- Operands as listings write them. -/
def texts (operands : List Operand) : String := ", ".intercalate (operands.map text)

end Operand

namespace Frame

/-- The frame as listings write it. -/
def text (frame : Frame Operand) : String :=
  frame.method.qualifiedName ++ "@" ++ toString frame.position ++ " locals[" ++ Operand.texts frame.locals ++
    "] stack[" ++ Operand.texts frame.stack ++ "]"

end Frame

end LoopTrace
