import LoopTrace.Comparator
import LoopTrace.Constant
import LoopTrace.Operation
import LoopTrace.Signature

/-!
# Traces

A trace is the linear record of one hot loop. Everything it mentions is a value of one arena, and a
value is known by its place there. Two streams list the values whose code has to run: the prologue,
once before the loop, and the body, once in every iteration. Constants, locals and untracked values are
leaves: they may be used without standing in a stream.

The entry state lists the locals of the interpreter that live on entry to the loop, the tail state
what each of them holds when control loops back.
-/

namespace LoopTrace

/-- A value of a trace, known by its place in the arena. -/
structure ValueId where
  index : Nat
  deriving DecidableEq, Repr, Inhabited, Hashable

namespace ValueId

/-- The value as messages write it. -/
def text (id : ValueId) : String := "%" ++ toString id.index

end ValueId

/-- The interpreter's state at a point of the program: where to resume, and what the locals and the
operand stack hold there. -/
structure Frame (α : Type) where
  method : Signature
  /-- The bytecode position to resume at. -/
  position : Nat
  locals : List α
  stack : List α
  deriving DecidableEq, Repr, Inhabited

namespace Frame

variable {α β : Type}

/-- All contents, the locals before the stack. -/
def contents (frame : Frame α) : List α := frame.locals ++ frame.stack

/-- The frame with other contents in the same places. -/
def map (f : α → β) (frame : Frame α) : Frame β :=
  ⟨frame.method, frame.position, frame.locals.map f, frame.stack.map f⟩

@[simp] theorem contents_map (f : α → β) (frame : Frame α) :
    (frame.map f).contents = frame.contents.map f := by
  simp [contents, map]

end Frame

/-- How a loop treats a local that lives on entry. -/
structure LocalFlags where
  /-- Some instruction, or the tail of another local, reads the value on entry. -/
  read : Bool := false
  /-- The tail value is another one. -/
  written : Bool := false
  deriving DecidableEq, Repr, Inhabited

namespace Trace

/-- A value that a trace mentions. -/
inductive Value where
  | constant (c : Constant)
  /-- What an interpreter local holds on entry to the loop. -/
  | atEntry (number : Nat) (kind : Kind) (flags : LocalFlags)
  /-- A value that the recorder did not track. -/
  | untracked
  | operation (op : Operation) (operands : List ValueId)
  | call (method : Signature) (operands : List ValueId) (frame : Option (Frame ValueId))
  /-- A check that the trace relies on: `left` compares with `right`, or the trace is left. -/
  | guard (kind : Kind) (comparator : Comparator) (left right : ValueId) (frame : Option (Frame ValueId))
  /-- A call whose body is to be spliced into the trace. -/
  | inlinedCall (method : Signature) (operands : List ValueId)
  deriving DecidableEq, Repr, Inhabited

namespace Value

/-- The kind of the value; what produces nothing is void. -/
def kind : Value → Kind
  | .constant c => c.kind
  | .atEntry _ kind _ => kind
  | .untracked => .void
  | .operation op _ => op.result
  | .call method _ _ => method.result
  | .guard .. => .void
  | .inlinedCall method _ => method.result

/-- Leaves are defined outside the streams. -/
def isLeaf : Value → Bool
  | .constant _ | .atEntry .. | .untracked => true
  | _ => false

/-- The operands of an instruction. -/
def operands : Value → List ValueId
  | .operation _ operands | .call _ operands _ | .inlinedCall _ operands => operands
  | .guard _ _ left right _ => [left, right]
  | _ => []

/-- The interpreter's state that goes with an instruction. -/
def frame? : Value → Option (Frame ValueId)
  | .call _ _ frame | .guard _ _ _ _ frame => frame
  | _ => none

/-- The kinds that the operands must have; leaves have no operands. -/
def operandKinds? : Value → Option (List Kind)
  | .operation op _ => some op.operands
  | .call method _ _ | .inlinedCall method _ => some method.parameters
  | .guard kind _ _ _ _ => some [kind, kind]
  | _ => none

/-- Every value that an instruction reads, for itself or for its frame. -/
def uses (v : Value) : List ValueId := v.operands ++ (v.frame?.map Frame.contents).getD []

/-- The flags of a local. -/
def flags? : Value → Option LocalFlags
  | .atEntry _ _ flags => some flags
  | _ => none

end Value

end Trace

/-- The record of one hot loop. -/
structure Trace where
  /-- The method that holds the loop. -/
  anchor : Signature
  /-- The bytecode position of the loop's head. -/
  position : Nat
  /-- The arena. -/
  values : Array Trace.Value
  /-- The instructions that run once before the loop. -/
  prologue : List ValueId
  /-- The instructions of one iteration. -/
  body : List ValueId
  /-- The locals that live on entry to the loop. -/
  entry : List ValueId
  /-- What those locals hold when control loops back. -/
  tail : List ValueId
  deriving DecidableEq, Repr, Inhabited

namespace Trace

/-- The value at a place of the arena. -/
def get? (t : Trace) (id : ValueId) : Option Value := t.values[id.index]?

/-- Both streams, in the order in which they run. -/
def stream (t : Trace) : List ValueId := t.prologue ++ t.body

/-- The flags of a value, if it is a local. -/
def flags? (t : Trace) (id : ValueId) : Option LocalFlags := (t.get? id).bind Value.flags?

/-- The values that are the same in every iteration: the locals that the loop leaves alone, and all
that the prologue defines. -/
def invariants (t : Trace) : List ValueId :=
  ((t.entry.zip t.tail).filter fun (entry, tail) => entry = tail).map Prod.fst ++ t.prologue

/-- A local that takes another value when control loops back. -/
structure Write where
  /-- The place of the local in the entry state. -/
  place : Nat
  /-- The value that the local takes. -/
  source : ValueId
  /-- The local. -/
  destination : ValueId
  deriving DecidableEq, Repr

/-- The locals that have to be written when control loops back: those that are read on the trace and
hold another value at the tail. -/
def writes (t : Trace) : List Write :=
  ((t.entry.zip t.tail).zipIdx.filter fun ((entry, tail), _) =>
    entry ≠ tail && (t.flags? entry).any LocalFlags.read).map
    fun ((entry, tail), place) => ⟨place, tail, entry⟩

end Trace

end LoopTrace
