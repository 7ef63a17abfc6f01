import LoopTrace.Code.Block
import LoopTrace.Trace.Stored

/-!
# Stored code

The JSON form of slots, operands, instructions and blocks. Absent parts are `null`.
-/

namespace LoopTrace

namespace Convention

/-- The name of a calling convention. -/
def toJson (c : Convention) : Json := .string c.tag

/-- The calling convention that a name stands for. -/
def ofJson? : Json → Option Convention := Json.tagged? all tag

end Convention

namespace Stub

/-- The name of a stub. -/
def toJson (s : Stub) : Json := .string s.tag

/-- The stub that a name stands for. -/
def ofJson? : Json → Option Stub := Json.tagged? all tag

end Stub

namespace Role

/-- The name of a block's role. -/
def toJson (r : Role) : Json := .string r.tag

/-- The role that a name stands for. -/
def ofJson? : Json → Option Role := Json.tagged? all tag

end Role

namespace Slot

/-- A slot as a record. -/
def toJson (s : Slot) : Json := .object [("kind", s.kind.toJson), ("serial", .ofNat s.serial)]

/-- The slot that a record holds. -/
def ofJson? (j : Json) : Option Slot :=
  match j.record? ["kind", "serial"] with
  | some [some kind, some serial] => do return ⟨← Kind.ofJson? kind, ← serial.word?⟩
  | _ => none

end Slot

namespace BlockId

/-- A block's id as its number. -/
def toJson (id : BlockId) : Json := .ofNat id.index

/-- The id of a number of 32 bits. -/
def ofJson? (j : Json) : Option BlockId := j.word?.map BlockId.mk

end BlockId

namespace Operand

/-- An operand as a variant; the undefined one is without content. -/
def toJson : Operand → Json
  | .slot s => .variant "Slot" s.toJson
  | .immediate c => .variant "Immediate" c.toJson
  | .undefined => .string "Undefined"

/-- The operand that a variant holds. -/
def ofJson? (j : Json) : Option Operand :=
  match j.variant? with
  | some ("Slot", some j) => (Slot.ofJson? j).map .slot
  | some ("Immediate", some j) => (Constant.ofJson? j).map .immediate
  | some ("Undefined", none) | some ("Undefined", some .null) => some .undefined
  | _ => none

end Operand

namespace Callee

/-- A callee as a variant. -/
def toJson : Callee → Json
  | .method s => .variant "Method" s.toJson
  | .stub s => .variant "Runtime" s.toJson

/-- The callee that a variant holds. -/
def ofJson? (j : Json) : Option Callee :=
  match j.variant? with
  | some ("Method", some j) => (Signature.ofJson? j).map .method
  | some ("Runtime", some j) => (Stub.ofJson? j).map .stub
  | _ => none

end Callee

namespace Instruction

/-- Operands as a document. -/
def operandsToJson (operands : List Operand) : Json := .ofList Operand.toJson operands

/-- The operands that a document lists. -/
def operands? (j : Json) : Option (List Operand) := j.list? Operand.ofJson?

/-- A frame as a document. -/
def frameToJson (frame : Option (Frame Operand)) : Json := .ofOption (Frame.toJson Operand.toJson) frame

/-- The frame that an optional field holds. -/
def frame? (j : Option Json) : Option (Option (Frame Operand)) := Json.optional? (Frame.ofJson? Operand.ofJson?) j

/-- An instruction as a variant, its parts as a record. -/
def toJson : Instruction → Json
  | .assign destination source =>
    .variant "Assign" (.object [("destination", destination.toJson), ("source", source.toJson)])
  | .operate result op operands =>
    .variant "Builtin"
      (.object [("result", .ofOption Slot.toJson result), ("op", op.toJson), ("operands", operandsToJson operands)])
  | .call result callee convention arguments frame =>
    .variant "Call"
      (.object
        [("result", .ofOption Slot.toJson result), ("callee", callee.toJson), ("convention", convention.toJson),
          ("arguments", operandsToJson arguments), ("frame", frameToJson frame)])
  | .branch kind comparator tag candidates targets otherwise =>
    .variant "Switch"
      (.object
        [("kind", kind.toJson), ("comparator", comparator.toJson), ("tag", tag.toJson),
          ("matches", operandsToJson candidates), ("targets", .ofList BlockId.toJson targets),
          ("default", otherwise.toJson)])
  | .guardpoint frame => .variant "Guardpoint" (.object [("frame", frameToJson frame)])
  | .jump target => .variant "Goto" (.object [("target", .ofOption BlockId.toJson target)])
  | .leave value => .variant "Return" (.object [("value", value.toJson)])

/-- The copy that the content of a variant describes. -/
def assign? (j : Json) : Option Instruction :=
  match j.record? ["destination", "source"] with
  | some [some destination, some source] => do
    return .assign (← Slot.ofJson? destination) (← Operand.ofJson? source)
  | _ => none

/-- The operation that the content of a variant describes. -/
def operate? (j : Json) : Option Instruction :=
  match j.record? ["result", "op", "operands"] with
  | some [result, some op, some operands] => do
    return .operate (← Json.optional? Slot.ofJson? result) (← Operation.ofJson? op) (← operands? operands)
  | _ => none

/-- The call that the content of a variant describes. -/
def call? (j : Json) : Option Instruction :=
  match j.record? ["result", "callee", "convention", "arguments", "frame"] with
  | some [result, some callee, some convention, some arguments, frame] => do
    return .call (← Json.optional? Slot.ofJson? result) (← Callee.ofJson? callee)
      (← Convention.ofJson? convention) (← operands? arguments) (← frame? frame)
  | _ => none

/-- The branch that the content of a variant describes. -/
def branch? (j : Json) : Option Instruction :=
  match j.record? ["kind", "comparator", "tag", "matches", "targets", "default"] with
  | some [some kind, some comparator, some tag, some candidates, some targets, some otherwise] => do
    return .branch (← Kind.ofJson? kind) (← Comparator.ofJson? comparator) (← Operand.ofJson? tag)
      (← operands? candidates) (← targets.list? BlockId.ofJson?) (← BlockId.ofJson? otherwise)
  | _ => none

/-- The mark that the content of a variant describes. -/
def guardpoint? (j : Json) : Option Instruction :=
  match j.record? ["frame"] with
  | some [frame] => (frame? frame).map .guardpoint
  | _ => none

/-- The jump that the content of a variant describes. -/
def jump? (j : Json) : Option Instruction :=
  match j.record? ["target"] with
  | some [target] => (Json.optional? BlockId.ofJson? target).map .jump
  | _ => none

/-- The exit that the content of a variant describes. -/
def leave? (j : Json) : Option Instruction :=
  match j.record? ["value"] with
  | some [some value] => (Operand.ofJson? value).map .leave
  | _ => none

/-- The instruction that a variant holds. -/
def ofJson? (j : Json) : Option Instruction :=
  match j.variant? with
  | some ("Assign", some j) => assign? j
  | some ("Builtin", some j) => operate? j
  | some ("Call", some j) => call? j
  | some ("Switch", some j) => branch? j
  | some ("Guardpoint", some j) => guardpoint? j
  | some ("Goto", some j) => jump? j
  | some ("Return", some j) => leave? j
  | _ => none

end Instruction

namespace BlockSet

/-- A set of blocks as the list of its members, in the order in which they came. -/
def toJson (s : BlockSet) : Json := .ofList BlockId.toJson s.toList

/-- The set of the blocks that a document lists, each counted once. -/
def ofJson? (j : Json) : Option BlockSet := (j.list? BlockId.ofJson?).map ofList

end BlockSet

namespace Block

/-- A block as a record. -/
def toJson (b : Block) : Json :=
  .object
    [("id", b.id.toJson), ("role", b.role.toJson), ("serial", .ofOption Json.ofNat b.serial),
      ("instructions", .ofList Instruction.toJson b.code), ("predecessors", b.predecessors.toJson),
      ("successors", b.successors.toJson)]

/-- The block that a record holds. -/
def ofJson? (j : Json) : Option Block :=
  match j.record? ["id", "role", "serial", "instructions", "predecessors", "successors"] with
  | some [some id, some role, serial, some code, some predecessors, some successors] => do
    return ⟨← BlockId.ofJson? id, ← Role.ofJson? role, ← Json.optional? Json.word? serial,
      ← code.list? Instruction.ofJson?, ← BlockSet.ofJson? predecessors, ← BlockSet.ofJson? successors⟩
  | _ => none

end Block

end LoopTrace
