import LoopTrace.Json.Decode
import LoopTrace.Trace.Basic

/-!
# Stored traces

The JSON form of traces. Kinds, comparators, operations and ways of entering a method are their names;
a value is a variant named for what it is. Numbers have the widths that the recorder gives them: 32 bits
for ids and positions, 16 for the numbers of locals.
-/

namespace LoopTrace

namespace Kind

/-- The name of a kind. -/
def toJson (k : Kind) : Json := .string k.tag

/-- The kind that a name stands for. -/
def ofJson? : Json → Option Kind := Json.tagged? all tag

end Kind

namespace Comparator

/-- The name of a comparator. -/
def toJson (c : Comparator) : Json := .string c.tag

/-- The comparator that a name stands for. -/
def ofJson? : Json → Option Comparator := Json.tagged? all tag

end Comparator

namespace Operation

/-- The name of an operation. -/
def toJson (op : Operation) : Json := .string op.tag

/-- The operation that a name stands for. -/
def ofJson? : Json → Option Operation := Json.tagged? all tag

end Operation

namespace Entry

/-- The name of a way to enter a method. -/
def toJson (e : Entry) : Json := .string e.tag

/-- The way to enter a method that a name stands for. -/
def ofJson? : Json → Option Entry := Json.tagged? all tag

end Entry

namespace Constant

/-- A constant as a variant; `null` is the one without content. -/
def toJson : Constant → Json
  | .int n => .variant "Int" (.number (.integer n.toInt))
  | .long n => .variant "Long" (.number (.integer n.toInt))
  | .float x => .variant "Float" (.ofSingle x)
  | .double x => .variant "Double" (.ofDouble x)
  | .null => .string "Null"
  | .object handle => .variant "Object" (.ofNat handle.toNat)
  | .guardSite site => .variant "GuardSite" (.ofNat site)

/-- The constant that a document holds. Integers have to fit their widths. -/
def ofJson? (j : Json) : Option Constant :=
  match j.variant? with
  | some ("Int", some j) => (j.integer? Int32.minValue.toInt Int32.maxValue.toInt).map fun n => .int (Int32.ofInt n)
  | some ("Long", some j) => (j.integer? Int64.minValue.toInt Int64.maxValue.toInt).map fun n => .long (Int64.ofInt n)
  | some ("Float", some j) => j.single?.map .float
  | some ("Double", some j) => j.double?.map .double
  | some ("Null", none) | some ("Null", some .null) => some .null
  | some ("Object", some j) => (j.natBelow? UInt64.size).map fun n => .object (UInt64.ofNat n)
  | some ("GuardSite", some j) => j.word?.map .guardSite
  | _ => none

end Constant

namespace Signature

/-- A signature as a record. -/
def toJson (s : Signature) : Json :=
  .object
    [("holder", .string s.holder), ("name", .string s.name), ("params", .ofList Kind.toJson s.parameters),
      ("result", s.result.toJson), ("kind", s.entry.toJson)]

/-- The signature that a record holds. -/
def ofJson? (j : Json) : Option Signature :=
  match j.record? ["holder", "name", "params", "result", "kind"] with
  | some [some holder, some name, some parameters, some result, some entry] => do
    return ⟨← holder.string?, ← name.string?, ← parameters.list? Kind.ofJson?, ← Kind.ofJson? result,
      ← Entry.ofJson? entry⟩
  | _ => none

end Signature

namespace ValueId

/-- An id as its number. -/
def toJson (id : ValueId) : Json := .ofNat id.index

/-- The id of a number of 32 bits. -/
def ofJson? (j : Json) : Option ValueId := j.word?.map ValueId.mk

end ValueId

namespace Frame

variable {α : Type}

/-- A frame as a record, its contents written by `write`. -/
def toJson (write : α → Json) (frame : Frame α) : Json :=
  .object
    [("method", frame.method.toJson), ("bytecode_position", .ofNat frame.position),
      ("locals", .ofList write frame.locals), ("stack", .ofList write frame.stack)]

/-- The frame that a record holds, its contents read by `read`. -/
def ofJson? (read : Json → Option α) (j : Json) : Option (Frame α) :=
  match j.record? ["method", "bytecode_position", "locals", "stack"] with
  | some [some method, some position, some locals, some stack] => do
    return ⟨← Signature.ofJson? method, ← position.word?, ← locals.list? read, ← stack.list? read⟩
  | _ => none

end Frame

namespace LocalFlags

/-- The flags of a local as a record. -/
def toJson (flags : LocalFlags) : Json :=
  .object [("read", .bool flags.read), ("written", .bool flags.written)]

/-- The flags that a record holds. -/
def ofJson? (j : Json) : Option LocalFlags :=
  match j.record? ["read", "written"] with
  | some [some read, some written] => do return ⟨← read.bool?, ← written.bool?⟩
  | _ => none

end LocalFlags

namespace Trace

/-- The operands of an instruction as a document. -/
def idsToJson (ids : List ValueId) : Json := .ofList ValueId.toJson ids

/-- The ids that a document lists. -/
def ids? (j : Json) : Option (List ValueId) := j.list? ValueId.ofJson?

/-- The frame of an instruction as a document. -/
def frameToJson (frame : Option (Frame ValueId)) : Json := .ofOption (Frame.toJson ValueId.toJson) frame

/-- The frame that an optional field holds. -/
def frame? (j : Option Json) : Option (Option (Frame ValueId)) :=
  Json.optional? (Frame.ofJson? ValueId.ofJson?) j

namespace Value

/-- A value of the arena as a variant; the untracked value is the one without content. -/
def toJson : Value → Json
  | .constant c => .variant "Constant" c.toJson
  | .atEntry number kind flags =>
    .variant "Local" (.object [("slot", .ofNat number), ("kind", kind.toJson), ("flags", flags.toJson)])
  | .untracked => .string "Placeholder"
  | .operation op operands =>
    .variant "Builtin" (.object [("op", op.toJson), ("operands", idsToJson operands)])
  | .call method operands frame =>
    .variant "Call"
      (.object [("method", method.toJson), ("operands", idsToJson operands), ("state", frameToJson frame)])
  | .guard kind comparator left right frame =>
    .variant "Guard"
      (.object
        [("kind", kind.toJson), ("comparator", comparator.toJson), ("operands", idsToJson [left, right]),
          ("state", frameToJson frame)])
  | .inlinedCall method operands =>
    .variant "InlinedCall" (.object [("method", method.toJson), ("operands", idsToJson operands)])

/-- The local that the content of a variant describes. -/
def local? (j : Json) : Option Value :=
  match j.record? ["slot", "kind", "flags"] with
  | some [some number, some kind, some flags] => do
    return .atEntry (← number.natBelow? UInt16.size) (← Kind.ofJson? kind) (← LocalFlags.ofJson? flags)
  | _ => none

/-- The operation that the content of a variant describes. -/
def operation? (j : Json) : Option Value :=
  match j.record? ["op", "operands"] with
  | some [some op, some operands] => do return .operation (← Operation.ofJson? op) (← ids? operands)
  | _ => none

/-- The call that the content of a variant describes. -/
def call? (j : Json) : Option Value :=
  match j.record? ["method", "operands", "state"] with
  | some [some method, some operands, frame] => do
    return .call (← Signature.ofJson? method) (← ids? operands) (← Trace.frame? frame)
  | _ => none

/-- The guard that the content of a variant describes. -/
def guard? (j : Json) : Option Value :=
  match j.record? ["kind", "comparator", "operands", "state"] with
  | some [some kind, some comparator, some operands, frame] => do
    let (left, right) ← operands.pair? ValueId.ofJson?
    return .guard (← Kind.ofJson? kind) (← Comparator.ofJson? comparator) left right (← Trace.frame? frame)
  | _ => none

/-- The call to be spliced in that the content of a variant describes. -/
def inlinedCall? (j : Json) : Option Value :=
  match j.record? ["method", "operands"] with
  | some [some method, some operands] => do
    return .inlinedCall (← Signature.ofJson? method) (← ids? operands)
  | _ => none

/-- The value of the arena that a variant holds. -/
def ofJson? (j : Json) : Option Value :=
  match j.variant? with
  | some ("Constant", some j) => (Constant.ofJson? j).map .constant
  | some ("Local", some j) => local? j
  | some ("Placeholder", none) | some ("Placeholder", some .null) => some .untracked
  | some ("Builtin", some j) => operation? j
  | some ("Call", some j) => call? j
  | some ("Guard", some j) => guard? j
  | some ("InlinedCall", some j) => inlinedCall? j
  | _ => none

end Value

/-- A trace as a record. -/
def toJson (t : Trace) : Json :=
  .object
    [("anchor", t.anchor.toJson), ("anchor_position", .ofNat t.position),
      ("values", .ofList Value.toJson t.values.toList), ("prologue", idsToJson t.prologue),
      ("body", idsToJson t.body), ("entry_state", idsToJson t.entry), ("tail_state", idsToJson t.tail)]

/-- The trace that a record holds. It need not be well formed. -/
def ofJson? (j : Json) : Option Trace :=
  match j.record?
    ["anchor", "anchor_position", "values", "prologue", "body", "entry_state", "tail_state"] with
  | some [some anchor, some position, some values, some prologue, some body, some entry, some tail] => do
    return ⟨← Signature.ofJson? anchor, ← position.word?, (← values.list? Value.ofJson?).toArray,
      ← ids? prologue, ← ids? body, ← ids? entry, ← ids? tail⟩
  | _ => none

end Trace

end LoopTrace
