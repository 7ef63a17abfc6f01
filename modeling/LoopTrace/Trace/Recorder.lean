import LoopTrace.Trace.Validity
import Std.Data.HashSet

/-!
# Recording traces

A recorder follows the interpreter around one loop. It numbers the locals that live on entry, keeps
what each of them holds at the moment, and adds every instruction to the stream that is being recorded.
When the recording ends, what the locals hold becomes the tail state, their flags are worked out, and
the trace is checked.
-/

namespace LoopTrace

/-- A trace that is being recorded. -/
structure Recorder where
  /-- The method that holds the loop. -/
  anchor : Signature
  /-- The bytecode position of the loop's head. -/
  position : Nat
  values : Array Trace.Value := #[]
  prologue : Array ValueId := #[]
  body : Array ValueId := #[]
  /-- The locals that live on entry. -/
  entry : Array ValueId := #[]
  /-- What each of them holds now. -/
  current : Array ValueId := #[]
  /-- The number of the next local. -/
  nextLocal : Nat := 0
  /-- Whether instructions go to the prologue. -/
  inPrologue : Bool := false
  deriving Repr, Inhabited

namespace Recorder

/-- The largest number that the interpreter's count of locals can reach. -/
def localLimit : Nat := 65535

/-- Adds a value to the arena. -/
def push (r : Recorder) (v : Trace.Value) : ValueId × Recorder :=
  (⟨r.values.size⟩, { r with values := r.values.push v })

/-- Adds an instruction to the arena and to the stream that is being recorded. -/
def record (r : Recorder) (v : Trace.Value) : ValueId × Recorder :=
  let (id, r) := r.push v
  if r.inPrologue then (id, { r with prologue := r.prologue.push id })
  else (id, { r with body := r.body.push id })

/-- Declares the next local that lives on entry. There is none once the count of locals would pass its
limit. -/
def declare (r : Recorder) (kind : Kind) : Option (ValueId × Recorder) :=
  let number := r.nextLocal
  let next := number + kind.width
  if next ≤ localLimit then
    let id : ValueId := ⟨r.values.size⟩
    some (id, { r with
      values := r.values.push (.atEntry number kind {})
      entry := r.entry.push id
      current := r.current.push id
      nextLocal := next })
  else none

/-- Declares a number of locals of one kind and gives the last of them. -/
def declareMany (kind : Kind) : Nat → Option ValueId → Recorder → Option (Option ValueId × Recorder)
  | 0, last, r => some (last, r)
  | count + 1, _, r => (r.declare kind).bind fun (id, r) => declareMany kind count (some id) r

/-- Adds a constant. -/
def constant (r : Recorder) (c : Constant) : ValueId × Recorder := r.push (.constant c)

/-- Adds a value that is not tracked. -/
def untracked (r : Recorder) : ValueId × Recorder := r.push .untracked

/-- Records an operation. -/
def operation (r : Recorder) (op : Operation) (operands : List ValueId) : ValueId × Recorder :=
  r.record (.operation op operands)

/-- Records a call. -/
def call (r : Recorder) (method : Signature) (operands : List ValueId) (frame : Option (Frame ValueId)) :
    ValueId × Recorder :=
  r.record (.call method operands frame)

/-- Records a guard. -/
def guard (r : Recorder) (kind : Kind) (comparator : Comparator) (left right : ValueId)
    (frame : Option (Frame ValueId)) : ValueId × Recorder :=
  r.record (.guard kind comparator left right frame)

/-- Records a call whose body is to be spliced in. -/
def inlinedCall (r : Recorder) (method : Signature) (operands : List ValueId) : ValueId × Recorder :=
  r.record (.inlinedCall method operands)

/-- Lets a local hold a value from now on. What is no local that lives on entry is left alone. -/
def store (r : Recorder) (destination value : ValueId) : Recorder :=
  match r.entry.idxOf? destination with
  | some place => { r with current := r.current.setIfInBounds place value }
  | none => r

/-- What a local holds now. -/
def current? (r : Recorder) (destination : ValueId) : Option ValueId :=
  (r.entry.idxOf? destination).bind fun place => r.current[place]?

/-- The interpreter's state at a position of the anchor, with the given operand stack. -/
def frame (r : Recorder) (position : Nat) (stack : List ValueId) : Frame ValueId :=
  ⟨r.anchor, position, r.current.toList, stack⟩

/-- Runs a step whose instructions go to the prologue. -/
def withinPrologue {α : Type} (r : Recorder) (step : Recorder → α × Recorder) : α × Recorder :=
  let (a, r') := step { r with inPrologue := true }
  (a, { r' with inPrologue := r.inPrologue })

/-- The values that the instructions recorded so far read, for themselves or for their frames. -/
def uses (r : Recorder) : List ValueId :=
  (r.prologue.toList ++ r.body.toList).flatMap fun id => (r.values[id.index]?.map Trace.Value.uses).getD []

/-- The values that locals take from elsewhere when control loops back. -/
def carried (r : Recorder) : List ValueId :=
  ((r.entry.zip r.current).toList.filter fun (entry, tail) => entry ≠ tail).map Prod.snd

/-- The value with the flags that the recording gives it. A local is read if an instruction reads it or
another local takes its value, and written if it holds another value at the end. -/
def withFlags (read : Std.HashSet ValueId) (values : Array Trace.Value) (state : ValueId × ValueId) :
    Array Trace.Value :=
  let (entry, tail) := state
  values.modify entry.index fun
    | .atEntry number kind _ => .atEntry number kind ⟨read.contains entry, tail ≠ entry⟩
    | v => v

/-- The recording as a trace, unchecked. -/
def trace (r : Recorder) : Trace :=
  let read := Std.HashSet.ofList (r.uses ++ r.carried)
  { anchor := r.anchor
    position := r.position
    values := (r.entry.zip r.current).foldl (withFlags read) r.values
    prologue := r.prologue.toList
    body := r.body.toList
    entry := r.entry.toList
    tail := r.current.toList }

/-- Ends the recording. -/
def build (r : Recorder) : Except Trace.Malformed Trace :=
  let t := r.trace
  match t.check with
  | .ok () => .ok t
  | .error e => .error e

end Recorder

end LoopTrace
