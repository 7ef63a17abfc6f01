import LoopTrace.Trace.Recorder

/-!
# Scripts for a recorder

The calls of a recorder, as data, so that recordings by any calls can be spoken of. Calls may stand
inside a prologue block, and such blocks may stand inside each other. A script that declares more locals
than there are numbers for has no run.
-/

namespace LoopTrace.Recorder

/-- A call of a recorder. -/
inductive Call where
  | declare (kind : Kind)
  | constant (c : Constant)
  | untracked
  | operation (op : Operation) (operands : List ValueId)
  | call (method : Signature) (operands : List ValueId) (frame : Option (Frame ValueId))
  | guard (kind : Kind) (comparator : Comparator) (left right : ValueId) (frame : Option (Frame ValueId))
  | inlinedCall (method : Signature) (operands : List ValueId)
  | store (destination value : ValueId)
  | current (destination : ValueId)
  | frame (position : Nat) (stack : List ValueId)
  deriving DecidableEq, Repr

/-- What a recorder answers to a call. -/
inductive Reply where
  /-- The value that was added. -/
  | value (id : ValueId)
  | nothing
  | holds (value : Option ValueId)
  | state (frame : Frame ValueId)
  deriving DecidableEq, Repr

/-- The answer to a call, and the recorder after it. There is none if a local gets no number. -/
def answer (r : Recorder) : Call → Option (Reply × Recorder)
  | .declare kind => (r.declare kind).map (Prod.map .value id)
  | .constant c => some ((r.constant c).map .value id)
  | .untracked => some (r.untracked.map .value id)
  | .operation op operands => some ((r.operation op operands).map .value id)
  | .call method operands frame => some ((r.call method operands frame).map .value id)
  | .guard kind comparator left right frame =>
    some ((r.guard kind comparator left right frame).map .value id)
  | .inlinedCall method operands => some ((r.inlinedCall method operands).map .value id)
  | .store destination value => some (.nothing, r.store destination value)
  | .current destination => some (.holds (r.current? destination), r)
  | .frame position stack => some (.state (r.frame position stack), r)

/-- Calls one after another, some of them inside prologue blocks. -/
inductive Script where
  | done
  | step (call : Call) (rest : Script)
  | within (inner rest : Script)
  deriving DecidableEq, Repr

/-- A call that was made, with its answer. -/
structure Entry where
  /-- Whether the call stood inside a prologue block. -/
  within : Bool
  call : Call
  reply : Reply
  deriving DecidableEq, Repr

/-- The calls of a script with their answers, and the recorder after them. `within` tells whether the
script itself stands inside a prologue block. -/
def run (within : Bool) (r : Recorder) : Script → Option (List Entry × Recorder)
  | .done => some ([], r)
  | .step call rest => do
    let (reply, r) ← r.answer call
    let (entries, r) ← run within r rest
    return (⟨within, call, reply⟩ :: entries, r)
  | .within inner rest => do
    let (inside, r) := r.withinPrologue fun r =>
      match run true r inner with
      | some (inside, r) => (some inside, r)
      | none => (none, r)
    let inside ← inside
    let (entries, r) ← run within r rest
    return (inside ++ entries, r)

/-- How many interpreter locals a call declares. -/
def Call.slots : Call → Nat
  | .declare kind => kind.width
  | _ => 0

/-- How many interpreter locals a script declares. -/
def Script.slots : Script → Nat
  | .done => 0
  | .step call rest => call.slots + rest.slots
  | .within inner rest => inner.slots + rest.slots

end LoopTrace.Recorder
