import LoopTrace.Flow.Assembly
import LoopTrace.Flow.Verify
import LoopTrace.Pool.Basic
import LoopTrace.Trace.Validity

/-!
# Faults

Why no routine comes out of a lowering: the trace is malformed, it asks for something that cannot be
lowered yet, or an invariant of the lowering does not hold.
-/

namespace LoopTrace

/-- How far a lowering has come. -/
inductive Phase where
  /-- No trace has been accepted. -/
  | start
  /-- The loop is being lowered. -/
  | body
  /-- The jump back is being pointed at the first block of the loop. -/
  | loopBack
  /-- The prologue is being lowered, or the routine finished. -/
  | prologue
  /-- The routine is there. -/
  | finished
  deriving DecidableEq, Repr, Inhabited

/-- The phase as messages write it. -/
def Phase.text : Phase → String
  | .start => "Start"
  | .body => "TraceBody"
  | .loopBack => "LoopBack"
  | .prologue => "Prologue"
  | .finished => "Finalized"

/-- Something that cannot be lowered yet. -/
inductive Unsupported where
  /-- A call whose body is to be spliced in. -/
  | inlining (method : Signature)
  /-- A guard before the loop. -/
  | prologueGuard (site : ValueId)
  deriving DecidableEq, Repr

/-- What cannot be lowered, in words. -/
def Unsupported.message : Unsupported → String
  | .inlining method => "inlining " ++ method.qualifiedName ++ " into a trace"
  | .prologueGuard site => "guard " ++ site.text ++ " in a trace prologue"

/-- An invariant of the lowering that does not hold. -/
inductive Breach where
  | pool (why : Pool.Misuse)
  /-- A call of an assembly was refused. It is the fault of those who put blocks together by hand: no call
  that is made for a trace is refused. -/
  | assembly (why : Assembly.Misuse)
  | routine (why : Routine.Defect)
  /-- Something that produces no value is to have a slot. -/
  | noValue (value : ValueId)
  /-- A local is to be a constant, or no value at all. -/
  | noSlot (value : ValueId)
  /-- The entry state holds something else than a local. -/
  | entryNotLocal (value : ValueId)
  /-- A second trace is handed to one lowering. -/
  | secondTrace (phase : Phase)
  /-- The routine is asked for before it is there. -/
  | noRoutine (phase : Phase)
  deriving DecidableEq, Repr

/-- The broken invariant in words. -/
def Breach.message : Breach → String
  | .pool why => why.message
  | .assembly why => why.message
  | .routine why => why.message
  | .noValue value => value.text ++ " produces no value"
  | .noSlot value => "local " ++ value.text ++ " has no slot"
  | .entryNotLocal value => "entry state holds " ++ value.text ++ " instead of a local"
  | .secondTrace phase =>
    "lowering context is in phase " ++ phase.text ++ "; a context lowers one trace"
  | .noRoutine phase => "generated method accessed in phase " ++ phase.text ++ ", before finalization"

/-- Why no routine comes out. -/
inductive Fault where
  | invalidTrace (why : Trace.Malformed)
  | unsupported (what : Unsupported)
  | breach (why : Breach)
  deriving DecidableEq, Repr

/-- The fault in words. -/
def Fault.message : Fault → String
  | .invalidTrace why => "Invalid trace: " ++ why.message
  | .unsupported what => "Not yet supported: " ++ what.message
  | .breach why => "Invariant violation: " ++ why.message

end LoopTrace
