import LoopTrace.Lowering.Walk

/-!
# Lowering sessions

A session lowers one trace. It opens with a pool of its own, from which the slot for the tags of failing
guards has been taken. Malformed traces are turned away and leave no mark; the first well-formed one is
walked from where the session stands, and whatever comes of it, the session takes no other. The routine can
be had once it is there, as often as one likes.
-/

namespace LoopTrace

namespace Session

/-- The slot for the tags of failing guards and the pool that it comes from, before any trace is
seen. -/
def opening (settings : Settings) : Slot × Pool :=
  Pool.allocate ⟨settings.reuse, 0, [], [], []⟩ .reference .exclusive

/-- What happens when a session is opened. -/
def openingEvents (settings : Settings) : List Event := [.minted (opening settings).1]

/-- What a session with some settings works on. -/
structure State (settings : Settings) where
  /-- The slot that receives the tag of a guard that fails. -/
  tagSlot : Slot
  /-- Where the walk stands, with the pool and with the code of the blocks that it has. -/
  walk : Walk
  /-- The routine, once it is there. -/
  routine? : Option Routine

/-- No trace has been accepted yet. -/
def State.waiting {settings : Settings} : State settings :=
  let (tagSlot, pool) := opening settings
  ⟨tagSlot, { pool }, none⟩

end Session

/-- The lowering of one trace. -/
structure Session where
  settings : Settings
  state : Session.State settings := .waiting

namespace Session

/-- How far the session has come. -/
def phase (s : Session) : Phase := s.state.walk.phase

/-- The walk over a trace, from where the session stands. -/
def walk (s : Session) (t : Trace) : Except Fault Routine × Walk :=
  let job : Job := ⟨t, s.settings, t.invariants, s.state.tagSlot⟩
  job.lower.run.run { s.state.walk with journal := #[] }

/-- Hands a trace to the session. The second component is the session afterwards, the third what
happened. -/
def lower (s : Session) (t : Trace) : Except Fault Unit × Session × List Event :=
  if s.phase = .start then
    match t.check with
    | .error e => (.error (.invalidTrace e), s, [])
    | .ok () =>
      let (result, walk) := s.walk t
      let state := { s.state with walk, routine? := result.toOption }
      (result.map fun _ => (), { s with state }, walk.journal.toList)
  else (.error (.breach (.secondTrace s.phase)), s, [])

/-- The routine of the session, if it is there. -/
def routine (s : Session) : Except Fault Routine :=
  match s.phase, s.state.routine? with
  | .finished, some r => .ok r
  | phase, _ => .error (.breach (.noRoutine phase))

end Session

namespace Trace

/-- Lowers a trace in a session of its own; the second component is what happened. -/
def lowerTraced (t : Trace) (settings : Settings) : Except Fault Routine × List Event :=
  let s : Session := ⟨settings, .waiting⟩
  match s.lower t with
  | (.ok (), s, events) => (s.routine, Session.openingEvents settings ++ events)
  | (.error e, _, events) => (.error e, Session.openingEvents settings ++ events)

/-- Lowers a trace. -/
def lower (t : Trace) (settings : Settings) : Except Fault Routine := (t.lowerTraced settings).1

end Trace

end LoopTrace
