import LoopTrace.Lowering.Session

/-!
# Calls of a session

The calls that can be made of a session, as data, so that runs of any calls can be spoken of. A trace
that is turned away, and one whose lowering fails, is part of a run: the session goes on in the state in
which that left it.
-/

namespace LoopTrace.Session

/-- A call of a session. -/
inductive Call where
  | lower (t : Trace)
  | routine

/-- A trace that was handed to a session: what came of it, and how far the session was then. -/
structure Attempt where
  trace : Trace
  outcome : Except Fault Unit
  phase : Phase

/-- What a session answers to a call. -/
inductive Reply where
  | attempted (a : Attempt)
  | gave (result : Except Fault Routine)

/-- The attempt that a reply tells of. -/
def Reply.attempt? : Reply → Option Attempt
  | .attempted a => some a
  | .gave _ => none

/-- The answer to a call, and the session after it. -/
def answer (s : Session) : Call → Reply × Session
  | .lower t =>
    let (outcome, s, _) := s.lower t
    (.attempted ⟨t, outcome, s.phase⟩, s)
  | .routine => (.gave s.routine, s)

/-- The answers to calls one after another, and the session after them. -/
def run (s : Session) : List Call → List Reply × Session
  | [] => ([], s)
  | call :: rest =>
    let (reply, s) := s.answer call
    let (replies, s) := s.run rest
    (reply :: replies, s)

end LoopTrace.Session
