import LoopTrace.Trace.Recorder

/-!
# The sample trace

A counting loop, recorded as a trace: `while (i + 1 < 100) i = i + 1`.
-/

namespace LoopTrace.CommandLine

/-- The recording of the sample loop. -/
def sampleRecorder : Recorder :=
  let r : Recorder := { anchor := ⟨"Sample", "count", [.int], .void, .managed⟩, position := 2 }
  match r.declare .int with
  | none => r
  | some (i, r) =>
    let (one, r) := r.constant (.int 1)
    let (next, r) := r.operation .intAdd [i, one]
    let (limit, r) := r.constant (.int 100)
    let (_, r) := r.guard .int .lessThan next limit (some (r.frame 7 []))
    r.store i next

/-- The sample trace. -/
def sample : Except Trace.Malformed Trace := sampleRecorder.build

end LoopTrace.CommandLine
