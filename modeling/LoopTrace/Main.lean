import LoopTrace.CommandLine.Run

/-!
# The program

Reads the file that the command needs, runs the command, and writes what it puts out.
-/

namespace LoopTrace.CommandLine

/-- The text of a file, if it can be read. -/
def readFile? (path : String) : IO (Option String) := do
  try return some (← IO.FS.readFile path) catch _ => return none

/-- The one file that a command may read; it may write anywhere. -/
def readFiles : Command → IO Files
  | .lower input _ _ _ => do
    let text ← readFile? input
    return { read? := fun path => if path = input then text else none }
  | _ => return { read? := fun _ => none }

/-- Writes a failure and gives the exit code for it. -/
def fail (why : Failure) : IO UInt32 := do
  IO.eprintln ("error: " ++ why.message)
  return 1

/-- Runs the command that a command line asks for, and gives the exit code. -/
def execute (arguments : List String) : IO UInt32 := do
  let some invocation := invocation? arguments
    | IO.eprintln "usage: hotpath [-v] lower FILE [--no-slot-reuse] [--no-verify] [--dot] | sample [-o OUTPUT] | version"
      return 2
  let report := run (← readFiles invocation.command) invocation
  match report.written with
  | some (path, text) =>
    try IO.FS.writeFile path text catch _ => return ← fail (.cannotWrite path)
  | none => pure ()
  IO.print report.output
  match report.failure with
  | some why => fail why
  | none => return 0

end LoopTrace.CommandLine

/-- Runs the command line. -/
def main (arguments : List String) : IO UInt32 := LoopTrace.CommandLine.execute arguments
