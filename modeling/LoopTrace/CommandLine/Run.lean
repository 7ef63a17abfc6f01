import LoopTrace.CommandLine.Arguments
import LoopTrace.CommandLine.Files
import LoopTrace.CommandLine.Sample
import LoopTrace.Flow.Graph
import LoopTrace.Json.Reader
import LoopTrace.Json.Writer
import LoopTrace.Lowering.Session
import LoopTrace.Trace.Stored

/-!
# Running commands

What a command prints and writes, given the files that it can see. What is printed before a command
fails stays printed.
-/

namespace LoopTrace.CommandLine

/-- Why a command fails. -/
inductive Failure where
  | cannotRead (path : String)
  | cannotParse (path : String)
  | cannotWrite (path : String)
  | malformed (why : Trace.Malformed)
  | fault (why : Fault)
  deriving DecidableEq, Repr

/-- The failure in words. -/
def Failure.message : Failure → String
  | .cannotRead path => "Failed to read " ++ path
  | .cannotParse path => "Failed to parse " ++ path
  | .cannotWrite path => "Failed to write " ++ path
  | .malformed why => why.message
  | .fault why => why.message

/-- What comes of a command. -/
structure Report where
  /-- What it prints. -/
  output : String := ""
  /-- The file it writes. -/
  written : Option (String × String) := none
  /-- Why it fails, if it does. -/
  failure : Option Failure := none
  deriving DecidableEq, Repr, Inhabited

/-- A command that has printed something and goes on, or fails. -/
abbrev Printing := ExceptT Failure (StateM String)

namespace Printing

/-- Prints a text. -/
def print (s : String) : Printing Unit := modify (· ++ s)

/-- Prints a line of information, if that is wanted. -/
def inform (verbose : Bool) (s : String) : Printing Unit :=
  if verbose then print ("info: " ++ s ++ "\n") else pure ()

/-- The report of a command. -/
def report (p : Printing (Option (String × String))) : Report :=
  match p.run.run "" with
  | (.ok written, output) => ⟨output, written, none⟩
  | (.error failure, output) => ⟨output, none, some failure⟩

end Printing

open Printing

/-- Reads and checks the trace in a file. -/
def load (files : Files) (verbose : Bool) (path : String) : Printing Trace := do
  inform verbose ("Reading " ++ path)
  let some text := files.read? path | throw (.cannotRead path)
  let some t := (Json.parse? text).bind Trace.ofJson? | throw (.cannotParse path)
  match t.check with
  | .error e => throw (.malformed e)
  | .ok () =>
    inform verbose
      ("Trace at " ++ t.anchor.qualifiedName ++ "@" ++ toString t.position ++ ": " ++ toString t.values.size ++
        " values, " ++ toString t.entry.length ++ " entry locals")
    return t

/-- Lowers the trace in a file and prints the routine. -/
def runLower (files : Files) (verbose : Bool) (path : String) (reuse verify dot : Bool) : Printing Unit := do
  let t ← load files verbose path
  match t.lower { reuse, verify, dump := verbose } with
  | .error e => throw (.fault e)
  | .ok r =>
    inform verbose (toString r.blocks.length ++ " blocks, " ++ toString r.slotCount ++ " slots")
    print (if dot then r.graph.dot ++ "\n" else r.listing)

/-- Prints the sample trace, or gives it as the file to be written. -/
def runSample (files : Files) (verbose : Bool) : Option String → Printing (Option (String × String))
  | output => do
    match sample with
    | .error e => throw (.malformed e)
    | .ok t =>
      let text := t.toJson.pretty
      match output with
      | none =>
        print (text ++ "\n")
        return none
      | some path =>
        let some name := files.writable? path | throw (.cannotWrite path)
        inform verbose ("Wrote sample trace to " ++ path)
        return some (name, text)

/-- The version and what the program puts out. -/
def versionText : String :=
  "Hotpath Trace Compiler v0.1.0\nOutput: slot-based LIR (listing, Graphviz DOT)\n"

/-- What a command does. -/
def run (files : Files) (i : Invocation) : Report :=
  match i.command with
  | .lower input reuse verify dot =>
    report (do runLower files i.verbose input reuse verify dot; return none)
  | .sample output => report (runSample files i.verbose output)
  | .version => report (do print versionText; return none)

end LoopTrace.CommandLine
