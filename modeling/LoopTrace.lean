import LoopTrace.Kind
import LoopTrace.Comparator
import LoopTrace.Signature
import LoopTrace.Operation
import LoopTrace.Number.Binary
import LoopTrace.Number.Decimal
import LoopTrace.Constant
import LoopTrace.Json.Basic
import LoopTrace.Json.Numeral
import LoopTrace.Json.Token
import LoopTrace.Json.Reader
import LoopTrace.Json.Writer
import LoopTrace.Json.Decode
import LoopTrace.Trace.Basic
import LoopTrace.Trace.Validity
import LoopTrace.Trace.Recorder
import LoopTrace.Trace.Script
import LoopTrace.Code.Operand
import LoopTrace.Code.Convention
import LoopTrace.Code.Block
import LoopTrace.Code.Routine
import LoopTrace.Code.Listing
import LoopTrace.Trace.Stored
import LoopTrace.Code.Stored
import LoopTrace.Pool.Basic
import LoopTrace.Pool.Request
import LoopTrace.Move.Basic
import LoopTrace.Flow.Assembly
import LoopTrace.Flow.Liveness
import LoopTrace.Flow.Verify
import LoopTrace.Flow.Graph
import LoopTrace.Guard
import LoopTrace.Journal
import LoopTrace.Flow.Call
import LoopTrace.Text.Invisible
import LoopTrace.Text.Quoted
import LoopTrace.Lowering.Settings
import LoopTrace.Lowering.Fault
import LoopTrace.Lowering.Layout
import LoopTrace.Lowering.Walk
import LoopTrace.Lowering.Session
import LoopTrace.Lowering.Call
import LoopTrace.CommandLine.Arguments
import LoopTrace.CommandLine.Files
import LoopTrace.CommandLine.Sample
import LoopTrace.CommandLine.Run
import LoopTrace.Main
import LoopTrace.Proofs.Tables
import LoopTrace.Proofs.Liveness
import LoopTrace.Proofs.Verification
import LoopTrace.Proofs.Pool
import LoopTrace.Proofs.Steps
import LoopTrace.Proofs.Uses
import LoopTrace.Proofs.Validity
import LoopTrace.Proofs.WellFormed
import LoopTrace.Proofs.Passes
import LoopTrace.Proofs.Moves
import LoopTrace.Proofs.Entry
import LoopTrace.Proofs.Shape
import LoopTrace.Proofs.Kept
import LoopTrace.Proofs.Course
import LoopTrace.Proofs.Outcomes
import LoopTrace.Proofs.Runs
import LoopTrace.Proofs.Transfers
import LoopTrace.Proofs.Supplies
import LoopTrace.Proofs.Cycles
import LoopTrace.Proofs.Temporaries
import LoopTrace.Proofs.Agreement
import LoopTrace.Proofs.Untouched
import LoopTrace.Proofs.Iterations
import LoopTrace.Proofs.Handover
import LoopTrace.Proofs.Arguments
import LoopTrace.Proofs.Simulation
import LoopTrace.Proofs.Custody
import LoopTrace.Proofs.Holders
import LoopTrace.Proofs.Placement
import LoopTrace.Proofs.Outline
import LoopTrace.Proofs.Origins
import LoopTrace.Proofs.Kinds
import LoopTrace.Proofs.Ownership
import LoopTrace.Proofs.Blind
import LoopTrace.Proofs.Renaming
import LoopTrace.Proofs.Sharing
import LoopTrace.Proofs.Assembled
import LoopTrace.Proofs.Minting
import LoopTrace.Proofs.Density
import LoopTrace.Proofs.Relabelling
import LoopTrace.Proofs.Retagging
import LoopTrace.Proofs.Lockstep
import LoopTrace.Proofs.Anonymity
import LoopTrace.Proofs.Effects
import LoopTrace.Proofs.Chronicle
import LoopTrace.Proofs.Advance
import LoopTrace.Proofs.Phases
import LoopTrace.Proofs.Sessions
import LoopTrace.Proofs.Log
import LoopTrace.Proofs.Recording
import LoopTrace.Proofs.Numbering
import LoopTrace.Proofs.Parameters
import LoopTrace.Proofs.Peak
import LoopTrace.Proofs.Export
import LoopTrace.Proofs.Refusals
import LoopTrace.Proofs.Numerals
import LoopTrace.Proofs.Spelling
import LoopTrace.Proofs.Reading
import LoopTrace.Proofs.Storage
import LoopTrace.Proofs.Forfeits
import LoopTrace.Proofs.Points
import LoopTrace.Proofs.Breaches
import LoopTrace.Proofs.Frontier
