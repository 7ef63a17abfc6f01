import LoopTrace.Code.Routine

/-!
# Listings

A routine as text: a line for its name and parameters, then each block with its edges and a line for
each instruction. Blocks are named by their serials, and by their ids as long as they have none.
-/

namespace LoopTrace

namespace Routine

variable (r : Routine)

/-- The name of a block in the listing. -/
def label (id : BlockId) : String :=
  match (r.block? id).bind Block.serial with
  | some serial => "B" ++ toString serial
  | none => "?" ++ id.text

/-- The names of blocks. -/
def labels (ids : List BlockId) : String := ", ".intercalate (ids.map r.label)

/-- The slot that receives a result, if there is one. -/
def resultText : Option Slot → String
  | some s => s.text ++ " := "
  | none => ""

/-- The frame of an instruction, if it has one, after a word. -/
def frameText (word : String) : Option (Frame Operand) → String
  | some frame => word ++ frame.text
  | none => ""

/-- An instruction in the listing. -/
def instructionText : Instruction → String
  | .assign destination source => destination.text ++ " := " ++ source.text
  | .operate result op operands => resultText result ++ op.mnemonic ++ "(" ++ Operand.texts operands ++ ")"
  | .call result callee convention arguments frame =>
    resultText result ++ "call[" ++ convention.tag ++ "] " ++ callee.text ++ "(" ++ Operand.texts arguments ++
      ")" ++ frameText " frame " frame
  | .branch kind comparator tag candidates targets otherwise =>
    "switch " ++ kind.name ++
      String.join ((candidates.zip targets).map fun (candidate, target) =>
        " [" ++ tag.text ++ " " ++ comparator.symbol ++ " " ++ candidate.text ++ " -> " ++ r.label target ++ "]") ++
      " else " ++ r.label otherwise
  | .guardpoint frame => "guardpoint" ++ frameText " " frame
  | .jump (some target) => "goto " ++ r.label target
  | .jump none => "goto <unresolved>"
  | .leave value => "return " ++ value.text

/-- A block in the listing. -/
def blockText (b : Block) : String :=
  r.label b.id ++ (if b.role = .synthetic then " synthetic" else "") ++ ":  preds[" ++
    r.labels b.predecessors.toList ++ "] succs[" ++ r.labels b.successors.toList ++ "]\n" ++
    String.join (b.code.map fun i => "    " ++ r.instructionText i ++ "\n")

/-- The listing of the routine. -/
def listing : String :=
  "trace " ++ r.anchor.text ++ " (" ++ ", ".intercalate (r.parameters.map Slot.text) ++ ")\n" ++
    String.join (r.blocks.map r.blockText)

end Routine

end LoopTrace
