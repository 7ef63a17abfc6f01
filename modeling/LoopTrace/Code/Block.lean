import LoopTrace.Code.Convention
import LoopTrace.Code.Operand

/-!
# Instructions and blocks

Generated code is made of blocks of instructions. Branches name blocks by their ids, which are given
out as blocks are created; a block gets its serial when it takes its place in the code, from the last
block to the first. The edges between blocks are kept on both sides, as sets in the order in which they
were made.
-/

namespace LoopTrace

/-- A block, known by its number. -/
structure BlockId where
  index : Nat
  deriving DecidableEq, Repr, Inhabited

namespace BlockId

/-- The block as messages write it. -/
def text (id : BlockId) : String := "b" ++ toString id.index

end BlockId

/-- What a call enters. -/
inductive Callee where
  | method (s : Signature)
  | stub (s : Stub)
  deriving DecidableEq, Repr, Inhabited

namespace Callee

/-- The callee as listings write it. -/
def text : Callee → String
  | .method s => s.qualifiedName
  | .stub s => "@" ++ s.symbol

end Callee

/-- An instruction of generated code. -/
inductive Instruction where
  /-- Copies an operand into a slot. -/
  | assign (destination : Slot) (source : Operand)
  /-- Performs an operation. -/
  | operate (result : Option Slot) (op : Operation) (operands : List Operand)
  /-- Calls a method or the runtime. -/
  | call (result : Option Slot) (callee : Callee) (convention : Convention) (arguments : List Operand)
    (frame : Option (Frame Operand))
  /-- Goes to the target of the first match with which the tag compares, and to `otherwise` if there is
  none. -/
  | branch (kind : Kind) (comparator : Comparator) (tag : Operand) (candidates : List Operand)
    (targets : List BlockId) (otherwise : BlockId)
  /-- Marks where the interpreter may have to resume, and in which state. -/
  | guardpoint (frame : Option (Frame Operand))
  /-- Goes to a block, which may not be known yet. -/
  | jump (target : Option BlockId)
  /-- Leaves the code with a value. -/
  | leave (value : Operand)
  deriving DecidableEq, Repr, Inhabited

namespace Instruction

/-- The operands that an instruction reads, those of its frame included. -/
def inputs : Instruction → List Operand
  | .assign _ source => [source]
  | .operate _ _ operands => operands
  | .call _ _ _ arguments frame => arguments ++ (frame.map Frame.contents).getD []
  | .branch _ _ tag candidates _ _ => tag :: candidates
  | .guardpoint frame => (frame.map Frame.contents).getD []
  | .jump _ => []
  | .leave value => [value]

/-- The slots that an instruction reads. -/
def reads (i : Instruction) : List Slot := i.inputs.filterMap Operand.slot?

/-- The slot that an instruction writes. -/
def writes : Instruction → Option Slot
  | .assign destination _ => some destination
  | .operate result _ _ | .call result _ _ _ _ => result
  | _ => none

/-- The blocks to which an instruction may go. -/
def targets : Instruction → List BlockId
  | .branch _ _ _ _ targets otherwise => targets ++ [otherwise]
  | .jump (some target) => [target]
  | _ => []

/-- Whether the instruction ends a block. -/
def isTerminator : Instruction → Bool
  | .branch .. | .jump _ | .leave _ => true
  | _ => false

end Instruction

/-- What a block is there for. -/
inductive Role where
  /-- Code of the trace. -/
  | normal
  /-- Code that the compiler adds. -/
  | synthetic
  deriving DecidableEq, Repr, Inhabited

namespace Role

/-- All roles. -/
def all : List Role := [.normal, .synthetic]

theorem mem_all (r : Role) : r ∈ all := by cases r <;> simp [all]

/-- The role's name in stored code. -/
def tag : Role → String
  | .normal => "Normal"
  | .synthetic => "Synthetic"

end Role

/-- A set of blocks in the order in which they came in. -/
structure BlockSet where
  toList : List BlockId
  nodup : toList.Nodup
  deriving DecidableEq, Repr

namespace BlockSet

/-- The set without blocks. -/
def empty : BlockSet := ⟨[], List.nodup_nil⟩

instance : Inhabited BlockSet := ⟨empty⟩

instance : Membership BlockId BlockSet := ⟨fun s id => id ∈ s.toList⟩

theorem mem_toList {s : BlockSet} {id : BlockId} : id ∈ s.toList ↔ id ∈ s := Iff.rfl

instance (id : BlockId) (s : BlockSet) : Decidable (id ∈ s) := inferInstanceAs (Decidable (id ∈ s.toList))

/-- The set with one more block, which comes last unless it is in already. -/
def insert (s : BlockSet) (id : BlockId) : BlockSet :=
  if h : id ∈ s.toList then s
  else ⟨s.toList ++ [id], by
    rw [List.nodup_append]
    exact ⟨s.nodup, by simp, fun a ha b hb => by
      rintro rfl
      exact h (by simpa using List.mem_singleton.1 hb ▸ ha)⟩⟩

@[simp] theorem mem_insert {s : BlockSet} {id id' : BlockId} : id' ∈ s.insert id ↔ id' ∈ s ∨ id' = id := by
  unfold insert
  split
  · rename_i h
    exact ⟨Or.inl, fun h' => h'.elim (fun h' => h') fun e => e ▸ h⟩
  · rw [← mem_toList, ← mem_toList]
    simp

/-- The set of the blocks of a list. -/
def ofList (ids : List BlockId) : BlockSet := ids.foldl insert empty

end BlockSet

/-- A block of generated code. -/
structure Block where
  id : BlockId
  role : Role
  /-- Its number in the order of emission, once it has been emitted. -/
  serial : Option Nat := none
  code : List Instruction := []
  predecessors : BlockSet := .empty
  successors : BlockSet := .empty
  deriving DecidableEq, Repr, Inhabited

namespace Block

/-- The last instruction, if it ends the block. -/
def terminator? (b : Block) : Option Instruction := b.code.getLast?.filter Instruction.isTerminator

end Block

end LoopTrace
