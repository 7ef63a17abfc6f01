import LoopTrace.Code.Block

/-!
# Routines

The code generated for one trace: its parameters, one slot for each interpreter local on entry, and its
blocks in execution order, each filed under an id. A branch to an id goes to the block filed under it.
-/

namespace LoopTrace

/-- Blocks filed under ids, each id once, in order. -/
structure BlockTable where
  entries : List (BlockId × Block)
  nodup : (entries.map Prod.fst).Nodup
  deriving Repr

namespace BlockTable

/-- The table without blocks. -/
def empty : BlockTable := ⟨[], List.nodup_nil⟩

instance : Inhabited BlockTable := ⟨empty⟩

/-- The ids under which blocks are filed. -/
def ids (t : BlockTable) : List BlockId := t.entries.map Prod.fst

/-- The blocks, in order. -/
def blocks (t : BlockTable) : List Block := t.entries.map Prod.snd

/-- The block filed under an id. -/
def find? (t : BlockTable) (id : BlockId) : Option Block := t.entries.lookup id

/-- Puts a block in the place of the one filed under the id, or after all others if there is none. -/
def put (id : BlockId) (b : Block) : List (BlockId × Block) → List (BlockId × Block)
  | [] => [(id, b)]
  | entry :: rest => if entry.1 = id then (id, b) :: rest else entry :: put id b rest

theorem fst_put (id : BlockId) (b : Block) (entries : List (BlockId × Block)) :
    (put id b entries).map Prod.fst =
      if id ∈ entries.map Prod.fst then entries.map Prod.fst else entries.map Prod.fst ++ [id] := by
  induction entries with
  | nil => simp [put]
  | cons entry rest ih =>
    unfold put
    by_cases h : entry.1 = id
    · simp [h]
    · simp only [h, if_false, List.map_cons, ih, List.mem_cons, Ne.symm h, false_or]
      split <;> simp

/-- The table with a block filed under an id. -/
def file (t : BlockTable) (id : BlockId) (b : Block) : BlockTable :=
  ⟨put id b t.entries, by
    rw [fst_put]
    split
    · exact t.nodup
    · rename_i h
      rw [List.nodup_append]
      refine ⟨t.nodup, by simp, fun a ha c hc => ?_⟩
      rintro rfl
      exact h (List.mem_singleton.1 hc ▸ ha)⟩

/-- The table of a list, each block filed in turn. -/
def ofList (entries : List (BlockId × Block)) : BlockTable :=
  entries.foldl (fun t entry => t.file entry.1 entry.2) empty

/-- The table that files each block under its own id. -/
def ofBlocks (blocks : List Block) : BlockTable := ofList (blocks.map fun b => (b.id, b))

end BlockTable

/-- The code generated for one trace. -/
structure Routine where
  /-- The method that holds the loop. -/
  anchor : Signature
  /-- A slot for each interpreter local on entry; locals that carry nothing have slots of kind void. -/
  parameters : List Slot := []
  /-- The blocks in execution order. -/
  table : BlockTable := .empty
  /-- How many slots were made. -/
  slotCount : Nat := 0
  /-- Whether the code has been generated yet. -/
  generated : Bool := false
  deriving Repr, Inhabited

namespace Routine

/-- The blocks in execution order. -/
def blocks (r : Routine) : List Block := r.table.blocks

/-- The ids under which the blocks are filed. -/
def blockIds (r : Routine) : List BlockId := r.table.ids

/-- The block filed under an id. -/
def block? (r : Routine) (id : BlockId) : Option Block := r.table.find? id

/-- Where the code is entered: the first block. -/
def entry? (r : Routine) : Option BlockId := r.blockIds.head?

/-- Every block is filed under its own id. -/
def OwnIds (r : Routine) : Prop := ∀ entry ∈ r.table.entries, entry.1 = entry.2.id

end Routine

end LoopTrace
