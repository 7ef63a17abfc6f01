import LoopTrace.Code.Routine

/-!
# Assemblies

Blocks put together by hand. Blocks are created in an arena and emitted from the last to the first: the
block emitted most recently is the current one, and stands in front of the others. An emitted block gets
its serial once and for all.

A refused call leaves the assembly alone, with one exception: a link from a block that does not exist
has already been entered as a predecessor when its origin is found missing.
-/

namespace LoopTrace

/-- Blocks that are being put together. -/
structure Assembly where
  /-- All blocks, each at the place that its id tells. -/
  arena : List Block := []
  /-- The emitted blocks, the current one first. -/
  order : List BlockId := []
  deriving DecidableEq, Repr, Inhabited

namespace Assembly

/-- Why a call is refused. -/
inductive Misuse where
  | unknownBlock (id : BlockId)
  | emittedTwice (id : BlockId)
  | noCurrentBlock
  deriving DecidableEq, Repr

/-- The refusal in words. -/
def Misuse.message : Misuse → String
  | .unknownBlock id => "unknown block " ++ id.text
  | .emittedTwice id => "block " ++ id.text ++ " emitted twice"
  | .noCurrentBlock => "no current block"

/-- The block with an id. -/
def block? (a : Assembly) (id : BlockId) : Option Block := a.arena[id.index]?

/-- The block that stands in front of the others. -/
def current? (a : Assembly) : Option BlockId := a.order.head?

/-- The assembly with one block changed. -/
def modify (a : Assembly) (id : BlockId) (f : Block → Block) : Assembly :=
  { a with arena := a.arena.modify id.index f }

/-- Creates a block. -/
def create (a : Assembly) (role : Role) : BlockId × Assembly :=
  let id : BlockId := ⟨a.arena.length⟩
  (id, { a with arena := a.arena ++ [⟨id, role, none, [], .empty, .empty⟩] })

/-- Makes an edge, the side of its target first. -/
def link (a : Assembly) (origin target : BlockId) : Except Misuse Unit × Assembly :=
  if (a.block? target).isNone then (.error (.unknownBlock target), a)
  else
    let a := a.modify target fun b => { b with predecessors := b.predecessors.insert origin }
    if (a.block? origin).isNone then (.error (.unknownBlock origin), a)
    else (.ok (), a.modify origin fun b => { b with successors := b.successors.insert target })

/-- Puts a block in front of the others. If `linked` is set, it gets an edge to the block that was there
before. -/
def emit (a : Assembly) (id : BlockId) (linked : Bool) : Except Misuse Unit × Assembly :=
  match a.block? id with
  | none => (.error (.unknownBlock id), a)
  | some b =>
    if b.serial.isSome then (.error (.emittedTwice id), a)
    else
      let sealed := a.modify id fun b => { b with serial := some a.order.length }
      let (result, sealed) : Except Misuse Unit × Assembly :=
        match linked, sealed.current? with
        | true, some previous => sealed.link id previous
        | _, _ => (.ok (), sealed)
      match result with
      | .ok () => (.ok (), { sealed with order := id :: sealed.order })
      | .error e => (.error e, sealed)

/-- Emits a block unless it is empty, and tells whether it did. -/
def emitUnlessEmpty (a : Assembly) (id : BlockId) (linked : Bool) : Except Misuse Bool × Assembly :=
  match a.block? id with
  | none => (.error (.unknownBlock id), a)
  | some b =>
    if b.code.isEmpty then (.ok false, a)
    else
      match a.emit id linked with
      | (.ok (), a) => (.ok true, a)
      | (.error e, a) => (.error e, a)

/-- Puts instructions, in their order, in front of a block's code. -/
def prependTo (a : Assembly) (id : BlockId) (code : List Instruction) : Except Misuse Assembly :=
  if (a.block? id).isNone then .error (.unknownBlock id)
  else .ok (a.modify id fun b => { b with code := code ++ b.code })

/-- Puts instructions in front of the current block's code. -/
def prepend (a : Assembly) (code : List Instruction) : Except Misuse Assembly :=
  match a.current? with
  | some id => a.prependTo id code
  | none => .error .noCurrentBlock

/-- Points a jump that has no target yet at a block. -/
def resolve (header : BlockId) : Instruction → Instruction
  | .jump none => .jump (some header)
  | i => i

/-- Points every jump of a block that has no target yet at a block, and counts them. -/
def resolveJumps (a : Assembly) (id header : BlockId) : Except Misuse (Nat × Assembly) :=
  match a.block? id with
  | none => .error (.unknownBlock id)
  | some b =>
    .ok (b.code.count (.jump none), a.modify id fun b => { b with code := b.code.map (resolve header) })

/-- The emitted blocks, in execution order. Blocks that were never emitted are left out. -/
def blocks (a : Assembly) : List Block := a.order.filterMap a.block?

/-- The routine made of the emitted blocks. -/
def finish (a : Assembly) (anchor : Signature) (parameters : List Slot) (slotCount : Nat) : Routine :=
  ⟨anchor, parameters, BlockTable.ofBlocks a.blocks, slotCount, true⟩

end Assembly

end LoopTrace
