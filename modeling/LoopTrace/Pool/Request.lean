import LoopTrace.Pool.Basic

/-!
# Requests to a pool

The calls that can be made of a pool, as data, so that runs of any calls can be spoken of. A refused
request is part of a run: the pool goes on in the state in which the refusal left it.
-/

namespace LoopTrace.Pool

/-- A call of a pool. -/
inductive Request where
  | allocate (kind : Kind) (mode : Mode)
  | bind (value : ValueId) (slot : Slot)
  | lookup (value : ValueId)
  | allocateFor (value : ValueId) (kind : Kind) (mode : Mode)
  | release (value : ValueId)
  | recycle (slot : Slot)
  deriving DecidableEq, Repr

/-- What a pool answers to a call. -/
inductive Reply where
  | slot (s : Slot)
  | nothing
  | refused (why : Misuse)
  deriving DecidableEq, Repr

/-- The answer to a call, and the pool after it. -/
def answer (p : Pool) : Request → Reply × Pool
  | .allocate kind mode =>
    let (slot, p) := p.allocate kind mode
    (.slot slot, p)
  | .bind value slot =>
    match p.bind value slot with
    | .ok p => (.nothing, p)
    | .error e => (.refused e, p)
  | .lookup value =>
    match p.lookup value with
    | some slot => (.slot slot, p)
    | none => (.nothing, p)
  | .allocateFor value kind mode =>
    match p.allocateFor value kind mode with
    | (.ok slot, p) => (.slot slot, p)
    | (.error e, p) => (.refused e, p)
  | .release value =>
    match p.release value with
    | .ok (slot, p) => (.slot slot, p)
    | .error e => (.refused e, p)
  | .recycle slot =>
    match p.recycle slot with
    | .ok p => (.nothing, p)
    | .error e => (.refused e, p)

/-- The answers to calls one after another, and the pool after them. -/
def run (p : Pool) : List Request → List Reply × Pool
  | [] => ([], p)
  | request :: rest =>
    let (reply, p) := p.answer request
    let (replies, p) := p.run rest
    (reply :: replies, p)

end LoopTrace.Pool
