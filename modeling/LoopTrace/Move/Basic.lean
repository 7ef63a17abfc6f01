import LoopTrace.Code.Block

/-!
# Moves

When control loops back, the locals take their new values all at once, each from the operands as they
were before. Moves that are carried out one after another have to be ordered so that none reads what an
earlier one has written. A move may go first if no pending move reads its destination; among those that
may, the first one listed goes. If none may, every pending destination is still read: then the first
one is saved into a temporary, and its readers read the temporary instead.
-/

namespace LoopTrace

/-- A copy of an operand into a slot. -/
structure Move where
  destination : Slot
  source : Operand
  deriving DecidableEq, Repr, Inhabited

namespace Move

/-- A move of a slot to itself. -/
def IsRedundant (m : Move) : Prop := m.source = .slot m.destination

instance (m : Move) : Decidable m.IsRedundant := inferInstanceAs (Decidable (_ = _))

/-- The instruction that carries the move out. -/
def instruction (m : Move) : Instruction := .assign m.destination m.source

/-- The move as messages write it. -/
def text (m : Move) : String := m.destination.text ++ " := " ++ m.source.text

/-- Whether some pending move reads a slot. -/
def isRead (pending : List Move) (s : Slot) : Bool := pending.any fun m => m.source = .slot s

/-- The first move whose destination none of `pending` reads, and the other ones in their order. -/
def takeReady (pending : List Move) : List Move → Option (Move × List Move)
  | [] => none
  | m :: rest =>
    if isRead pending m.destination then
      (takeReady pending rest).map fun (ready, others) => (ready, m :: others)
    else some (m, rest)

/-- The moves with a slot that they read replaced by another. -/
def redirect (saved temporary : Slot) (pending : List Move) : List Move :=
  pending.map fun m => if m.source = .slot saved then { m with source := .slot temporary } else m

/-- A step of a schedule. -/
inductive Step where
  /-- Carries out a pending move. -/
  | transfer (m : Move)
  /-- Saves a destination that is still read into a temporary. -/
  | save (saved temporary : Slot)
  deriving DecidableEq, Repr

/-- The move that a step makes. -/
def Step.move : Step → Move
  | .transfer m => m
  | .save saved temporary => ⟨temporary, .slot saved⟩

/-- The temporary that a step uses. -/
def Step.temporary? : Step → Option Slot
  | .transfer _ => none
  | .save _ temporary => some temporary

section Schedule

variable {m : Type → Type} [Monad m] (fresh : Kind → m Slot) (note : Step → m Unit)

/-- Orders pending moves in at most `limit` steps. `fresh` supplies a temporary of a kind, and `note` is
told of every step. -/
def order : Nat → List Move → m (List Step)
  | 0, _ | _, [] => pure []
  | limit + 1, first :: rest => do
    match takeReady (first :: rest) (first :: rest) with
    | some (ready, others) =>
      note (.transfer ready)
      return .transfer ready :: (← order limit others)
    | none =>
      let temporary ← fresh first.destination.kind
      note (.save first.destination temporary)
      let others := redirect first.destination temporary (first :: rest)
      return .save first.destination temporary :: (← order limit others)

/-- Orders moves that are to happen all at once. A temporary that differs from the slot it saves lets
the saved move go next, so that two steps for each move are enough; a supply that now and then hands out
the very slot that is to be saved needs a third one. -/
def schedule (moves : List Move) : m (List Step) :=
  let pending := moves.filter fun m => ¬ m.IsRedundant
  order fresh note (3 * pending.length) pending

end Schedule

end Move

end LoopTrace
