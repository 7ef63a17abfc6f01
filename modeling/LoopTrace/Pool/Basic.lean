import LoopTrace.Code.Operand

/-!
# The slot pool

A pool hands out slots and binds values to them. Code is generated from its end to its beginning, so a
value is bound at its last use and released at its definition, and the slot of a released value can
serve values of the code before it. Released slots are kept most recent first, and a request that may
share takes the most recent one of its kind.

A refused `bind`, `release` or `recycle` leaves the pool alone. `allocateFor` takes a slot before it
binds, so that a refusal leaves the pool without the slot it had taken.

Slots are numbered without a bound. A program that keeps the number of the next slot in 32 bits ends when
it would mint more than `2 ^ 32 - 1` of them, so that what is said of runs here is said of those that mint
no more.
-/

namespace LoopTrace

/-- Slots and the values bound to them. -/
structure Pool where
  /-- Whether released slots are handed out again. -/
  reuse : Bool := true
  /-- The number of the next new slot. It has no bound here. -/
  next : Nat := 0
  /-- Slots to hand out again, most recent first. -/
  free : List Slot := []
  /-- The values that are bound, each with its slot. -/
  bindings : List (ValueId × Slot) := []
  /-- The values whose definition has been reached; code before it may not read them. -/
  released : List ValueId := []
  deriving DecidableEq, Repr, Inhabited

namespace Pool

/-- Whether a request may take a slot that held another value. -/
inductive Mode where
  /-- A new slot, for values that live around the loop. -/
  | exclusive
  /-- The most recently released slot of the kind, if there is one. -/
  | shared
  deriving DecidableEq, Repr, Inhabited

/-- Why a request is refused. -/
inductive Misuse where
  | readAfterRelease (value : ValueId)
  | alreadyBound (value : ValueId)
  | slotTaken (value : ValueId) (slot : Slot)
  | notBound (value : ValueId)
  | stillBound (slot : Slot)
  | recycledTwice (slot : Slot)
  deriving DecidableEq, Repr

/-- The refusal in words. -/
def Misuse.message : Misuse → String
  | .readAfterRelease value => value.text ++ " is read after its slot was released at the definition"
  | .alreadyBound value => value.text ++ " is already bound"
  | .slotTaken value slot =>
    value.text ++ " cannot be bound to " ++ slot.text ++ ": the slot holds another live value"
  | .notBound value => "release of unbound value " ++ value.text
  | .stillBound slot => slot.text ++ " is still bound"
  | .recycledTwice slot => slot.text ++ " recycled twice"

/-- The slots that hold a value. -/
def bound (p : Pool) : List Slot := p.bindings.map Prod.snd

/-- The slot bound to a value. -/
def lookup (p : Pool) (value : ValueId) : Option Slot := p.bindings.lookup value

/-- How many values are bound. -/
def liveCount (p : Pool) : Nat := p.bindings.length

/-- The released slot that a request takes. -/
def reusable? (p : Pool) (kind : Kind) : Mode → Option Slot
  | .exclusive => none
  | .shared => if p.reuse then p.free.find? (·.kind = kind) else none

/-- Hands out a slot. -/
def allocate (p : Pool) (kind : Kind) (mode : Mode) : Slot × Pool :=
  match p.reusable? kind mode with
  | some slot => (slot, { p with free := p.free.erase slot })
  | none => (⟨kind, p.next⟩, { p with next := p.next + 1 })

/-- Binds a value to a slot. A slot holds one value at a time, and a released value does not come back,
as its slot may hold another one by then. -/
def bind (p : Pool) (value : ValueId) (slot : Slot) : Except Misuse Pool :=
  if value ∈ p.released then .error (.readAfterRelease value)
  else if (p.lookup value).isSome then .error (.alreadyBound value)
  else if slot ∈ p.bound then .error (.slotTaken value slot)
  else .ok { p with bindings := (value, slot) :: p.bindings }

/-- The slot bound to a value, which is handed out and bound if there is none. -/
def allocateFor (p : Pool) (value : ValueId) (kind : Kind) (mode : Mode) : Except Misuse Slot × Pool :=
  match p.lookup value with
  | some slot => (.ok slot, p)
  | none =>
    let (slot, p) := p.allocate kind mode
    match p.bind value slot with
    | .ok p => (.ok slot, p)
    | .error e => (.error e, p)

/-- Ends the life of a value and makes its slot available. -/
def release (p : Pool) (value : ValueId) : Except Misuse (Slot × Pool) :=
  match p.lookup value with
  | some slot =>
    .ok (slot, { p with
      bindings := p.bindings.filter (·.1 ≠ value)
      released := value :: p.released
      free := slot :: p.free })
  | none => .error (.notBound value)

/-- Makes a slot available that was handed out and never bound. -/
def recycle (p : Pool) (slot : Slot) : Except Misuse Pool :=
  if slot ∈ p.bound then .error (.stillBound slot)
  else if slot ∈ p.free then .error (.recycledTwice slot)
  else .ok { p with free := slot :: p.free }

end Pool

end LoopTrace
