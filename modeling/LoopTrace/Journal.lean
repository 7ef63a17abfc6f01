import LoopTrace.Code.Listing
import LoopTrace.Flow.Call
import LoopTrace.Guard
import LoopTrace.Move.Basic
import LoopTrace.Pool.Request

/-!
# The journal

What happens while code is generated, for those who want to follow it. Events are data; each has a level
and a message.
-/

namespace LoopTrace

/-- How much detail an event gives. -/
inductive Level where
  | debug
  | trace
  deriving DecidableEq, Repr, Inhabited

/-- The level as the journal writes it. -/
def Level.text : Level → String
  | .debug => "DEBUG"
  | .trace => "TRACE"

/-- Something that happens while code is generated. -/
inductive Event where
  /-- A new slot is made. -/
  | minted (slot : Slot)
  /-- A released slot is handed out again. -/
  | reused (slot : Slot)
  /-- A value is released. -/
  | released (slot : Slot) (value : ValueId)
  /-- A step of ordering moves is done. -/
  | moved (step : Move.Step)
  /-- A local stays as it is, since its tail value is not tracked. -/
  | kept (destination : Slot)
  /-- The moves at the end of the loop are in order. -/
  | wroteBack (moves temporaries : Nat)
  /-- A block is emitted. -/
  | emitted (id : BlockId) (serial : Nat) (linked : Bool)
  /-- A block is left out because it is empty. -/
  | dropped (id : BlockId)
  /-- A guard is turned into its exit. -/
  | guarded (g : GuardExit)
  /-- A trace is taken up. -/
  | started (anchor : Signature) (position body prologue : Nat)
  /-- The end of the loop is connected to its head. -/
  | loopedBack (origin header : BlockId)
  /-- The code is complete. -/
  | generated (blocks slots parameters : Nat)
  /-- The code is shown. -/
  | shown (r : Routine)
  deriving Repr

namespace Event

/-- The level of an event. -/
def level : Event → Level
  | .minted _ | .reused _ | .released _ _ | .kept _ | .guarded _ | .moved (.transfer _) => .trace
  | _ => .debug

/-- The event in words. -/
def message : Event → String
  | .minted slot => "[SLOTS] minted " ++ slot.text
  | .reused slot => "[SLOTS] reusing " ++ slot.text
  | .released slot value => "[SLOTS] released " ++ slot.text ++ " (" ++ value.text ++ ")"
  | .moved (.transfer m) => "[WRITEBACK] " ++ m.text
  | .moved (.save saved temporary) =>
    "[WRITEBACK] breaking cycle at " ++ saved.text ++ " through " ++ temporary.text
  | .kept destination => "[WRITEBACK] " ++ destination.text ++ " keeps its value, tail is untracked"
  | .wroteBack moves temporaries =>
    "[WRITEBACK] " ++ toString moves ++ " moves, " ++ toString temporaries ++ " temporaries"
  | .emitted id serial linked =>
    "[TRACE-LOWER] emitted " ++ id.text ++ " as B" ++ toString serial ++ " (link: " ++ toString linked ++ ")"
  | .dropped id => "[TRACE-LOWER] dropping empty block " ++ id.text
  | .guarded g =>
    "[GUARD] " ++ g.site.text ++ ": leave when " ++ g.left.text ++ " " ++ g.comparator.complement.symbol ++ " " ++
      g.right.text
  | .started anchor position body prologue =>
    "[TRACE-LOWER] lowering trace at " ++ anchor.qualifiedName ++ "@" ++ toString position ++ " (" ++
      toString body ++ " body, " ++ toString prologue ++ " prologue instructions)"
  | .loopedBack origin header => "[TRACE-LOWER] loop back " ++ origin.text ++ " -> " ++ header.text
  | .generated blocks slots parameters =>
    "[TRACE-LOWER] generated " ++ toString blocks ++ " blocks, " ++ toString slots ++ " slots, " ++
      toString parameters ++ " parameters"
  | .shown r => "[TRACE-LOWER] lowered trace:\n" ++ r.listing

/-- The line that the journal writes. -/
def line (e : Event) : String := e.level.text ++ " " ++ e.message

end Event

namespace Pool

/-- What happens when a slot is handed out. -/
def allocationEvent (p : Pool) (kind : Kind) (mode : Mode) : Event :=
  if (p.reusable? kind mode).isSome then .reused (p.allocate kind mode).1
  else .minted (p.allocate kind mode).1

/-- What happens in a pool when it answers a call. -/
def events (p : Pool) : Request → List Event
  | .allocate kind mode => [p.allocationEvent kind mode]
  | .allocateFor value kind mode =>
    if (p.lookup value).isSome then [] else [p.allocationEvent kind mode]
  | .release value =>
    match p.lookup value with
    | some slot => [.released slot value]
    | none => []
  | _ => []

end Pool

namespace Assembly

/-- What happens in an assembly when it answers a call. -/
def events (a : Assembly) (call : Call) : List Event :=
  match call, (a.answer call).1 with
  | .emit id linked, .nothing => [.emitted id a.order.length linked]
  | .emitUnlessEmpty id linked, .emitted true => [.emitted id a.order.length linked]
  | .emitUnlessEmpty id _, .emitted false => [.dropped id]
  | _, _ => []

end Assembly

end LoopTrace
