import LoopTrace.Flow.Assembly

/-!
# Calls of an assembly

The calls that put blocks together, as data, so that runs of any calls can be spoken of. A refused call
is part of a run: the assembly goes on in the state in which the refusal left it.
-/

namespace LoopTrace.Assembly

/-- A call of an assembly. -/
inductive Call where
  | create (role : Role)
  | emit (id : BlockId) (linked : Bool)
  | emitUnlessEmpty (id : BlockId) (linked : Bool)
  | link (origin target : BlockId)
  | prependTo (id : BlockId) (code : List Instruction)
  | prepend (code : List Instruction)
  | resolveJumps (id header : BlockId)
  deriving DecidableEq, Repr

/-- What an assembly answers to a call. -/
inductive Reply where
  | created (id : BlockId)
  | nothing
  | emitted (done : Bool)
  | resolved (count : Nat)
  | refused (why : Misuse)
  deriving DecidableEq, Repr

/-- The answer to a call, and the assembly after it. -/
def answer (a : Assembly) : Call → Reply × Assembly
  | .create role =>
    let (id, a) := a.create role
    (.created id, a)
  | .emit id linked =>
    match a.emit id linked with
    | (.ok (), a) => (.nothing, a)
    | (.error e, a) => (.refused e, a)
  | .emitUnlessEmpty id linked =>
    match a.emitUnlessEmpty id linked with
    | (.ok done, a) => (.emitted done, a)
    | (.error e, a) => (.refused e, a)
  | .link origin target =>
    match a.link origin target with
    | (.ok (), a) => (.nothing, a)
    | (.error e, a) => (.refused e, a)
  | .prependTo id code =>
    match a.prependTo id code with
    | .ok a => (.nothing, a)
    | .error e => (.refused e, a)
  | .prepend code =>
    match a.prepend code with
    | .ok a => (.nothing, a)
    | .error e => (.refused e, a)
  | .resolveJumps id header =>
    match a.resolveJumps id header with
    | .ok (count, a) => (.resolved count, a)
    | .error e => (.refused e, a)

/-- The answers to calls one after another, and the assembly after them. -/
def run (a : Assembly) : List Call → List Reply × Assembly
  | [] => ([], a)
  | call :: rest =>
    let (reply, a) := a.answer call
    let (replies, a) := a.run rest
    (reply :: replies, a)

theorem run_cons (a : Assembly) (call : Call) (calls : List Call) : a.run (call :: calls) =
    ((a.answer call).1 :: ((a.answer call).2.run calls).1, ((a.answer call).2.run calls).2) := rfl

end LoopTrace.Assembly
