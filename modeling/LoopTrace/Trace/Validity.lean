import LoopTrace.Trace.Basic

/-!
# Well-formed traces

The rules that a trace has to keep before code can be made of it. They are checked in a fixed order,
and the first one broken is reported: entry and tail state are of one length and the entry state holds
locals; then, for one instruction of the streams after another, its uses exist, carry a value and are
defined earlier, the number and the kinds of its operands are right, and it stands there for the first
time; and at last the tail values are defined somewhere on the trace.
-/

namespace LoopTrace.Trace

/-- A rule that a trace breaks. -/
inductive Malformed where
  /-- The arena has no such value. -/
  | dangling (value : ValueId)
  /-- Entry and tail state differ in length. -/
  | stateLengths (entry tail : Nat)
  /-- The entry state holds something else than a local. -/
  | notALocal (place : Nat) (value : ValueId)
  /-- An instruction stands in the streams twice. -/
  | duplicate (value : ValueId)
  /-- A value is used before the instruction that defines it. -/
  | useBeforeDefinition (user value : ValueId)
  /-- Something that produces no value is used. -/
  | useOfVoid (user value : ValueId)
  /-- An instruction has too many or too few operands. -/
  | arity (value : ValueId) (callee : String) (expected found : Nat)
  /-- An operand is of the wrong kind. -/
  | operandKind (user : ValueId) (place : Nat) (expected found : Kind)
  /-- A guard compares operands of kind void. -/
  | voidGuard (value : ValueId)
  /-- A local takes a value at the tail that the trace never defines. -/
  | undefinedTail (place : Nat) (value : ValueId)
  deriving DecidableEq, Repr

/-- The broken rule in words. -/
def Malformed.message : Malformed → String
  | .dangling value => "value " ++ value.text ++ " does not exist in the trace"
  | .stateLengths entry tail =>
    "entry state has " ++ toString entry ++ " positions but tail state has " ++ toString tail
  | .notALocal place value =>
    "entry state position " ++ toString place ++ " holds " ++ value.text ++ ", which is not a local"
  | .duplicate value => "instruction " ++ value.text ++ " is recorded more than once"
  | .useBeforeDefinition user value => user.text ++ " uses " ++ value.text ++ " before it is defined"
  | .useOfVoid user value => user.text ++ " uses " ++ value.text ++ ", which produces no value"
  | .arity value callee expected found =>
    value.text ++ ": " ++ callee ++ " expects " ++ toString expected ++ " operands, found " ++ toString found
  | .operandKind user place expected found =>
    user.text ++ " expects a " ++ expected.name ++ " operand at position " ++ toString place ++ ", found " ++
      found.name
  | .voidGuard value => value.text ++ ": guards compare values, they cannot test a void operand"
  | .undefinedTail place value =>
    "tail state position " ++ toString place ++ " holds " ++ value.text ++
      ", which is never defined on the trace"

variable (t : Trace)

/-- The value at a place of the arena, which has to exist. -/
def fetch (id : ValueId) : Except Malformed Value :=
  match t.get? id with
  | some v => .ok v
  | none => .error (.dangling id)

/-- The entry state holds locals from the given place on. -/
def checkEntry : Nat → List ValueId → Except Malformed Unit
  | _, [] => .ok ()
  | place, id :: rest => do
    match ← t.fetch id with
    | .atEntry .. => checkEntry (place + 1) rest
    | _ => .error (.notALocal place id)

/-- A value may be used by an instruction that comes after those of `seen`. -/
def checkUse (seen : List ValueId) (user value : ValueId) : Except Malformed Unit := do
  let v ← t.fetch value
  if v.kind = .void ∧ v ≠ .untracked then .error (.useOfVoid user value)
  else if v.isLeaf ∨ value ∈ seen then .ok ()
  else .error (.useBeforeDefinition user value)

/-- An instruction has as many operands as it takes, and a guard compares values. -/
def checkArity (id : ValueId) : Value → Except Malformed Unit
  | .operation op operands =>
    if operands.length = op.arity then .ok ()
    else .error (.arity id op.mnemonic op.arity operands.length)
  | .call method operands _ | .inlinedCall method operands =>
    if operands.length = method.parameters.length then .ok ()
    else .error (.arity id method.qualifiedName method.parameters.length operands.length)
  | .guard .void _ _ _ _ => .error (.voidGuard id)
  | _ => .ok ()

/-- The operands from the given place on are of the kinds that they must have. An untracked value
stands for any kind. -/
def checkKinds (user : ValueId) : Nat → List ValueId → List Kind → Except Malformed Unit
  | place, id :: ids, expected :: kinds => do
    let v ← t.fetch id
    if v = .untracked ∨ v.kind = expected then checkKinds user (place + 1) ids kinds
    else .error (.operandKind user place expected v.kind)
  | _, _, _ => .ok ()

/-- An instruction keeps the rules if it comes after those of `seen`. -/
def checkInstruction (seen : List ValueId) (id : ValueId) : Except Malformed Unit := do
  let v ← t.fetch id
  v.uses.forM (t.checkUse seen id)
  checkArity id v
  t.checkKinds id 0 v.operands (v.operandKinds?.getD [])
  if id ∈ seen then .error (.duplicate id) else .ok ()

/-- Every instruction of a stream keeps the rules if the stream comes after the instructions of
`seen`. -/
def checkStream : List ValueId → List ValueId → Except Malformed Unit
  | _, [] => .ok ()
  | seen, id :: rest => do
    t.checkInstruction seen id
    checkStream (id :: seen) rest

/-- The tail values from the given place on are defined on the trace. -/
def checkTail : Nat → List ValueId → Except Malformed Unit
  | _, [] => .ok ()
  | place, id :: rest => do
    let v ← t.fetch id
    if v.isLeaf ∨ id ∈ t.stream then checkTail (place + 1) rest
    else .error (.undefinedTail place id)

/-- The trace keeps all the rules. -/
def check : Except Malformed Unit := do
  if t.entry.length = t.tail.length then .ok () else .error (.stateLengths t.entry.length t.tail.length)
  t.checkEntry 0 t.entry
  t.checkStream [] t.stream
  t.checkTail 0 t.tail

end LoopTrace.Trace
