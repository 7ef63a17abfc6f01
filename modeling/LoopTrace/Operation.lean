import LoopTrace.Kind

/-!
# Inline operations

The operations that generated code performs without a call. Each has fixed operand kinds and a result
kind; the two writes to the heap produce nothing.
-/

namespace LoopTrace

/-- An operation performed without a call. -/
inductive Operation where
  | intAdd | intSub | intMul | intDiv | intRem | intAnd | intOr | intXor | intShl | intShr | intNeg
  | longAdd | longSub | longMul | longNeg
  | floatAdd | floatSub | floatMul
  | doubleAdd | doubleSub | doubleMul
  | intToLong | longToInt | intToDouble | doubleToInt
  | arrayLength | readInt | readReference | writeInt | writeReference
  deriving DecidableEq, Repr, Inhabited

namespace Operation

/-- All operations. -/
def all : List Operation :=
  [.intAdd, .intSub, .intMul, .intDiv, .intRem, .intAnd, .intOr, .intXor, .intShl, .intShr, .intNeg,
    .longAdd, .longSub, .longMul, .longNeg, .floatAdd, .floatSub, .floatMul, .doubleAdd, .doubleSub,
    .doubleMul, .intToLong, .longToInt, .intToDouble, .doubleToInt, .arrayLength, .readInt,
    .readReference, .writeInt, .writeReference]

theorem mem_all (op : Operation) : op ∈ all := by cases op <;> simp [all]

/-- The kind of the result. -/
def result : Operation → Kind
  | .intAdd | .intSub | .intMul | .intDiv | .intRem | .intAnd | .intOr | .intXor | .intShl | .intShr
  | .intNeg | .longToInt | .doubleToInt | .arrayLength | .readInt => .int
  | .longAdd | .longSub | .longMul | .longNeg | .intToLong => .long
  | .floatAdd | .floatSub | .floatMul => .float
  | .doubleAdd | .doubleSub | .doubleMul | .intToDouble => .double
  | .readReference => .reference
  | .writeInt | .writeReference => .void

/-- The kinds of the operands, in order. -/
def operands : Operation → List Kind
  | .intAdd | .intSub | .intMul | .intDiv | .intRem | .intAnd | .intOr | .intXor | .intShl
  | .intShr => [.int, .int]
  | .intNeg | .intToLong | .intToDouble => [.int]
  | .longAdd | .longSub | .longMul => [.long, .long]
  | .longNeg | .longToInt => [.long]
  | .floatAdd | .floatSub | .floatMul => [.float, .float]
  | .doubleAdd | .doubleSub | .doubleMul => [.double, .double]
  | .doubleToInt => [.double]
  | .arrayLength => [.reference]
  | .readInt | .readReference => [.reference, .int]
  | .writeInt => [.reference, .int, .int]
  | .writeReference => [.reference, .int, .reference]

/-- How many operands the operation takes. -/
def arity (op : Operation) : Nat := op.operands.length

/-- The operation as listings and messages write it. -/
def mnemonic : Operation → String
  | .intAdd => "iadd"
  | .intSub => "isub"
  | .intMul => "imul"
  | .intDiv => "idiv"
  | .intRem => "irem"
  | .intAnd => "iand"
  | .intOr => "ior"
  | .intXor => "ixor"
  | .intShl => "ishl"
  | .intShr => "ishr"
  | .intNeg => "ineg"
  | .longAdd => "ladd"
  | .longSub => "lsub"
  | .longMul => "lmul"
  | .longNeg => "lneg"
  | .floatAdd => "fadd"
  | .floatSub => "fsub"
  | .floatMul => "fmul"
  | .doubleAdd => "dadd"
  | .doubleSub => "dsub"
  | .doubleMul => "dmul"
  | .intToLong => "i2l"
  | .longToInt => "l2i"
  | .intToDouble => "i2d"
  | .doubleToInt => "d2i"
  | .arrayLength => "arraylength"
  | .readInt => "readint"
  | .readReference => "readref"
  | .writeInt => "writeint"
  | .writeReference => "writeref"

/-- The operation's name in stored traces. -/
def tag : Operation → String
  | .intAdd => "IntAdd"
  | .intSub => "IntSub"
  | .intMul => "IntMul"
  | .intDiv => "IntDiv"
  | .intRem => "IntRem"
  | .intAnd => "IntAnd"
  | .intOr => "IntOr"
  | .intXor => "IntXor"
  | .intShl => "IntShl"
  | .intShr => "IntShr"
  | .intNeg => "IntNeg"
  | .longAdd => "LongAdd"
  | .longSub => "LongSub"
  | .longMul => "LongMul"
  | .longNeg => "LongNeg"
  | .floatAdd => "FloatAdd"
  | .floatSub => "FloatSub"
  | .floatMul => "FloatMul"
  | .doubleAdd => "DoubleAdd"
  | .doubleSub => "DoubleSub"
  | .doubleMul => "DoubleMul"
  | .intToLong => "IntToLong"
  | .longToInt => "LongToInt"
  | .intToDouble => "IntToDouble"
  | .doubleToInt => "DoubleToInt"
  | .arrayLength => "ArrayLength"
  | .readInt => "ReadInt"
  | .readReference => "ReadReference"
  | .writeInt => "WriteInt"
  | .writeReference => "WriteReference"

end Operation

end LoopTrace
