/-!
# Kinds

The six primitive kinds. Every value of a trace and every slot of the code generated for it has one.
A method that returns nothing has the result kind `void`; no value is ever of that kind, but slots of
it fill the parameter positions that carry nothing.
-/

namespace LoopTrace

/-- A primitive kind. -/
inductive Kind where
  /-- 32-bit integers. -/
  | int
  /-- 32-bit floats. -/
  | float
  /-- 64-bit integers. -/
  | long
  /-- 64-bit floats. -/
  | double
  /-- Heap references. -/
  | reference
  /-- No value. -/
  | void
  deriving DecidableEq, Repr, Inhabited

namespace Kind

/-- All kinds, in the order of their indices. -/
def all : List Kind := [.int, .float, .long, .double, .reference, .void]

/-- The position of a kind in `all`. -/
def index : Kind → Nat
  | .int => 0
  | .float => 1
  | .long => 2
  | .double => 3
  | .reference => 4
  | .void => 5

theorem mem_all (k : Kind) : k ∈ all := by cases k <;> simp [all]

/-- Wide kinds take two interpreter locals. -/
def isWide : Kind → Bool
  | .long | .double => true
  | _ => false

/-- How many interpreter locals a value of the kind takes. -/
def width (k : Kind) : Nat := if k.isWide then 2 else 1

/-- The kind's name in signatures and listings. -/
def name : Kind → String
  | .int => "int"
  | .float => "float"
  | .long => "long"
  | .double => "double"
  | .reference => "reference"
  | .void => "void"

/-- The letter that opens the name of a slot of the kind. -/
def letter : Kind → String
  | .int => "i"
  | .float => "f"
  | .long => "l"
  | .double => "d"
  | .reference => "r"
  | .void => "v"

/-- The kind's name in stored traces. -/
def tag : Kind → String
  | .int => "Int"
  | .float => "Float"
  | .long => "Long"
  | .double => "Double"
  | .reference => "Reference"
  | .void => "Void"

end Kind

end LoopTrace
