import LoopTrace.Kind

/-!
# Signatures

The methods that traces mention: the one that holds the recorded loop and those it calls. How a method
is entered decides the convention by which it is called.
-/

namespace LoopTrace

/-- How a method is entered. -/
inductive Entry where
  /-- From managed code, as an ordinary method. -/
  | managed
  /-- A native method, called from managed code. -/
  | nativeExit
  /-- A managed method only ever entered from native code. -/
  | vmEntry
  /-- A template of the baseline compiler. -/
  | template
  deriving DecidableEq, Repr, Inhabited

namespace Entry

/-- All ways of entering a method. -/
def all : List Entry := [.managed, .nativeExit, .vmEntry, .template]

theorem mem_all (e : Entry) : e ∈ all := by cases e <;> simp [all]

/-- The entry's name in stored traces. -/
def tag : Entry → String
  | .managed => "Managed"
  | .nativeExit => "NativeExit"
  | .vmEntry => "VmEntry"
  | .template => "Template"

end Entry

/-- A method of the traced program. -/
structure Signature where
  /-- The type that declares the method. -/
  holder : String
  /-- The method's own name. -/
  name : String
  /-- The kinds of its parameters. -/
  parameters : List Kind
  /-- The kind of its result, `void` for none. -/
  result : Kind
  /-- How it is entered. -/
  entry : Entry := .managed
  deriving DecidableEq, Repr, Inhabited

namespace Signature

/-- The name by which code and messages refer to the method. -/
def qualifiedName (s : Signature) : String := s.holder ++ "." ++ s.name

/-- The method with the kinds of its parameters and its result. -/
def text (s : Signature) : String :=
  s.qualifiedName ++ "(" ++ ", ".intercalate (s.parameters.map Kind.name) ++ "): " ++ s.result.name

end Signature

end LoopTrace
