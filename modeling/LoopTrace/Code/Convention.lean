import LoopTrace.Signature

/-!
# Calling conventions

How arguments and results are passed is not decided by the code that emits a call. It is looked up in
the binary interface, which names a convention for every method and for every entry of the runtime.
-/

namespace LoopTrace

/-- A calling convention. -/
inductive Convention where
  /-- Managed code calling managed code. -/
  | managed
  /-- Managed code calling a native method. -/
  | nativeExit
  /-- Native code entering the machine. -/
  | vmEntry
  /-- A template of the baseline compiler. -/
  | template
  /-- Generated traces calling the runtime. -/
  | trace
  deriving DecidableEq, Repr, Inhabited

namespace Convention

/-- All conventions. -/
def all : List Convention := [.managed, .nativeExit, .vmEntry, .template, .trace]

theorem mem_all (c : Convention) : c ∈ all := by cases c <;> simp [all]

/-- The convention's name, in listings and stored code alike. -/
def tag : Convention → String
  | .managed => "Managed"
  | .nativeExit => "NativeExit"
  | .vmEntry => "VmEntry"
  | .template => "Template"
  | .trace => "Trace"

end Convention

/-- An entry of the runtime, known by its identity. -/
inductive Stub where
  /-- Hands control back to the baseline tier; takes the tag of the guard that failed. -/
  | bailout
  /-- Saves the registers before the bailout path calls anything. -/
  | saveRegisters
  deriving DecidableEq, Repr, Inhabited

namespace Stub

/-- All entries of the runtime. -/
def all : List Stub := [.bailout, .saveRegisters]

theorem mem_all (s : Stub) : s ∈ all := by cases s <;> simp [all]

/-- The name under which the runtime exports the entry. -/
def symbol : Stub → String
  | .bailout => "hotpath_bailout"
  | .saveRegisters => "hotpath_save_registers"

/-- The entry's name in stored code. -/
def tag : Stub → String
  | .bailout => "Bailout"
  | .saveRegisters => "SaveRegisters"

end Stub

/-- A binary interface: the conventions of all calls. -/
structure Abi where
  name : String := "custom"
  ofMethod : Signature → Convention
  ofStub : Stub → Convention := fun _ => .trace

namespace Abi

/-- One convention for each way of entering a method. -/
def standard : Abi where
  name := "standard"
  ofMethod s :=
    match s.entry with
    | .managed => .managed
    | .nativeExit => .nativeExit
    | .vmEntry => .vmEntry
    | .template => .template

/-- One convention for all methods. -/
def uniform (c : Convention) : Abi where
  ofMethod _ := c

/-- One convention for all methods and one for the runtime, under a name. -/
def fixed (name : String) (methods stubs : Convention) : Abi where
  name := name
  ofMethod _ := methods
  ofStub _ := stubs

end Abi

end LoopTrace
