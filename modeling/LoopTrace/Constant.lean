import LoopTrace.Kind
import LoopTrace.Number.Decimal

/-!
# Constants

The constants that a trace records and that generated code holds as immediates. References are the
null reference, the handle of a heap object, and the tag of a guard, which the bailout path hands to
the runtime.
-/

namespace LoopTrace

/-- A constant. -/
inductive Constant where
  | int (n : Int32)
  | long (n : Int64)
  | float (x : Single)
  | double (x : Double)
  /-- The null reference. -/
  | null
  /-- The handle of a heap object that the recorder met. -/
  | object (handle : UInt64)
  /-- The tag of the guard recorded as value `site`. -/
  | guardSite (site : Nat)
  deriving DecidableEq, Repr, Inhabited

namespace Constant

/-- The kind of a constant. -/
def kind : Constant → Kind
  | .int _ => .int
  | .long _ => .long
  | .float _ => .float
  | .double _ => .double
  | .null | .object _ | .guardSite _ => .reference

/-- No constant is void. -/
theorem kind_ne_void (c : Constant) : c.kind ≠ .void := by cases c <;> simp [kind]

/-- The constant as listings write it: a suffix tells numbers of different kinds apart, and handles
are in base sixteen. -/
def text : Constant → String
  | .int n => toString n.toInt
  | .long n => toString n.toInt ++ "L"
  | .float x => x.text ++ "f"
  | .double x => x.text ++ "d"
  | .null => "null"
  | .object handle => "@0x" ++ String.ofList (Nat.toDigits 16 handle.toNat)
  | .guardSite site => "guard#" ++ toString site

end Constant

end LoopTrace
