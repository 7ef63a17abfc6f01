/-!
# Comparators

The six comparisons of a guard. A guard stays on the trace while its comparison holds, so the branch
that leaves the trace tests the complement. For ordered operands exactly one of the two holds; a
comparison with a NaN satisfies neither, `notEqual` apart.
-/

namespace LoopTrace

/-- A comparison of two operands. -/
inductive Comparator where
  | equal
  | notEqual
  | lessThan
  | lessEqual
  | greaterThan
  | greaterEqual
  deriving DecidableEq, Repr, Inhabited

namespace Comparator

/-- All comparators. -/
def all : List Comparator := [.equal, .notEqual, .lessThan, .lessEqual, .greaterThan, .greaterEqual]

theorem mem_all (c : Comparator) : c ∈ all := by cases c <;> simp [all]

/-- The comparison that holds of ordered operands exactly when this one does not. -/
def complement : Comparator → Comparator
  | .equal => .notEqual
  | .notEqual => .equal
  | .lessThan => .greaterEqual
  | .lessEqual => .greaterThan
  | .greaterThan => .lessEqual
  | .greaterEqual => .lessThan

@[simp] theorem complement_complement (c : Comparator) : c.complement.complement = c := by
  cases c <;> rfl

/-- The comparator as listings write it. -/
def symbol : Comparator → String
  | .equal => "=="
  | .notEqual => "!="
  | .lessThan => "<"
  | .lessEqual => "<="
  | .greaterThan => ">"
  | .greaterEqual => ">="

/-- The comparator's name in stored traces. -/
def tag : Comparator → String
  | .equal => "Equal"
  | .notEqual => "NotEqual"
  | .lessThan => "LessThan"
  | .lessEqual => "LessEqual"
  | .greaterThan => "GreaterThan"
  | .greaterEqual => "GreaterEqual"

end Comparator

end LoopTrace
