import LoopTrace.Json.Basic

/-!
# Typed reading

How documents stand for values of the library's types. A record is an object with a member for each of
its fields, unknown ones being passed over, or an array of all its fields in their order. A variant
without content is its name; one with content is an object with the name as its only member, and a
variant without content may be written that way too, with `null`.
-/

namespace LoopTrace.Json

/-- The boolean of a document. -/
def bool? : Json → Option Bool
  | .bool b => some b
  | _ => none

/-- The string of a document. -/
def string? : Json → Option String
  | .string s => some s
  | _ => none

/-- The integer of a document, if it lies between the bounds. -/
def integer? (low high : Int) : Json → Option Int
  | .number (.integer n) => if low ≤ n ∧ n ≤ high then some n else none
  | _ => none

/-- The natural number of a document, if it is less than the bound. -/
def natBelow? (bound : Nat) (j : Json) : Option Nat := (j.integer? 0 (bound - 1 : Int)).map Int.toNat

/-- The natural number of 32 bits of a document. -/
def word? (j : Json) : Option Nat := j.natBelow? UInt32.size

/-- The 32-bit float of a document: integers are rounded once, other numbers by way of 64 bits. -/
def single? : Json → Option Single
  | .number (.integer n) => some (Single.ofInt n)
  | .number (.single x) => some x
  | .number (.double x) => some (Single.ofDouble x)
  | _ => none

/-- The 64-bit float of a document. -/
def double? : Json → Option Double
  | .number (.integer n) => some (Double.ofInt n)
  | .number (.double x) => some x
  | _ => none

/-- The list of a document. -/
def list? {α : Type} (read : Json → Option α) : Json → Option (List α)
  | .array elements => elements.mapM read
  | _ => none

/-- The pair of a document. -/
def pair? {α : Type} (read : Json → Option α) : Json → Option (α × α)
  | .array [a, b] => do return (← read a, ← read b)
  | _ => none

/-- An optional field: missing and `null` are none. -/
def optional? {α : Type} (read : Json → Option α) : Option Json → Option (Option α)
  | none | some .null => some none
  | some j => (read j).map some

/-- The member of the given name, if there is one; two are too many. -/
def member? (members : List (String × Json)) (name : String) : Option (Option Json) :=
  match members.filter (·.1 = name) with
  | [] => some none
  | [(_, j)] => some (some j)
  | _ => none

/-- The fields of a record, in the given order, a missing one being `none`. -/
def record? (names : List String) : Json → Option (List (Option Json))
  | .object members => names.mapM (member? members)
  | .array elements => if elements.length = names.length then some (elements.map some) else none
  | _ => none

/-- The name of a variant and its content, if it has one. -/
def variant? : Json → Option (String × Option Json)
  | .string tag => some (tag, none)
  | .object [(tag, content)] => some (tag, some content)
  | _ => none

/-- The variant without content, among `all`, that a document names. -/
def tagged? {α : Type} (all : List α) (tag : α → String) (j : Json) : Option α :=
  match j.variant? with
  | some (name, none) | some (name, some .null) => all.find? (tag · = name)
  | _ => none

end LoopTrace.Json
