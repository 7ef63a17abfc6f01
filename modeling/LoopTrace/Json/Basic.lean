import LoopTrace.Number.Decimal

/-!
# JSON documents

The documents in which traces are stored. A number is an integer or a float of either width; the width
of a float decides how many digits are written. One constructor stands for the values that are well
formed and yet carry nothing a field could take, so that a field nobody asks for may hold one of them.
-/

namespace LoopTrace

namespace Json

/-- A number of a document. -/
inductive Number where
  | integer (n : Int)
  | single (x : Single)
  | double (x : Double)
  deriving DecidableEq, Repr, Inhabited

end Json

/-- A JSON document. -/
inductive Json where
  | null
  | bool (b : Bool)
  | number (n : Json.Number)
  | string (s : String)
  | array (elements : List Json)
  /-- Members in the order of the text, repeated names included. -/
  | object (members : List (String × Json))
  /-- A number beyond the range of floats, a string with half a surrogate pair, or an object with such
  a string for a name. -/
  | unreadable
  deriving Inhabited

namespace Json

/-- A natural number as a document. -/
def ofNat (n : Nat) : Json := .number (.integer n)

/-- An optional value as a document, `null` for none. -/
def ofOption {α : Type} (write : α → Json) : Option α → Json
  | none => .null
  | some a => write a

/-- A list as a document. -/
def ofList {α : Type} (write : α → Json) (xs : List α) : Json := .array (xs.map write)

/-- A document with one member, as variants with a content are written. -/
def variant (tag : String) (content : Json) : Json := .object [(tag, content)]

/-- A 32-bit float as a document; JSON has no infinities. -/
def ofSingle (x : Single) : Json := if x.IsFinite then .number (.single x) else .null

/-- A 64-bit float as a document; JSON has no infinities. -/
def ofDouble (x : Double) : Json := if x.IsFinite then .number (.double x) else .null

end Json

end LoopTrace
