import LoopTrace.Json.Token

/-!
# Reading documents

A document is put together from its tokens by a machine that takes one token at a time and keeps the
containers it is inside of. The text has to hold one document and nothing more.
-/

namespace LoopTrace.Json

/-- A member of an object that is being read; its name is missing if that has half a surrogate
pair. -/
abbrev Member := Option String × Json

/-- The place of a value: the containers around it, each with what came before, from the last to the
first. -/
inductive Place where
  /-- The whole document. -/
  | top
  /-- An element of an array. -/
  | element (before : List Json) (outer : Place)
  /-- The member of an object with the given name. -/
  | member (before : List Member) (name : Option String) (outer : Place)

/-- What the machine expects next. -/
inductive Reader where
  /-- A value. -/
  | value (place : Place)
  /-- The first element of an array, or its end. -/
  | firstElement (outer : Place)
  /-- A comma and another element, or the end of the array. -/
  | afterElement (elements : List Json) (outer : Place)
  /-- The name of an object's first member, or its end. -/
  | firstName (outer : Place)
  /-- The name of a further member. -/
  | nextName (members : List Member) (outer : Place)
  /-- The colon after a name. -/
  | colon (members : List Member) (name : Option String) (outer : Place)
  /-- A comma and another member, or the end of the object. -/
  | afterMember (members : List Member) (outer : Place)
  /-- Nothing. -/
  | done (j : Json)

/-- Fills a place with a value. -/
def Place.fill (j : Json) : Place → Reader
  | .top => .done j
  | .element before outer => .afterElement (j :: before) outer
  | .member before name outer => .afterMember ((name, j) :: before) outer

/-- The object with the given members, from the last to the first. -/
def closeObject (members : List Member) : Json :=
  match members.reverse.mapM (fun m => m.1.map fun name => (name, m.2)) with
  | some named => .object named
  | none => .unreadable

/-- The value that a string stands for. -/
def ofText : Option String → Json
  | some s => .string s
  | none => .unreadable

namespace Reader

/-- Starts a value. -/
def startValue (place : Place) : Token → Option Reader
  | .openArray => some (.firstElement place)
  | .openObject => some (.firstName place)
  | .text s => some (place.fill (ofText s))
  | .literal j => some (place.fill j)
  | _ => none

/-- Takes one token. -/
def step : Reader → Token → Option Reader
  | .value place, t => startValue place t
  | .firstElement outer, .closeArray => some (outer.fill (.array []))
  | .firstElement outer, t => startValue (.element [] outer) t
  | .afterElement elements outer, .comma => some (.value (.element elements outer))
  | .afterElement elements outer, .closeArray => some (outer.fill (.array elements.reverse))
  | .firstName outer, .closeObject => some (outer.fill (.object []))
  | .firstName outer, .text name => some (.colon [] name outer)
  | .nextName members outer, .text name => some (.colon members name outer)
  | .colon members name outer, .colon => some (.value (.member members name outer))
  | .afterMember members outer, .comma => some (.nextName members outer)
  | .afterMember members outer, .closeObject => some (outer.fill (closeObject members))
  | _, _ => none

end Reader

/-- The document that a text spells. -/
def parse? (s : String) : Option Json :=
  match (tokens? s.toList).bind fun ts => ts.foldlM Reader.step (.value .top) with
  | some (.done j) => some j
  | _ => none

end LoopTrace.Json
