import LoopTrace.Json.Basic

/-!
# Writing documents

Two layouts: one on a single line without spaces, and one with a line for each element and member,
indented by two spaces for each container around it.
-/

namespace LoopTrace.Json

/-- How a character stands inside quotes. -/
def escape (c : Char) : String :=
  if c = '\x22' then "\\\""
  else if c = '\\' then "\\\\"
  else if c = '\x08' then "\\b"
  else if c = '\x0c' then "\\f"
  else if c = '\n' then "\\n"
  else if c = '\r' then "\\r"
  else if c = '\t' then "\\t"
  else if c < ' ' then
    "\\u00" ++ String.ofList (Nat.toDigits 16 (c.toNat / 16)) ++ String.ofList (Nat.toDigits 16 (c.toNat % 16))
  else String.singleton c

/-- A string in quotes. -/
def quote (s : String) : String := "\"" ++ String.join (s.toList.map escape) ++ "\""

/-- The text of a number. -/
def Number.text : Number → String
  | .integer n => toString n
  | .single x => x.stored
  | .double x => x.stored

mutual

/-- The document on one line. -/
def compact : Json → String
  | .null | .unreadable => "null"
  | .bool b => if b then "true" else "false"
  | .number n => n.text
  | .string s => quote s
  | .array elements => "[" ++ ",".intercalate (compactElements elements) ++ "]"
  | .object members => "\x7b" ++ ",".intercalate (compactMembers members) ++ "\x7d"

/-- Each element on one line. -/
def compactElements : List Json → List String
  | [] => []
  | j :: rest => j.compact :: compactElements rest

/-- Each member on one line. -/
def compactMembers : List (String × Json) → List String
  | [] => []
  | (name, j) :: rest => (quote name ++ ":" ++ j.compact) :: compactMembers rest

end

/-- Lines between brackets, each after `margin` and two spaces; nothing at all between them if there
are no lines. -/
def enclose (opening closing margin : String) (lines : List String) : String :=
  if lines.isEmpty then opening ++ closing
  else
    opening ++ "\n" ++ ",\n".intercalate (lines.map fun line => margin ++ "  " ++ line) ++ "\n" ++
      margin ++ closing

mutual

/-- The document on indented lines, `margin` being the indentation of the first. -/
def indented (margin : String) : Json → String
  | .array elements => enclose "[" "]" margin (indentedElements (margin ++ "  ") elements)
  | .object members => enclose "\x7b" "\x7d" margin (indentedMembers (margin ++ "  ") members)
  | j => j.compact

/-- Each element on indented lines. -/
def indentedElements (margin : String) : List Json → List String
  | [] => []
  | j :: rest => j.indented margin :: indentedElements margin rest

/-- Each member on indented lines. -/
def indentedMembers (margin : String) : List (String × Json) → List String
  | [] => []
  | (name, j) :: rest => (quote name ++ ": " ++ j.indented margin) :: indentedMembers margin rest

end

/-- The document on indented lines. -/
def pretty (j : Json) : String := j.indented ""

end LoopTrace.Json
