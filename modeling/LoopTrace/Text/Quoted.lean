import LoopTrace.Text.Invisible

/-!
# Quoted text

Text in double quotes, with escapes for the quote, the backslash and every character that would not
show: line ends, tabs and the null character have escapes of their own, all others their code point in
base sixteen.
-/

namespace LoopTrace.Text

/-- How a character stands between the quotes. -/
def escaped (c : Char) : String :=
  if c = '\x22' then "\\\""
  else if c = '\\' then "\\\\"
  else if c = '\n' then "\\n"
  else if c = '\r' then "\\r"
  else if c = '\t' then "\\t"
  else if c = '\x00' then "\\0"
  else if c < ' ' || c = '\x7f' || ('\x7f' < c && isInvisible c) then
    "\\u\x7b" ++ String.ofList (Nat.toDigits 16 c.toNat) ++ "\x7d"
  else String.singleton c

/-- The text in quotes. -/
def quoted (s : String) : String := "\"" ++ String.join (s.toList.map escaped) ++ "\""

end LoopTrace.Text
