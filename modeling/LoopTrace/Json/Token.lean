import LoopTrace.Json.Numeral

/-!
# Tokens

A text is split into tokens by a machine that takes one character at a time. Words are the three
literals and the numerals; strings are kept until their closing quote, escapes as they were met, and
only then put together, since the two halves of a surrogate pair are two escapes.
-/

namespace LoopTrace.Json

/-- A token of a document's text. -/
inductive Token where
  | openArray
  | closeArray
  | openObject
  | closeObject
  | comma
  | colon
  /-- A string in quotes, `none` if it holds half a surrogate pair. -/
  | text (s : Option String)
  /-- A literal or a number. -/
  | literal (j : Json)
  deriving Inhabited

/-- What a string in quotes is made of. -/
inductive Piece where
  /-- A character, written as itself or by a short escape. -/
  | char (c : Char)
  /-- A unit of 16 bits, written by its four digits in base sixteen. -/
  | unit (n : Nat)
  deriving DecidableEq, Repr

namespace Piece

/-- The first half of a surrogate pair. -/
def IsHigh (n : Nat) : Prop := 0xD800 ≤ n ∧ n < 0xDC00

/-- The second half of a surrogate pair. -/
def IsLow (n : Nat) : Prop := 0xDC00 ≤ n ∧ n < 0xE000

instance (n : Nat) : Decidable (IsHigh n) := inferInstanceAs (Decidable (_ ∧ _))
instance (n : Nat) : Decidable (IsLow n) := inferInstanceAs (Decidable (_ ∧ _))

/-- The character of a surrogate pair. -/
def pair (high low : Nat) : Char := Char.ofNat (0x10000 + (high - 0xD800) * 0x400 + (low - 0xDC00))

/-- Puts a string together from its last piece to its first. `low` is the second half of a pair whose
first half has to come next; `done` is what follows. -/
def assemble (low : Option Nat) (done : List Char) : List Piece → Option (List Char)
  | [] => if low.isSome then none else some done
  | .char c :: rest => if low.isSome then none else assemble none (c :: done) rest
  | .unit n :: rest =>
    match low with
    | some l => if IsHigh n then assemble none (pair n l :: done) rest else none
    | none =>
      if IsLow n then assemble (some n) done rest
      else if IsHigh n then none
      else assemble none (Char.ofNat n :: done) rest

/-- The string made of pieces, given from the last to the first. -/
def string? (reversed : List Piece) : Option String := (assemble none [] reversed).map String.ofList

end Piece

/-- The space that may stand between tokens. -/
def isBlank (c : Char) : Bool := c = ' ' || c = '\t' || c = '\n' || c = '\r'

/-- The characters that literals and numerals are made of. -/
def isWordChar (c : Char) : Bool := c.isAlphanum || c = '-' || c = '+' || c = '.'

/-- The value of a digit in base sixteen. -/
def hexDigit? (c : Char) : Option Nat :=
  if c.isDigit then some (c.toNat - 48)
  else if 'a' ≤ c ∧ c ≤ 'f' then some (c.toNat - 87)
  else if 'A' ≤ c ∧ c ≤ 'F' then some (c.toNat - 55)
  else none

/-- The character of a short escape. -/
def escaped? : Char → Option Char
  | '\x22' => some '\x22'
  | '\\' => some '\\'
  | '/' => some '/'
  | 'b' => some '\x08'
  | 'f' => some '\x0c'
  | 'n' => some '\n'
  | 'r' => some '\r'
  | 't' => some '\t'
  | _ => none

/-- The token of a character that is one by itself. -/
def mark? : Char → Option Token
  | '[' => some .openArray
  | ']' => some .closeArray
  | '\x7b' => some .openObject
  | '\x7d' => some .closeObject
  | ',' => some .comma
  | ':' => some .colon
  | _ => none

/-- The token that a word spells. -/
def ofWord? (w : List Char) : Option Token :=
  if w = "null".toList then some (.literal .null)
  else if w = "true".toList then some (.literal (.bool true))
  else if w = "false".toList then some (.literal (.bool false))
  else (Numeral.ofText? w).map fun n => .literal n.value

/-- Where the machine stands in the text. What has been read is kept from the last to the first. -/
inductive Mode where
  /-- Between tokens. -/
  | between
  /-- In a word. -/
  | word (letters : List Char)
  /-- In a string. -/
  | text (pieces : List Piece)
  /-- In a string, after a backslash. -/
  | escape (pieces : List Piece)
  /-- In a string, after some of the four digits of a unit, which number `count` and make up `n`. -/
  | unit (pieces : List Piece) (count n : Nat)

/-- The machine that splits a text: the tokens so far, from the last to the first, and where it
stands. -/
structure Lexer where
  tokens : List Token := []
  mode : Mode := .between

namespace Lexer

/-- Takes a character that stands between tokens. -/
def start (l : Lexer) (c : Char) : Option Lexer :=
  if isBlank c then some ⟨l.tokens, .between⟩
  else if c = '\x22' then some ⟨l.tokens, .text []⟩
  else if isWordChar c then some ⟨l.tokens, .word [c]⟩
  else (mark? c).map fun t => ⟨t :: l.tokens, .between⟩

/-- Ends a word. -/
def endWord (l : Lexer) (letters : List Char) : Option Lexer :=
  (ofWord? letters.reverse).map fun t => ⟨t :: l.tokens, .between⟩

/-- Takes one character. -/
def step (l : Lexer) (c : Char) : Option Lexer :=
  match l.mode with
  | .between => l.start c
  | .word letters =>
    if isWordChar c then some { l with mode := .word (c :: letters) }
    else (l.endWord letters).bind fun l => l.start c
  | .text pieces =>
    if c = '\x22' then some ⟨.text (Piece.string? pieces) :: l.tokens, .between⟩
    else if c = '\\' then some { l with mode := .escape pieces }
    else if c < ' ' then none
    else some { l with mode := .text (.char c :: pieces) }
  | .escape pieces =>
    if c = 'u' then some { l with mode := .unit pieces 0 0 }
    else (escaped? c).map fun e => { l with mode := .text (.char e :: pieces) }
  | .unit pieces count n =>
    (hexDigit? c).map fun d =>
      if count = 3 then { l with mode := .text (.unit (16 * n + d) :: pieces) }
      else { l with mode := .unit pieces (count + 1) (16 * n + d) }

/-- The tokens once the text has ended. -/
def finish (l : Lexer) : Option (List Token) :=
  match l.mode with
  | .between => some l.tokens.reverse
  | .word letters => (l.endWord letters).map fun l => l.tokens.reverse
  | _ => none

end Lexer

/-- The tokens of a text. -/
def tokens? (s : List Char) : Option (List Token) :=
  (s.foldlM Lexer.step {}).bind Lexer.finish

end LoopTrace.Json
