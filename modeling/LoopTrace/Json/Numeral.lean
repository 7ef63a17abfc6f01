import LoopTrace.Json.Basic

/-!
# Numerals

Numbers as JSON texts spell them, and what they stand for. A numeral with neither fraction nor exponent
is an integer if it fits 64 bits, with or without a sign; negative zero is a float. Every other numeral
is a 64-bit float, found in two roundings: as many of its digits as fit 64 bits are rounded to a float,
and that is multiplied or divided by the float nearest to the power of ten that is left. Digits that no
longer fit count as zeros before the point and not at all after it. A numeral that comes out infinite
stands for nothing.
-/

namespace LoopTrace.Json

/-- The parts of a number's text. -/
structure Numeral where
  /-- Whether a minus sign stands in front. -/
  negative : Bool
  /-- The digits before the point, without leading zeros. -/
  whole : List Nat
  /-- The digits after the point. -/
  fraction : List Nat
  /-- The power of ten that is written out, if any. -/
  power : Option Int
  deriving DecidableEq, Repr

namespace Numeral

/-- The digits at the front of a text, and what follows them. -/
def takeDigits (s : List Char) : List Nat × List Char :=
  ((s.takeWhile Char.isDigit).map fun c => c.toNat - 48, s.dropWhile Char.isDigit)

/-- The natural number with the given digits after `n`. -/
def ofDigits (n : Nat) (ds : List Nat) : Nat := ds.foldl (fun m d => 10 * m + d) n

/-- The exponent part, which ends the text. -/
def power? : List Char → Option (Option Int)
  | [] => some none
  | c :: s =>
    if c = 'e' ∨ c = 'E' then
      let (negative, s) : Bool × List Char :=
        match s with
        | '-' :: s => (true, s)
        | '+' :: s => (false, s)
        | s => (false, s)
      match takeDigits s with
      | (d :: ds, []) =>
        let n : Int := ofDigits 0 (d :: ds)
        some (some (if negative then -n else n))
      | _ => none
    else none

/-- The numeral that a text spells in full. -/
def ofText? (s : List Char) : Option Numeral :=
  let (negative, s) : Bool × List Char :=
    match s with
    | '-' :: s => (true, s)
    | s => (false, s)
  match takeDigits s with
  | ([], _) => none
  | (0 :: _ :: _, _) => none
  | (whole, '.' :: s) =>
    match takeDigits s with
    | ([], _) => none
    | (fraction, s) => (power? s).map fun power => ⟨negative, whole, fraction, power⟩
  | (whole, s) => (power? s).map fun power => ⟨negative, whole, [], power⟩

/-- One more than the largest number of 64 bits. -/
def wordLimit : Nat := UInt64.size

/-- Appends digits to a number of 64 bits up to the first one that no longer fits. The second component
counts those that are left. -/
def absorb : Nat → List Nat → Nat × Nat
  | n, [] => (n, 0)
  | n, d :: ds => if 10 * n + d < wordLimit then absorb (10 * n + d) ds else (n, ds.length + 1)

/-- The magnitude of the float nearest to a power of ten. -/
def powerOfTen (n : Nat) : Binary :=
  BinaryFormat.double.decode (BinaryFormat.double.nearest (Nat.pow 10 n) 1)

/-- The magnitude of the float nearest to the quotient of two. -/
def divide (x y : Binary) : Nat :=
  let (num, den) := x.quotient y
  BinaryFormat.double.nearest num den

/-- The magnitude of `significand * 10 ^ power`, in the two roundings told above. The least power of
ten that a float holds is `10 ^ -308`; below it the division is done in two steps, and two full steps
leave nothing of a number of 64 bits. -/
def scale (significand : Nat) (power : Int) : Nat :=
  let start := BinaryFormat.double.decode (BinaryFormat.double.nearest significand 1)
  if significand = 0 then 0
  else if 308 < power then BinaryFormat.double.infinity
  else if 0 ≤ power then BinaryFormat.double.nearestBinary (start.mul (powerOfTen power.toNat))
  else if -308 ≤ power then divide start (powerOfTen (-power).toNat)
  else if -616 ≤ power then
    divide (BinaryFormat.double.decode (divide start (powerOfTen 308))) (powerOfTen (-power - 308).toNat)
  else 0

/-- The float that the numeral stands for, if it is finite. -/
def double? (n : Numeral) : Option Double :=
  let (significand, dropped) := absorb 0 n.whole
  let (significand, ignored) := absorb significand n.fraction
  let power := (dropped : Int) - (n.fraction.length - ignored : Nat) + n.power.getD 0
  let magnitude := scale significand power
  if magnitude < BinaryFormat.double.infinity then some (Double.ofMagnitude n.negative magnitude) else none

/-- The integer that the numeral stands for, if it is one of 64 bits. -/
def integer? (n : Numeral) : Option Int :=
  let magnitude := ofDigits 0 n.whole
  if n.fraction ≠ [] ∨ n.power.isSome then none
  else if n.negative then
    if magnitude ≠ 0 ∧ magnitude ≤ 1 <<< 63 then some (-magnitude) else none
  else if magnitude < wordLimit then some magnitude
  else none

/-- What the numeral stands for in a document. -/
def value (n : Numeral) : Json :=
  match n.integer?, n.double? with
  | some k, _ => .number (.integer k)
  | none, some x => .number (.double x)
  | none, none => .unreadable

end Numeral

end LoopTrace.Json
