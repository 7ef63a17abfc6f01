import LoopTrace.Number.Binary

/-!
# Shortest decimals

The decimal text of a float has the fewest digits that read back to it. The numbers that round to a
float form an interval, from halfway to its lower neighbour to halfway to its upper one, the ends
included exactly when the significand is even. The search tries decimal grids from coarse to fine and
takes the first one with a point in that interval; of two points the nearer one, and of two equally
near ones that which the text's tie rule names.

Two layouts share the digits: the positional one of listings, which never has an exponent, and the one
of stored numbers, which has one where the point would fall far from the digits.
-/

namespace LoopTrace

/-- The decimal `digits * 10 ^ exponent`. -/
structure Decimal where
  digits : Nat
  exponent : Int
  deriving DecidableEq, Repr

/-- Which of two equally near decimals a text takes. -/
inductive Tie where
  /-- The larger one. -/
  | up
  /-- The one with an even last digit. -/
  | even
  deriving DecidableEq, Repr

namespace BinaryFormat

variable (f : BinaryFormat)

/-- The numbers that round to a magnitude, in quarters of its last place. -/
structure Interval where
  /-- Halfway to the lower neighbour. -/
  low : Nat
  /-- The number itself. -/
  value : Nat
  /-- Halfway to the upper neighbour. -/
  high : Nat
  /-- Whether the two ends round to the number as well. -/
  closed : Bool
  /-- The exponent of a quarter of the last place. -/
  exponent : Int

/-- The interval of a magnitude. Below a power of two the lower neighbour is half as far away. -/
def interval (magnitude : Nat) : Interval :=
  let x := f.decode magnitude
  let narrow := magnitude % f.binade = 0 ∧ f.binade < magnitude
  ⟨4 * x.significand - (if narrow then 1 else 2), 4 * x.significand, 4 * x.significand + 2,
    x.significand % 2 = 0, x.exponent - 2⟩

namespace Interval

/-- `units` points of the grid `10 ^ grid` beside `quarters` of the interval's last place, both as
naturals over a common denominator. -/
def common (i : Interval) (grid : Int) (units quarters : Nat) : Nat × Nat :=
  ((units * Nat.pow 10 grid.toNat) <<< (-i.exponent).toNat,
    (quarters <<< i.exponent.toNat) * Nat.pow 10 (-grid).toNat)

/-- Whether a point of a grid lies in the interval. -/
def contains (i : Interval) (grid : Int) (units : Nat) : Bool :=
  let (a, low) := i.common grid units i.low
  let (_, high) := i.common grid units i.high
  (low < a && a < high) || (i.closed && (low = a || a = high))

/-- The point of a grid nearest to the number among its two neighbours, if one of them is in the
interval. -/
def onGrid? (i : Interval) (tie : Tie) (grid : Int) : Option Nat :=
  let (unit, value) := i.common grid 1 i.value
  let below := value / unit
  match i.contains grid below, i.contains grid (below + 1) with
  | false, false => none
  | true, false => some below
  | false, true => some (below + 1)
  | true, true =>
    match compare (2 * value) ((2 * below + 1) * unit), tie with
    | .lt, _ => some below
    | .gt, _ => some (below + 1)
    | .eq, .up => some (below + 1)
    | .eq, .even => some (below + below % 2)

/-- The first of `count` grids, each ten times finer than the one before, with a point in the
interval. -/
def search (i : Interval) (tie : Tie) : Nat → Int → Option Decimal
  | 0, _ => none
  | count + 1, grid =>
    match i.onGrid? tie grid with
    | some units => some ⟨units, grid⟩
    | none => i.search tie count (grid - 1)

/-- The number itself: as a decimal it ends after as many places as its binary form. -/
def exact (i : Interval) : Decimal :=
  ⟨(i.value <<< i.exponent.toNat) * Nat.pow 5 (-i.exponent).toNat, min i.exponent 0⟩

end Interval

/-- The shortest decimal that rounds to a positive finite magnitude. The first grid lies above the
number, whose decimal logarithm is at most a third of its binary one and one more; twenty grids reach
below the last digit that either format needs, and a number that none of them met would be written
out in full. -/
def shortest (tie : Tie) (magnitude : Nat) : Decimal :=
  let i := f.interval magnitude
  let first : Int := ((i.value.log2 : Int) + i.exponent) * 1233 / 4096 + 2
  (i.search tie 20 first).getD i.exact

end BinaryFormat

namespace Decimal

/-- The digits as text. -/
def digitText (d : Decimal) : String := toString d.digits

/-- Where the point stands, counted from the first digit. -/
def point (d : Decimal) : Int := d.digitText.length + d.exponent

/-- A text of zeros. -/
def zeros (n : Nat) : String := String.ofList (List.replicate n '0')

/-- All digits in their places, with a point only where digits follow it. -/
def positional (d : Decimal) : String :=
  if 0 ≤ d.exponent then d.digitText ++ zeros d.exponent.toNat
  else if 0 < d.point then
    String.ofList (d.digitText.toList.take d.point.toNat) ++ "." ++
      String.ofList (d.digitText.toList.drop d.point.toNat)
  else "0." ++ zeros (-d.point).toNat ++ d.digitText

/-- One digit before the point and a power of ten. -/
def scientific (d : Decimal) : String :=
  let power := "e" ++ toString (d.point - 1)
  match d.digitText.toList with
  | [] => power
  | [c] => String.singleton c ++ power
  | c :: rest => String.singleton c ++ "." ++ String.ofList rest ++ power

/-- The layout of stored numbers: positional, with a point, where the point stands at most five places
before the first digit and sixteen after it; with a power of ten elsewhere. -/
def stored (d : Decimal) : String :=
  if d.point ≤ -5 ∨ 16 < d.point then d.scientific
  else if 0 ≤ d.exponent then d.positional ++ ".0"
  else d.positional

end Decimal

namespace BinaryFormat

variable (f : BinaryFormat)

/-- The text of a pattern of bits in listings: positional digits, ties going up. -/
def listed (bits : Nat) : String :=
  let (negative, magnitude) := f.split bits
  let digits :=
    if f.infinity < magnitude then "NaN"
    else if magnitude = f.infinity then "inf"
    else if magnitude = 0 then "0"
    else (f.shortest .up magnitude).positional
  if negative then "-" ++ digits else digits

/-- The text of a finite pattern of bits in stored traces, ties going to the even digit. -/
def stored (bits : Nat) : String :=
  let (negative, magnitude) := f.split bits
  let digits := if magnitude = 0 then "0.0" else (f.shortest .even magnitude).stored
  if negative then "-" ++ digits else digits

end BinaryFormat

namespace Single

/-- The float as listings write it. -/
def text (x : Single) : String := BinaryFormat.single.listed x.bits.toNat

/-- The float as stored traces write it. -/
def stored (x : Single) : String := BinaryFormat.single.stored x.bits.toNat

end Single

namespace Double

/-- The float as listings write it. -/
def text (x : Double) : String := BinaryFormat.double.listed x.bits.toNat

/-- The float as stored traces write it. -/
def stored (x : Double) : String := BinaryFormat.double.stored x.bits.toNat

end Double

end LoopTrace
