/-!
# Binary floating-point numbers

Floats are kept as their bits, so that two of them are equal exactly when they are the same constant,
signed zeros told apart. What a pattern of bits stands for is computed in exact arithmetic: a finite
magnitude is `significand * 2 ^ exponent`, and a quotient of naturals goes to the nearest magnitude,
to the even one of two equally near.
-/

namespace LoopTrace

/-- A binary interchange format. -/
structure BinaryFormat where
  /-- Bits of the significand, the hidden one included. -/
  precision : Nat
  /-- Bits of the exponent field. -/
  exponentBits : Nat

/-- The number `significand * 2 ^ exponent`. -/
structure Binary where
  significand : Nat
  exponent : Int
  deriving DecidableEq, Repr

namespace Binary

/-- A fraction of naturals with the same value. -/
def fraction (x : Binary) : Nat × Nat :=
  (x.significand <<< x.exponent.toNat, 1 <<< (-x.exponent).toNat)

/-- The exact product. -/
def mul (x y : Binary) : Binary := ⟨x.significand * y.significand, x.exponent + y.exponent⟩

/-- The exact quotient, as a fraction. -/
def quotient (x y : Binary) : Nat × Nat :=
  let (a, b) := x.fraction
  let (c, d) := y.fraction
  (a * d, b * c)

end Binary

namespace BinaryFormat

/-- The 32-bit format. -/
def single : BinaryFormat := ⟨24, 8⟩

/-- The 64-bit format. -/
def double : BinaryFormat := ⟨53, 11⟩

variable (f : BinaryFormat)

/-- Number of patterns with one exponent field. -/
def binade : Nat := 1 <<< (f.precision - 1)

/-- The exponent of the last place of the smallest numbers. -/
def leastExponent : Int := 3 - (1 <<< (f.exponentBits - 1) : Nat) - f.precision

/-- The magnitude that stands for infinity; larger ones are no numbers. -/
def infinity : Nat := ((1 <<< f.exponentBits) - 1) * f.binade

/-- The sign bit. -/
def signBit : Nat := 1 <<< (f.exponentBits + f.precision - 1)

/-- What a finite magnitude stands for. -/
def decode (magnitude : Nat) : Binary :=
  let field := magnitude / f.binade
  let digits := magnitude % f.binade
  if field = 0 then ⟨digits, f.leastExponent⟩ else ⟨f.binade + digits, f.leastExponent + (field - 1 : Nat)⟩

/-- The quotient to the nearest natural, a half to the even neighbour. -/
def roundEven (num den : Nat) : Nat :=
  let q := num / den
  let r := num % den
  if 2 * r < den then q
  else if den < 2 * r then q + 1
  else q + q % 2

/-- The magnitude nearest to `num / den`. What is too large for the format becomes infinity. The
exponent of the last place is that of the quotient's leading bit, less the precision; the sum carries
a significand rounded up to a power of two into the next binade. -/
def nearest (num den : Nat) : Nat :=
  let scaled (exponent : Int) : Nat × Nat := (num <<< (-exponent).toNat, den <<< exponent.toNat)
  let guess : Int := max ((num.log2 : Int) - den.log2 - f.precision) f.leastExponent
  let exponent := if 1 <<< f.precision ≤ (scaled guess).1 / (scaled guess).2 then guess + 1 else guess
  let significand := roundEven (scaled exponent).1 (scaled exponent).2
  if num = 0 then 0 else min ((exponent - f.leastExponent).toNat * f.binade + significand) f.infinity

/-- The magnitude nearest to a number. -/
def nearestBinary (x : Binary) : Nat := f.nearest x.fraction.1 x.fraction.2

/-- A pattern's sign and magnitude. -/
def split (bits : Nat) : Bool × Nat := (f.signBit ≤ bits, bits % f.signBit)

/-- The pattern with a sign and magnitude. -/
def join (negative : Bool) (magnitude : Nat) : Nat := if negative then f.signBit + magnitude else magnitude

end BinaryFormat

/-- A 64-bit float. -/
structure Double where
  bits : UInt64
  deriving DecidableEq, Repr, Inhabited

/-- A 32-bit float. -/
structure Single where
  bits : UInt32
  deriving DecidableEq, Repr, Inhabited

namespace Double

/-- The float with a sign and magnitude. -/
def ofMagnitude (negative : Bool) (magnitude : Nat) : Double :=
  ⟨UInt64.ofNat (BinaryFormat.double.join negative magnitude)⟩

/-- Neither an infinity nor a NaN. -/
def IsFinite (x : Double) : Prop := (BinaryFormat.double.split x.bits.toNat).2 < BinaryFormat.double.infinity

instance (x : Double) : Decidable x.IsFinite := inferInstanceAs (Decidable (_ < _))

/-- The float nearest to an integer. -/
def ofInt (n : Int) : Double := ofMagnitude (n < 0) (BinaryFormat.double.nearest n.natAbs 1)

end Double

namespace Single

/-- The float with a sign and magnitude. -/
def ofMagnitude (negative : Bool) (magnitude : Nat) : Single :=
  ⟨UInt32.ofNat (BinaryFormat.single.join negative magnitude)⟩

/-- Neither an infinity nor a NaN. -/
def IsFinite (x : Single) : Prop := (BinaryFormat.single.split x.bits.toNat).2 < BinaryFormat.single.infinity

instance (x : Single) : Decidable x.IsFinite := inferInstanceAs (Decidable (_ < _))

/-- The float nearest to an integer. -/
def ofInt (n : Int) : Single := ofMagnitude (n < 0) (BinaryFormat.single.nearest n.natAbs 1)

/-- The 32-bit float nearest to a finite 64-bit one. -/
def ofDouble (x : Double) : Single :=
  let (negative, magnitude) := BinaryFormat.double.split x.bits.toNat
  ofMagnitude negative (BinaryFormat.single.nearestBinary (BinaryFormat.double.decode magnitude))

end Single

end LoopTrace
