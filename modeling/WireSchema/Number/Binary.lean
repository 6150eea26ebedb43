/-!
# Binary floating point as bit patterns

A format has `precision` significant bits (the leading one included) and `expBits` exponent bits.
A pattern is a sign bit, a biased exponent and a fraction.  Everything here is exact arithmetic on
natural numbers: `Format.value?` reads a finite pattern as `m · 2 ^ q`, and `Format.round` takes
the pattern nearest to a quotient of natural numbers, ties to the even fraction.
-/

namespace WireSchema.Number

/-- A binary interchange format. -/
structure Format where
  precision : Nat
  expBits : Nat
  deriving DecidableEq, Repr

/-- Thirty-two bits. -/
def Format.single : Format := ⟨24, 8⟩

/-- Sixty-four bits. -/
def Format.double : Format := ⟨53, 11⟩

namespace Format

/-- Total width in bits. -/
def width (f : Format) : Nat := f.precision + f.expBits

/-- The biased exponent of infinities and NaNs. -/
def topExp (f : Format) : Nat := Nat.pow 2 f.expBits - 1

/-- Minus the exponent of the least significant bit of a subnormal. -/
def floor (f : Format) : Nat := Nat.pow 2 (f.expBits - 1) - 2 + (f.precision - 1)

/-- The sign bit of a pattern. -/
def negative (f : Format) (bits : Nat) : Bool := bits / Nat.pow 2 (f.width - 1) % 2 == 1

/-- The biased exponent of a pattern. -/
def exponent (f : Format) (bits : Nat) : Nat :=
  bits / Nat.pow 2 (f.precision - 1) % Nat.pow 2 f.expBits

/-- The fraction of a pattern. -/
def fraction (f : Format) (bits : Nat) : Nat := bits % Nat.pow 2 (f.precision - 1)

/-- Neither infinite nor NaN. -/
def isFinite (f : Format) (bits : Nat) : Bool := f.exponent bits != f.topExp

/-- Not a number. -/
def isNaN (f : Format) (bits : Nat) : Bool :=
  f.exponent bits == f.topExp && f.fraction bits != 0

/-- Either zero. -/
def isZero (f : Format) (bits : Nat) : Bool := f.exponent bits == 0 && f.fraction bits == 0

/-- Equality of the numbers two patterns denote: a NaN equals nothing, the two zeros are equal. -/
def sameNumber (f : Format) (a b : Nat) : Bool :=
  !f.isNaN a && !f.isNaN b && (a == b || (f.isZero a && f.isZero b))

/-- The significand of a finite pattern, and the power of two it counts, offset by `floor`: the
magnitude is `m · 2 ^ e / 2 ^ floor`. -/
def magnitude (f : Format) (bits : Nat) : Nat × Nat :=
  if f.exponent bits = 0 then (f.fraction bits, 0)
  else (f.fraction bits + Nat.pow 2 (f.precision - 1), f.exponent bits - 1)

/-- The pattern of an infinity. -/
def infinity (f : Format) : Nat := f.topExp * Nat.pow 2 (f.precision - 1)

/-- Rounds a quotient to the nearest natural number, ties to even. -/
def roundQuotient (num den : Nat) : Nat :=
  let q := num / den
  let r := num % den
  if den < 2 * r ∨ (2 * r = den ∧ q % 2 = 1) then q + 1 else q

/-- The pattern (without sign) nearest to `num / den`, ties to even; at or beyond the largest
finite magnitude plus half a step, the infinity.

The quotient is first scaled to units of the least subnormal.  Let `s` be how far its bit length
exceeds the precision: dividing by `2 ^ s` leaves a significand of the right length, and adding
`s · 2 ^ (precision - 1)` puts the exponent in place; a carry out of the significand lands in the
exponent by itself. -/
def round (f : Format) (num den : Nat) : Nat :=
  let scaled := num * Nat.pow 2 f.floor
  let whole := scaled / den
  let s := whole.log2 + 1 - f.precision
  let m := roundQuotient scaled (den * Nat.pow 2 s)
  min (s * Nat.pow 2 (f.precision - 1) + m) f.infinity

/-- Puts a sign bit in front of a pattern. -/
def withSign (f : Format) (negative : Bool) (bits : Nat) : Nat :=
  if negative then Nat.pow 2 (f.width - 1) + bits else bits

/-- Carries a pattern of one format over to another: the number is rounded, infinities stay, and a
NaN keeps its leading payload bits and becomes quiet. -/
def convert (src dst : Format) (bits : Nat) : Nat :=
  let neg := src.negative bits
  if src.isNaN bits then
    let payload := src.fraction bits * Nat.pow 2 dst.precision / Nat.pow 2 src.precision
    let quiet := Nat.pow 2 (dst.precision - 2)
    dst.withSign neg (dst.infinity + (if payload / quiet % 2 = 1 then payload else payload + quiet))
  else if src.isFinite bits then
    let (m, e) := src.magnitude bits
    dst.withSign neg (dst.round (m * Nat.pow 2 e) (Nat.pow 2 src.floor))
  else dst.withSign neg dst.infinity

/-- The integer part of a finite pattern, toward zero. -/
def truncate? (f : Format) (bits : Nat) : Option Int :=
  if f.isFinite bits then
    let (m, e) := f.magnitude bits
    let n := m * Nat.pow 2 e / Nat.pow 2 f.floor
    some (if f.negative bits then -(n : Int) else n)
  else none

end Format

end WireSchema.Number
