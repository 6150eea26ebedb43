import WireSchema.Number.Binary

/-!
# Shortest decimal text

A finite pattern is written with the fewest decimal digits that read back as the same pattern, and
of the candidates with that many digits the one nearest to the exact value.  `interval` is the set
of quotients that round to the pattern, with its ends included when the significand is even;
`shortest` tries one digit, then two, and so on.

Positional notation is used for decimal exponents from -4 to 5; otherwise the exponent has a sign
and at least two digits.
-/

namespace WireSchema.Number

/-- A decimal number `0.d₁d₂… · 10 ^ point`. -/
structure Decimal where
  digits : List Nat
  point : Int
  deriving DecidableEq, Repr

/-- The decimal digits of a number, highest first; none for zero. -/
def decimalDigits (n : Nat) : List Nat :=
  (Nat.toDigits 10 n).map (fun c => c.toNat - 48) |>.dropWhile (· == 0)

/-- The quotients that round to a finite nonzero pattern, as `(low, value, high)` over one common
denominator, and whether the ends belong to it.  Below a power of two the step is half as wide. -/
def interval (f : Format) (bits : Nat) : (Nat × Nat × Nat) × Nat × Bool :=
  let (m, e) := f.magnitude bits
  let unit := Nat.pow 2 e
  let lowStep := if m = Nat.pow 2 (f.precision - 1) ∧ 0 < e then unit else 2 * unit
  let value := 4 * m * unit
  ((value - lowStep, value, value + 2 * unit), 4 * Nat.pow 2 f.floor, m % 2 == 0)

/-- The least `k` with `num / den < 10 ^ k`, for a positive quotient, found by walking from an
estimate. -/
def decimalPoint (num den : Nat) : Int :=
  let below (k : Int) : Bool :=
    if 0 ≤ k then num < den * Nat.pow 10 k.toNat else num * Nat.pow 10 (-k).toNat < den
  let estimate : Int := ((num.log2 : Int) - (den.log2 : Int)) * 30103 / 100000 - 1
  let rec climb : Nat → Int → Int
    | 0, k => k
    | fuel + 1, k => if below k then k else climb fuel (k + 1)
  climb 6 estimate

/-- Of the two grid points around the value with `n` digits, the nearest one inside the interval.
The grid step is `10 ^ (point - n)`. -/
def gridHit (low value high den : Nat) (closed : Bool) (point : Int) (n : Nat) : Option Nat :=
  let shift := (n : Int) - point
  let (up, down) :=
    if 0 ≤ shift then (Nat.pow 10 shift.toNat, 1) else (1, Nat.pow 10 (-shift).toNat)
  let unit := den * down
  let floorPoint := value * up / unit
  let inside (g : Nat) : Bool :=
    if closed then low * up ≤ g * unit ∧ g * unit ≤ high * up
    else low * up < g * unit ∧ g * unit < high * up
  let lower := floorPoint
  let upper := floorPoint + 1
  let nearLower := 2 * (value * up - lower * unit)
  match inside lower && decide (0 < lower), inside upper with
  | true, true =>
      if nearLower < unit ∨ (nearLower = unit ∧ lower % 2 = 0) then some lower else some upper
  | true, false => some lower
  | false, true => some upper
  | false, false => none

/-- Tries grids of `n`, `n + 1`, … digits. -/
def firstHit (low value high den : Nat) (closed : Bool) (point : Int) :
    (fuel : Nat) → Nat → Option (Nat × Nat)
  | 0, _ => none
  | fuel + 1, n =>
      match gridHit low value high den closed point n with
      | some g => some (g, n)
      | none => firstHit low value high den closed point fuel (n + 1)

/-- The shortest decimal of a finite pattern; no digits for a zero. -/
def shortest (f : Format) (bits : Nat) : Decimal :=
  if f.isZero bits then ⟨[], 0⟩
  else
    let ((low, value, high), den, closed) := interval f bits
    let point := decimalPoint value den
    match firstHit low value high den closed point 20 1 with
    | some (g, n) =>
        let ds := decimalDigits g
        let trimmed := (ds.reverse.dropWhile (· == 0)).reverse
        ⟨trimmed, point + ((ds.length : Int) - n)⟩
    | none => ⟨[], 0⟩

/-- Digits as characters. -/
def digitChars (ds : List Nat) : List Char := ds.map fun d => Char.ofNat (48 + d)

/-- A decimal in positional notation. -/
def positional (d : Decimal) : List Char :=
  if d.point ≤ 0 then
    '0' :: '.' :: List.replicate (-d.point).toNat '0' ++ digitChars d.digits
  else
    let n := d.point.toNat
    let whole := digitChars (d.digits.take n) ++ List.replicate (n - d.digits.length) '0'
    let frac := digitChars (d.digits.drop n)
    if frac.isEmpty then whole else whole ++ '.' :: frac

/-- A decimal with an exponent of at least two digits. -/
def scientific (d : Decimal) : List Char :=
  let lead := digitChars (d.digits.take 1)
  let frac := digitChars (d.digits.drop 1)
  let e := d.point - 1
  let mark := if e < 0 then '-' else '+'
  let body := Nat.toDigits 10 e.natAbs
  let padded := if body.length < 2 then '0' :: body else body
  lead ++ (if frac.isEmpty then [] else '.' :: frac) ++ 'e' :: mark :: padded

/-- The text of a pattern. -/
def floatText (f : Format) (bits : Nat) : String :=
  if f.isNaN bits then "NaN"
  else
    let sign := if f.negative bits then "-" else ""
    if !f.isFinite bits then (if f.negative bits then "-Inf" else "+Inf")
    else if f.isZero bits then sign ++ "0"
    else
      let d := shortest f bits
      let e := d.point - 1
      sign ++ String.ofList (if e < -4 ∨ 6 ≤ e then scientific d else positional d)

end WireSchema.Number
