import WireSchema.Number.IntegerLiteral
import WireSchema.Number.Binary

/-!
# Floating-point literals

A literal is an optional sign, digits with at most one point, and an optional decimal exponent; or
the same in hexadecimal with a mandatory binary exponent after `p`; or one of the words `inf`,
`infinity`, `nan` in any case.  The value is rounded once, from the exact quotient, to the requested
format.

There is room for `maxDigits` decimal digits.  More of them in front of the point are an overflow
that goes unnoticed unless the first nineteen digits settle the result: the digits without room then
count neither for the value nor for its size.
-/

namespace WireSchema.Number

/-- The digits of a literal: their value as an integer and how many of all digits stood after the
point. -/
structure Significand where
  value : Nat := 0
  afterPoint : Nat := 0
  sawDigit : Bool := false
  /-- How many digits there are from the first that is not zero. -/
  digits : Nat := 0
  /-- How many of those stood before the point. -/
  whole : Nat := 0
  deriving Repr

/-- Reads digits, underscores and at most one point. -/
def readSignificand (base : Nat) : Bool → Significand → List Char → Significand × List Char
  | _, acc, [] => (acc, [])
  | dot, acc, c :: cs =>
      if c = '_' then readSignificand base dot acc cs
      else if c = '.' then
        if dot then (acc, c :: cs) else readSignificand base true acc cs
      else
        match digitValue c with
        | none => (acc, c :: cs)
        | some d =>
            if base ≤ d then (acc, c :: cs)
            else
              let counts := if acc.value = 0 ∧ d = 0 then 0 else 1
              readSignificand base dot
                { value := acc.value * base + d
                  afterPoint := if dot then acc.afterPoint + 1 else acc.afterPoint
                  sawDigit := true
                  digits := acc.digits + counts
                  whole := if dot then acc.whole else acc.whole + counts } cs

/-- Reads the digits of an exponent; it stops growing once it is far out of every range. -/
def readExponent : Nat → List Char → Nat × List Char
  | acc, [] => (acc, [])
  | acc, c :: cs =>
      if c = '_' then readExponent acc cs
      else if c.isDigit then
        readExponent (if acc < 10000 then acc * 10 + (c.toNat - 48) else acc) cs
      else (acc, c :: cs)

/-- Reads an optional sign, then the digits of an exponent, of which there must be one. -/
def readSignedExponent (cs : List Char) : Option (Int × List Char) :=
  let digits (sign : Int) (cs : List Char) : Option (Int × List Char) :=
    match cs with
    | c :: _ => if c.isDigit then
        let (e, rest) := readExponent 0 cs
        some (sign * e, rest)
      else none
    | [] => none
  match cs with
  | '+' :: rest => digits 1 rest
  | '-' :: rest => digits (-1) rest
  | rest => digits 1 rest

/-- The pattern nearest to `m · base ^ e` for the base two or ten, without sign.  A number beyond
every finite one or below half of the least is settled without computing the power: ten lies between
the third and the fourth power of two. -/
def scaleRound (f : Format) (m base : Nat) (e : Int) : Nat :=
  if m = 0 then 0
  else
    let least := (m.log2 : Int) + (if base = 2 then e else min (3 * e) (4 * e))
    let most := (m.log2 : Int) + 1 + (if base = 2 then e else max (3 * e) (4 * e))
    if 2 * (Nat.pow 2 f.expBits : Int) < least then f.infinity
    else if most < -(2 * (f.floor : Int)) then 0
    else if 0 ≤ e then f.round (m * Nat.pow base e.toNat) 1
    else f.round m (Nat.pow base (-e).toNat)

/-! ## Long literals -/

/-- How many decimal digits there is room for. -/
def maxDigits : Nat := 800

/-- The pattern of more whole digits than there is room for, times `10 ^ e`.  The first nineteen
digits settle it if nothing but zeros follows them, or if they and their successor have the same
pattern. -/
def longPattern (f : Format) (sig : Significand) (e : Int) : Nat :=
  let upTo (n : Nat) : Nat × Bool :=
    let unit := Nat.pow 10 (sig.digits - n)
    (sig.value / unit, sig.value % unit != 0)
  let (lead, more) := upTo 19
  let leadExp := e - sig.afterPoint + (sig.digits - 19 : Nat)
  let least := scaleRound f lead 10 leadExp
  let (kept, dropped) := upTo maxDigits
  if !more || scaleRound f (lead + 1) 10 leadExp == least then least
  else scaleRound f (10 * kept + if dropped then 1 else 0) 10 (e - 1)

/-- A word for a number that is not finite. -/
def specialPattern (f : Format) (cs : List Char) : Option Nat :=
  let low (cs : List Char) : String := String.ofList (cs.map Char.toLower)
  let isInf (w : String) : Bool := w == "inf" || w == "infinity"
  match cs with
  | '+' :: rest => if isInf (low rest) then some f.infinity else none
  | '-' :: rest => if isInf (low rest) then some (f.withSign true f.infinity) else none
  | rest =>
      if isInf (low rest) then some f.infinity
      else if low rest == "nan" then some (f.infinity + Nat.pow 2 (f.precision - 2))
      else none

/-- The pattern (without sign) of the digits after an optional sign. -/
def magnitudePattern (f : Format) (cs : List Char) : Except Fault Nat := do
  let (hex, body) :=
    match cs with
    | '0' :: x :: d :: rest => if x.toLower = 'x' then (true, d :: rest) else (false, cs)
    | _ => (false, cs)
  let (sig, rest) := readSignificand (if hex then 16 else 10) false {} body
  if !sig.sawDigit then throw .syntaxError
  let exponentMark := if hex then 'p' else 'e'
  let (e, rest) ←
    match rest with
    | c :: tail =>
        if c.toLower = exponentMark then
          match readSignedExponent tail with
          | some r => pure r
          | none => throw .syntaxError
        else if hex then throw .syntaxError
        else pure ((0 : Int), rest)
    | [] => if hex then throw .syntaxError else pure ((0 : Int), [])
  if !rest.isEmpty then throw .syntaxError
  let bits :=
    if hex then scaleRound f sig.value 2 (e - 4 * sig.afterPoint)
    else if maxDigits < sig.whole then longPattern f sig e
    else scaleRound f sig.value 10 (e - sig.afterPoint)
  return bits

/-- The pattern a literal denotes in a format.  A finite literal that rounds to an infinity is out
of range; the words for infinities and NaN are not. -/
def parseFloat (f : Format) (cs : List Char) : Except Fault Nat := do
  if let some bits := specialPattern f cs then return bits
  let (neg, body) :=
    match cs with
    | '-' :: rest => (true, rest)
    | '+' :: rest => (false, rest)
    | rest => (false, rest)
  let bits ← magnitudePattern f body
  if cs.contains '_' && !underscoresFit cs then throw .syntaxError
  if bits = f.infinity then throw .outOfRange
  return f.withSign neg bits

end WireSchema.Number
