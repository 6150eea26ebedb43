import WireSchema.Kind
import WireSchema.Number.Shortest

/-!
# Stored numbers

A `Scalar` is a kind together with a bit pattern of that kind's width: integers in two's
complement, floating point in the binary interchange formats.  So reading, writing, comparing and
converting have one rule each instead of one per kind:

* `ofNat` cuts an unsigned 64-bit number down to the kind;
* `toWord` widens an integer scalar back to 64 bits, extending the sign;
* `sameNumber` is equality of the numbers, which for floating point differs from equality of
  patterns at NaN and at the two zeros.
-/

namespace WireSchema

/-- A number stored under a kind. -/
structure Scalar where
  kind : Kind
  bits : BitVec kind.bits
  deriving DecidableEq, Repr

namespace Scalar

/-- The scalar of a kind with the given pattern, higher bits dropped. -/
def ofPattern (k : Kind) (n : Nat) : Scalar := ⟨k, BitVec.ofNat k.bits n⟩

/-- The zero of a kind. -/
def zero (k : Kind) : Scalar := ofPattern k 0

/-- The pattern as a natural number. -/
def pattern (s : Scalar) : Nat := s.bits.toNat

/-- The integer an integer scalar stores. -/
def toInt (s : Scalar) : Int := if s.kind.isSigned then s.bits.toInt else s.bits.toNat

/-- An integer scalar widened to an unsigned 64-bit word, its sign extended. -/
def toWord (s : Scalar) : UInt64 :=
  ⟨if s.kind.isSigned then s.bits.signExtend 64 else s.bits.setWidth 64⟩

/-- The scalar of a kind holding a 64-bit word: integers keep the low bits, floating point takes
the nearest number. -/
def ofWord (k : Kind) (w : UInt64) : Scalar :=
  match k.format? with
  | some f => ofPattern k (f.round w.toNat 1)
  | none => ofPattern k w.toNat

/-- The integer part of a double, as the machine's conversion to a signed word gives it: what does
not fit becomes the least word. -/
def truncateSigned (bits : Nat) : Int :=
  match Number.Format.double.truncate? bits with
  | some n => if -0x8000000000000000 ≤ n ∧ n < 0x8000000000000000 then n else -0x8000000000000000
  | none => -0x8000000000000000

/-- The integer part of a double as an unsigned word: from `2 ^ 63` on the upper half is converted
by itself and put back. -/
def truncateUnsigned (bits : Nat) : UInt64 :=
  match Number.Format.double.truncate? bits with
  | some n =>
      if n < 0x8000000000000000 then
        UInt64.ofInt (if -0x8000000000000000 ≤ n then n else -0x8000000000000000)
      else if n < 0x10000000000000000 then UInt64.ofInt n
      else 0x8000000000000000
  | none => 0x8000000000000000

/-- The scalar of a kind nearest to a double, given by its pattern. -/
def ofDouble (k : Kind) (bits : Nat) : Scalar :=
  match k with
  | .float32 => ofPattern .float32 (Number.Format.double.convert .single bits)
  | .float64 => ofPattern .float64 bits
  | _ =>
      if k.isSigned then ofWord k (UInt64.ofInt (truncateSigned bits))
      else ofWord k (truncateUnsigned bits)

/-- The scalar of a kind holding a signed 64-bit integer; floating point goes through a double. -/
def ofInt (k : Kind) (i : Int64) : Scalar :=
  if k.isFloat then
    let f := Number.Format.double
    ofDouble k (f.withSign (decide (i < 0)) (f.round i.toInt.natAbs 1))
  else ofWord k i.toUInt64

/-- Equality of the stored numbers. -/
def sameNumber (a b : Scalar) : Bool :=
  match a.kind.format? with
  | some f => a.kind == b.kind && f.sameNumber a.pattern b.pattern
  | none => a == b

end Scalar

/-- Any value that can be offered where a scalar is expected. -/
inductive Datum where
  /-- A stored number. -/
  | scalar (s : Scalar)
  /-- A machine integer of no particular storage kind. -/
  | word (i : Int64)
  | text (s : String)
  | flag (b : Bool)
  /-- No value at all. -/
  | absent
  deriving DecidableEq, Repr

namespace Datum

/-- The name of a value's type in messages. -/
def typeName : Datum → String
  | .scalar s => s.kind.typeName
  | .word _ => "int"
  | .text _ => "string"
  | .flag _ => "bool"
  | .absent => "<nil>"

/-- A value that stores no integer was used as one. -/
def notInteger (d : Datum) : String := "not an integer storage value: " ++ d.typeName

/-- An integer value as an unsigned word. -/
def toWord : Datum → Except String UInt64
  | .scalar s => if s.kind.isInteger then .ok s.toWord else .error (notInteger (.scalar s))
  | .word i => .ok i.toUInt64
  | d => .error (notInteger d)

/-- An integer value as a signed word. -/
def toSignedWord (d : Datum) : Except String Int64 := d.toWord.map UInt64.toInt64

/-- The text of a value as a literal of a type that is `signed` or not.  Floating point is written
shortest; everything else must be an integer. -/
def literalText (signed : Bool) (d : Datum) : Except String String :=
  match d with
  | .scalar s =>
      match s.kind.format? with
      | some f => .ok (Number.floatText f s.pattern)
      | none =>
          if signed then .ok (toString s.toWord.toInt64.toInt) else .ok (toString s.toWord.toNat)
  | d =>
      if signed then d.toSignedWord.map fun i => toString i.toInt
      else d.toWord.map fun w => toString w.toNat

end Datum

end WireSchema
