import WireSchema.Scalar

/-!
# Text in byte lists

A list of one-byte numbers can carry text: the bytes of the text, cut or padded with zeros to the
length of the list.
-/

namespace WireSchema.Wire

/-- A text of exactly `n` bytes: cut, or padded with zeros. -/
def fitText (n : Nat) (s : List UInt8) : List UInt8 :=
  s.take n ++ List.replicate (n - s.length) 0

/-- Copies a text into a list of one-byte scalars of a kind, whatever the list held. -/
def copyText (k : Kind) (slots : List Scalar) (s : List UInt8) : List Scalar :=
  (fitText slots.length s).map fun b => .ofPattern k b.toNat

/-- The text in a list of one-byte scalars. -/
def textOf (slots : List Scalar) : List UInt8 :=
  slots.map fun e => UInt8.ofNat e.pattern

end WireSchema.Wire
