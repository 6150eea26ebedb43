import WireSchema.Scalar

/-!
# Big-endian bytes

Every number travels with its most significant byte first.  `bigEndian` lays out the low bytes of a
natural number, `ofBigEndian` reads them back, and scalars of every kind go through these two.
-/

namespace WireSchema.Wire

/-- The `n` lowest bytes of a number, most significant first. -/
def bigEndian : (n : Nat) → Nat → List UInt8
  | 0, _ => []
  | n + 1, v => bigEndian n (v / 256) ++ [UInt8.ofNat v]

/-- The number whose bytes these are, most significant first. -/
def ofBigEndian (bs : List UInt8) : Nat := bs.foldl (fun acc b => acc * 256 + b.toNat) 0

/-- The bytes of a scalar. -/
def scalarBytes (s : Scalar) : List UInt8 := bigEndian s.kind.bytes s.pattern

/-- The scalar of a kind with the given bytes. -/
def scalarOfBytes (k : Kind) (bs : List UInt8) : Scalar := .ofPattern k (ofBigEndian bs)

@[simp]
theorem length_bigEndian (n v : Nat) : (bigEndian n v).length = n := by
  induction n generalizing v with
  | zero => rfl
  | succ n ih => simp [bigEndian, ih]

@[simp]
theorem length_scalarBytes (s : Scalar) : (scalarBytes s).length = s.kind.bytes := by
  simp [scalarBytes]

end WireSchema.Wire
