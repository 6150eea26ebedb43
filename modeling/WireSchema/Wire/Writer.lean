import WireSchema.Wire.Bytes

/-!
# Writers

A writer is the bytes written so far.  Every operation but `reset` only adds bytes at the end.
-/

namespace WireSchema.Wire

/-- The bytes written so far. -/
structure Writer where
  buf : Array UInt8
  deriving DecidableEq

namespace Writer

/-- A writer with nothing written. -/
def empty : Writer := ⟨#[]⟩

/-- The bytes written so far. -/
def bytes (w : Writer) : List UInt8 := w.buf.toList

/-- How many bytes were written. -/
def length (w : Writer) : Nat := w.buf.size

/-- Forgets everything written. -/
def reset (_ : Writer) : Writer := empty

/-- Writes bytes as they are. -/
def data (w : Writer) (bs : List UInt8) : Writer := ⟨w.buf ++ bs⟩

/-- Writes a scalar. -/
def scalar (w : Writer) (s : Scalar) : Writer := w.data (scalarBytes s)

@[simp]
theorem bytes_empty : empty.bytes = [] := rfl

@[simp]
theorem bytes_data (w : Writer) (bs : List UInt8) : (w.data bs).bytes = w.bytes ++ bs := by
  simp [data, bytes]

@[simp]
theorem bytes_scalar (w : Writer) (s : Scalar) :
    (w.scalar s).bytes = w.bytes ++ scalarBytes s := by
  simp [scalar]

@[simp]
theorem length_eq (w : Writer) : w.length = w.bytes.length := by
  simp [length, bytes]

end Writer

end WireSchema.Wire
