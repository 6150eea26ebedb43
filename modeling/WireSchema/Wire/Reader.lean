import WireSchema.Wire.Bytes

/-!
# Readers

A reader walks a buffer from the front.  The first failure is kept: from then on nothing moves,
typed reads give zero, counts give zero and data reads leave their buffer alone.  Callers may
therefore read a whole message and ask for the error once.

`count` vets a list length that came from the buffer itself before anything is read for it.
-/

namespace WireSchema.Wire

/-- Why a reader stopped. -/
inductive ReadError where
  /-- Fewer bytes remain than a read needs. -/
  | short (need offset have_ : Nat)
  /-- A list announces more elements than can follow. -/
  | shortList (count : Nat) (width : Int) (offset have_ : Nat)
  /-- Reported by a caller. -/
  | reported (message : String)
  deriving DecidableEq, Repr

/-- The buffer ended too early. -/
def ReadError.isShort : ReadError → Bool
  | .reported _ => false
  | _ => true

/-- The cause shared by all reads past the end. -/
def shortReadText : String := "wire: short read"

/-- The error in words. -/
def ReadError.message : ReadError → String
  | .short need offset have_ =>
      "need " ++ toString need ++ " bytes at offset " ++ toString offset ++ ", have " ++
        toString have_ ++ ": " ++ shortReadText
  | .shortList count width offset have_ =>
      toString count ++ " elements of " ++ toString width ++ " bytes at offset " ++
        toString offset ++ ", have " ++ toString have_ ++ ": " ++ shortReadText
  | .reported m => m

/-- No list may announce more elements than this. -/
def maxListLength : Nat := 0x1000000

/-- The unread rest of a buffer, how much was read before it, and the first error. -/
structure Reader where
  offset : Nat
  rest : List UInt8
  error? : Option ReadError
  deriving DecidableEq, Repr

namespace Reader

/-- A reader at the start of a buffer. -/
def ofBytes (bs : List UInt8) : Reader := ⟨0, bs, none⟩

/-- How many bytes are unread. -/
def remaining (r : Reader) : Nat := r.rest.length

/-- Keeps an error unless there already is one. -/
def setError (r : Reader) (e : ReadError) : Reader :=
  match r.error? with
  | some _ => r
  | none => { r with error? := some e }

/-- The first `n` elements and the rest, if there are that many. -/
def splitAt? : (n : Nat) → List α → Option (List α × List α)
  | 0, xs => some ([], xs)
  | _ + 1, [] => none
  | n + 1, x :: xs => (splitAt? n xs).map fun (front, rest) => (x :: front, rest)

/-- The next `n` bytes, unless the reader has failed or they are not there. -/
def take (r : Reader) (n : Nat) : Option (List UInt8) × Reader :=
  match r.error? with
  | some _ => (none, r)
  | none =>
      match splitAt? n r.rest with
      | some (front, rest) => (some front, { r with offset := r.offset + n, rest })
      | none => (none, { r with error? := some (.short n r.offset r.remaining) })

/-- Reads a scalar; zero if that fails. -/
def scalar (r : Reader) (k : Kind) : Scalar × Reader :=
  match r.take k.bytes with
  | (some bs, r) => (scalarOfBytes k bs, r)
  | (none, r) => (.zero k, r)

/-- Overwrites a buffer with as many bytes as it has; it stays as it was if that fails. -/
def data (r : Reader) (buffer : List UInt8) : List UInt8 × Reader :=
  match r.take buffer.length with
  | (some bs, r) => (bs, r)
  | (none, r) => (buffer, r)

/-- Vets the length `n` of a list whose elements take `width` bytes each, zero if their width
varies.  The product is taken in 64-bit words. -/
def count (r : Reader) (n : UInt64) (width : Int) : Nat × Reader :=
  match r.error? with
  | some _ => (0, r)
  | none =>
      if maxListLength < n.toNat ∨ (0 < width ∧ r.remaining < (n * UInt64.ofInt width).toNat) then
        (0, { r with error? := some (.shortList n.toNat width r.offset r.remaining) })
      else (n.toNat, r)

end Reader

end WireSchema.Wire
