import Mathlib
import WireSchema.Wire.Text
import WireSchema.Proofs.Wire.Bytes

/-!
# Text in lists of bytes

A byte keeps its value when it is stored as a signed or unsigned number of one byte, when that
number is widened to a word, with its sign, and when the word is cut down to a byte again.  So a
text that is copied into a list of bytes is the text that is read from it, cut or padded to the
length of the list.

## Main results

* `toUInt8_toWord` — widening keeps the low byte.
* `ofWord_toWord_byte` — a byte is stored in the same way directly and as a word.
* `textOf_copyText` — what is copied is read, whatever was there before.
-/

namespace WireSchema.Wire

/-! ## Cut and padded texts -/

section Fit

variable {n : Nat} {s : List UInt8} {k : Kind} {slots : List Scalar}

@[simp] theorem length_fitText (n : Nat) (s : List UInt8) : (fitText n s).length = n := by
  simp only [fitText, List.length_append, List.length_take, List.length_replicate]
  omega

/-- A text that has the length already stays as it is. -/
theorem fitText_of_length (h : s.length = n) : fitText n s = s := by
  simp [fitText, ← h]

@[simp] theorem length_copyText (k : Kind) (slots : List Scalar) (s : List UInt8) :
    (copyText k slots s).length = slots.length := by
  simp [copyText]

end Fit

/-! ## Bytes as numbers -/

section Bytes

variable {k : Kind} {b : UInt8}

/-- **Widening keeps the low byte**: what a negative number gains are bits above it. -/
theorem toUInt8_toWord (s : Scalar) : s.toWord.toUInt8 = UInt8.ofNat s.pattern := by
  have hgain : 2 ^ 8 ∣ 2 ^ 64 - 2 ^ s.kind.bits := by cases s.kind <;> decide
  refine UInt8.toNat.inj ?_
  rw [UInt64.toNat_toUInt8, UInt8.toNat_ofNat', toNat_toWord]
  split
  · obtain ⟨q, hq⟩ := hgain
    rw [hq, Nat.add_mul_mod_self_left]
  · rw [Nat.add_zero]

/-- A byte as a number of one byte has its own pattern. -/
theorem pattern_byte (hk : k.bytes = 1) (b : UInt8) :
    (Scalar.ofPattern k b.toNat).pattern = b.toNat :=
  pattern_ofPattern (by rw [Kind.bits, hk]; exact b.toNat_lt)

/-- **A byte is stored in the same way directly and as a word.** -/
theorem ofWord_toWord_byte (hint : k.isInteger = true) (b : UInt8) :
    Scalar.ofWord k (Scalar.ofPattern .uint8 b.toNat).toWord = .ofPattern k b.toNat := by
  rw [ofWord_integer hint, toNat_toWord, pattern_byte rfl, if_neg fun h => Bool.false_ne_true h.1,
    Nat.add_zero]

theorem toUInt8_byte (hk : k.bytes = 1) (b : UInt8) :
    (Scalar.ofPattern k b.toNat).toWord.toUInt8 = b := by
  rw [toUInt8_toWord, pattern_byte hk, UInt8.ofNat_toNat]

/-- A byte is written as it is. -/
theorem scalarBytes_byte (hk : k.bytes = 1) (b : UInt8) :
    scalarBytes (.ofPattern k b.toNat) = [b] := by
  rw [scalarBytes, pattern_byte hk]
  simp [Scalar.ofPattern, hk, bigEndian]

/-- **What is copied is read**, whatever was there before. -/
theorem textOf_copyText (hk : k.bytes = 1) (slots : List Scalar) (s : List UInt8) :
    textOf (copyText k slots s) = fitText slots.length s := by
  rw [textOf, copyText, List.map_map]
  refine (List.map_congr_left fun b _ => ?_).trans (List.map_id _)
  rw [Function.comp_apply, pattern_byte hk, UInt8.ofNat_toNat, id]

end Bytes

end WireSchema.Wire
