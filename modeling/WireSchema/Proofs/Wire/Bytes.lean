import Mathlib
import WireSchema.Wire.Reader
import WireSchema.Wire.Writer

/-!
# Bytes of numbers

Big-endian bytes and numbers determine each other, so a scalar is its bytes and bytes are a scalar.
The second half is about counts: which numbers a kind can say, and that a small count that was read
is the one that would be written.

## Main results

* `ofBigEndian_bigEndian`, `bigEndian_ofBigEndian` — the two directions.
* `scalarOfBytes_scalarBytes`, `scalarBytes_scalarOfBytes` — the same for scalars.
* `toWord_ofWord` — a count that its kind can say is read as it was written.
* `eq_ofWord_of_toWord` — a number that was read as a small count is that count.
-/

namespace WireSchema.Wire

/-! ## Big-endian bytes -/

theorem ofBigEndian_append (bs : List UInt8) (b : UInt8) :
    ofBigEndian (bs ++ [b]) = ofBigEndian bs * 256 + b.toNat := by
  simp [ofBigEndian, List.foldl_append]

theorem ofBigEndian_bigEndian (n v : Nat) : ofBigEndian (bigEndian n v) = v % 256 ^ n := by
  induction n generalizing v with
  | zero => simp [bigEndian, ofBigEndian, Nat.mod_one]
  | succ n ih =>
      rw [bigEndian, ofBigEndian_append, ih]
      have hbyte : (UInt8.ofNat v).toNat = v % 256 := by simp
      rw [hbyte, Nat.pow_succ, Nat.mul_comm (256 ^ n) 256, Nat.mod_mul]
      omega

theorem bigEndian_ofBigEndian (bs : List UInt8) : bigEndian bs.length (ofBigEndian bs) = bs := by
  induction bs using List.reverseRecOn with
  | nil => rfl
  | append_singleton bs b ih =>
      have hlt : b.toNat < 256 := b.toNat_lt
      have hdiv : (ofBigEndian bs * 256 + b.toNat) / 256 = ofBigEndian bs := by omega
      have hlow : UInt8.ofNat (ofBigEndian bs * 256 + b.toNat) = b := by
        refine UInt8.toNat.inj ?_
        rw [UInt8.toNat_ofNat']
        omega
      rw [List.length_append, List.length_singleton, bigEndian, ofBigEndian_append, hdiv, hlow, ih]

theorem ofBigEndian_lt (bs : List UInt8) : ofBigEndian bs < 256 ^ bs.length := by
  have hround := ofBigEndian_bigEndian bs.length (ofBigEndian bs)
  rw [bigEndian_ofBigEndian] at hround
  rw [hround]
  exact Nat.mod_lt _ (by positivity)

/-! ## Scalars -/

theorem two_pow_bits (k : Kind) : 2 ^ k.bits = 256 ^ k.bytes := by
  rw [Kind.bits, Nat.pow_mul]

@[simp] theorem kind_scalarOfBytes (k : Kind) (bs : List UInt8) :
    (scalarOfBytes k bs).kind = k := rfl

theorem scalarOfBytes_scalarBytes (s : Scalar) : scalarOfBytes s.kind (scalarBytes s) = s := by
  obtain ⟨k, bits⟩ := s
  have hlt : bits.toNat < 256 ^ k.bytes := two_pow_bits k ▸ bits.isLt
  simp only [scalarOfBytes, scalarBytes, Scalar.ofPattern, Scalar.pattern, ofBigEndian_bigEndian,
    Nat.mod_eq_of_lt hlt, BitVec.ofNat_toNat, BitVec.setWidth_eq]

theorem scalarBytes_scalarOfBytes {k : Kind} {bs : List UInt8} (h : bs.length = k.bytes) :
    scalarBytes (scalarOfBytes k bs) = bs := by
  have hlt : ofBigEndian bs < 2 ^ k.bits := by
    rw [two_pow_bits, ← h]
    exact ofBigEndian_lt bs
  have hpattern : (scalarOfBytes k bs).pattern = ofBigEndian bs := by
    simp [scalarOfBytes, Scalar.ofPattern, Scalar.pattern, BitVec.toNat_ofNat,
      Nat.mod_eq_of_lt hlt]
  rw [scalarBytes, hpattern, kind_scalarOfBytes, ← h, bigEndian_ofBigEndian]

theorem bytes_pos (k : Kind) : 0 < k.bytes := by
  cases k <;> decide

theorem bytes_le (k : Kind) : k.bytes ≤ 8 := by
  cases k <;> decide

theorem bits_le (k : Kind) : k.bits ≤ 64 := by
  cases k <;> decide

/-! ## Counts -/

/-- Counts that a kind can say fit a word. -/
theorem maxCount_lt (k : Kind) : k.maxCount < 2 ^ 64 := by
  cases k <;> decide

/-- The largest count of a kind is below its sign. -/
theorem maxCount_bits (k : Kind) :
    k.maxCount < 2 ^ k.bits ∧ (k.isSigned = true → 2 * k.maxCount < 2 ^ k.bits) := by
  cases k <;> decide

theorem kind_ofWord (k : Kind) (w : UInt64) : (Scalar.ofWord k w).kind = k := by
  unfold Scalar.ofWord
  cases k.format? <;> rfl

theorem format?_eq_none {k : Kind} (hint : k.isInteger = true) : k.format? = none := by
  simpa [Kind.isInteger, Kind.isFloat] using hint

theorem ofWord_integer {k : Kind} (hint : k.isInteger = true) (w : UInt64) :
    Scalar.ofWord k w = Scalar.ofPattern k w.toNat := by
  rw [Scalar.ofWord, format?_eq_none hint]

/-- A scalar as a word: its pattern, moved up by the sign. -/
theorem toNat_toWord (s : Scalar) : s.toWord.toNat =
    s.pattern + if s.kind.isSigned = true ∧ 2 ^ s.kind.bits ≤ 2 * s.pattern
      then 2 ^ 64 - 2 ^ s.kind.bits else 0 := by
  have hwide : s.bits.toNat < 2 ^ 64 :=
    lt_of_lt_of_le s.bits.isLt (Nat.pow_le_pow_right (by omega) (bits_le s.kind))
  show (if s.kind.isSigned then s.bits.signExtend 64 else s.bits.setWidth 64).toNat = _
  cases hsigned : s.kind.isSigned with
  | false =>
      rw [if_neg (by simp), if_neg (by simp), BitVec.toNat_setWidth, Nat.mod_eq_of_lt hwide]
      rfl
  | true =>
      rw [if_pos rfl, BitVec.toNat_signExtend, BitVec.toNat_setWidth, Nat.mod_eq_of_lt hwide,
        Scalar.pattern]
      by_cases hneg : 2 ^ s.kind.bits ≤ 2 * s.bits.toNat
      · rw [BitVec.msb_eq_true_iff_two_mul_ge.mpr hneg, if_pos rfl, if_pos ⟨rfl, hneg⟩]
      · rw [BitVec.msb_eq_false_iff_two_mul_lt.mpr (Nat.lt_of_not_le hneg), if_neg (by simp),
          if_neg fun h => hneg h.2]

theorem pattern_ofPattern {k : Kind} {n : Nat} (h : n < 2 ^ k.bits) :
    (Scalar.ofPattern k n).pattern = n := by
  simp [Scalar.ofPattern, Scalar.pattern, BitVec.toNat_ofNat, Nat.mod_eq_of_lt h]

theorem pattern_ofWord {k : Kind} (hint : k.isInteger = true) {n : Nat} (hn : n ≤ k.maxCount) :
    (Scalar.ofWord k (UInt64.ofNat n)).pattern = n := by
  have hword : (UInt64.ofNat n).toNat = n :=
    UInt64.toNat_ofNat_of_lt' (lt_of_le_of_lt hn (maxCount_lt k))
  rw [ofWord_integer hint, hword, pattern_ofPattern (lt_of_le_of_lt hn (maxCount_bits k).1)]

/-- The bytes of a count are those of its number. -/
theorem scalarBytes_ofWord {k : Kind} (hint : k.isInteger = true) {n : Nat} (hn : n ≤ k.maxCount) :
    scalarBytes (.ofWord k (UInt64.ofNat n)) = bigEndian k.bytes n := by
  rw [scalarBytes, kind_ofWord, pattern_ofWord hint hn]

/-- **A count that its kind can say is read as it was written.** -/
theorem toWord_ofWord {k : Kind} (hint : k.isInteger = true) {n : Nat} (hn : n ≤ k.maxCount) :
    (Scalar.ofWord k (UInt64.ofNat n)).toWord.toNat = n := by
  rw [toNat_toWord, pattern_ofWord hint hn, kind_ofWord, if_neg, Nat.add_zero]
  rintro ⟨hsigned, hneg⟩
  have := (maxCount_bits k).2 hsigned
  omega

/-- **A number that was read as a small count is that count.**  A negative number is read as a
large one. -/
theorem eq_ofWord_of_toWord {s : Scalar} (hint : s.kind.isInteger = true)
    (hsmall : s.toWord.toNat ≤ maxListLength) :
    s = .ofWord s.kind (UInt64.ofNat s.toWord.toNat) ∧ s.toWord.toNat ≤ s.kind.maxCount := by
  have hword := toNat_toWord s
  have hpos : ¬ (s.kind.isSigned = true ∧ 2 ^ s.kind.bits ≤ 2 * s.pattern) := by
    rintro ⟨hsigned, hneg⟩
    rw [if_pos ⟨hsigned, hneg⟩] at hword
    rw [hword, maxListLength] at hsmall
    revert hneg hsmall hsigned
    cases s.kind <;> simp only [Kind.bits, Kind.bytes, Kind.isSigned] <;> omega
  rw [if_neg hpos, Nat.add_zero] at hword
  refine ⟨?_, ?_⟩
  · rw [ofWord_integer hint, UInt64.ofNat_toNat, hword]
    obtain ⟨k, bits⟩ := s
    simp [Scalar.ofPattern, Scalar.pattern]
  · rw [hword]
    have hlt : s.pattern < 2 ^ s.kind.bits := s.bits.isLt
    revert hpos hlt hint
    cases s.kind <;>
      simp [Kind.bits, Kind.bytes, Kind.isSigned, Kind.isInteger, Kind.isFloat, Kind.format?,
        Kind.maxCount] <;> omega

end WireSchema.Wire
