import Mathlib
import WireSchema.Catalog
import WireSchema.Proofs.Number.IntegerLiteral
import WireSchema.Proofs.Wire.Bytes

/-!
# Literals of integer types

An integer type reads the literals of the numbers it stores, signed or not, and stores each number
in one way.  What it writes is a number in decimal, which is a literal of that number, so it is read
back as it was.  White space around a literal does not count; there is none inside.

## Main results

* `integerLiteral_toString` — a number in decimal is a literal of itself.
* `readDigits_eq_ofDigitChars` — the number that is read from nothing but digits.
* `Scalar.eq_of_toInt`, `Scalar.toInt_ofInt` — stored numbers and the integers of a kind.
* `parse_format_and_parse_iff` — the literals of a primitive type.
-/

namespace WireSchema.Number

/-! ## Numbers in decimal -/

section Decimal

variable {base v n d : Nat} {c : Char} {cs : List Char} {i : Int}

theorem Digits.snoc (h : Digits base v cs n) (hc : StandsFor base c d) :
    Digits base v (cs ++ [c]) (n * base + d) := by
  induction h with
  | done v => exact .digit hc (.done _)
  | digit stands more ih => exact .digit stands ih
  | apart stands more ih => exact .apart stands ih

theorem standsFor_digitChar (hd : d < base) : StandsFor base d.digitChar d := ⟨hd, .inl rfl⟩

/-- The digits of a number make it up, the first of them not zero. -/
theorem digits_toDigits (n : Nat) (hn : n ≠ 0) : ∃ c d cs, Nat.toDigits 10 n = c :: cs ∧
    StandsFor 10 c d ∧ d ≠ 0 ∧ Digits 10 d cs n := by
  induction n using Nat.strongRecOn with
  | ind n ih =>
      by_cases hsmall : n < 10
      · exact ⟨n.digitChar, n, [], Nat.toDigits_of_lt_base hsmall, standsFor_digitChar hsmall, hn,
          .done n⟩
      · obtain ⟨c, d, cs, heq, hc, hd, hcs⟩ := ih (n / 10) (by omega) (by omega)
        have hlast : StandsFor 10 (n % 10).digitChar (n % 10) := standsFor_digitChar (by omega)
        have hmore := hcs.snoc hlast
        rw [show n / 10 * 10 + n % 10 = n by omega] at hmore
        refine ⟨c, d, cs ++ [(n % 10).digitChar], ?_, hc, hd, hmore⟩
        rw [Nat.toDigits_of_base_le (by decide) (by omega), heq, List.cons_append]

theorem magnitude_repr (n : Nat) : Magnitude n.repr.toList n := by
  rw [Nat.toList_repr]
  by_cases hn : n = 0
  · subst hn
    exact .octal (.done 0)
  · obtain ⟨c, d, cs, heq, hc, hd, hcs⟩ := digits_toDigits n hn
    rw [heq]
    exact .decimal hc hd hcs

/-- **A number in decimal is a literal of itself**; below zero it takes a sign. -/
theorem integerLiteral_toString (signed : Bool) (hi : 0 ≤ i ∨ signed = true) :
    IntegerLiteral signed (toString i).toList i := by
  rw [Int.toString_eq_repr, Int.repr_eq_if]
  by_cases hpos : 0 ≤ i
  · rw [if_pos hpos]
    have hlit : IntegerLiteral signed i.toNat.repr.toList (i.toNat : Int) :=
      .plain (magnitude_repr i.toNat)
    rwa [Int.toNat_of_nonneg hpos] at hlit
  · rw [if_neg hpos, String.toList_append]
    have hlit : IntegerLiteral signed ('-' :: (-i).toNat.repr.toList) (-((-i).toNat : Int)) :=
      .minus (hi.resolve_left hpos) (magnitude_repr (-i).toNat)
    rwa [Int.toNat_of_nonneg (by omega), Int.neg_neg] at hlit

/-! ### Nothing but digits -/

theorem standsFor_of_isDigit (hc : c.isDigit = true) : StandsFor 10 c (c.toNat - 48) := by
  have hrange : '0' ≤ c ∧ c ≤ '9' := by
    rw [Char.isDigit, Bool.and_eq_true, decide_eq_true_eq, decide_eq_true_eq] at hc
    exact hc
  have hbounds : 48 ≤ c.toNat ∧ c.toNat ≤ 57 := hrange
  have hvalue : digitValue c = some (c.toNat - 48) := if_pos hrange
  exact (standsFor_iff (by decide)).mpr ⟨hvalue, by omega⟩

theorem le_ofDigitChars (cs : List Char) (v : Nat) : v ≤ Nat.ofDigitChars 10 cs v := by
  induction cs generalizing v with
  | nil => exact le_rfl
  | cons c cs ih =>
      rw [Nat.ofDigitChars_cons]
      exact le_trans (by omega) (ih _)

/-- Digits are read as the number that they are behind those of `v`, if it is below the limit. -/
theorem readDigits_eq_ofDigitChars {limit : Nat} (hcs : ∀ c ∈ cs, c.isDigit = true)
    (hv : v < limit) :
    readDigits 10 limit v cs =
      if Nat.ofDigitChars 10 cs v < limit then .ok (Nat.ofDigitChars 10 cs v)
      else .error .outOfRange := by
  induction cs generalizing v with
  | nil => rw [readDigits, Nat.ofDigitChars_nil, if_pos hv]
  | cons c cs ih =>
      obtain ⟨hc, hcs⟩ := List.forall_mem_cons.mp hcs
      have hnext : Nat.ofDigitChars 10 (c :: cs) v =
          Nat.ofDigitChars 10 cs (v * 10 + (c.toNat - 48)) := by
        rw [Nat.ofDigitChars_cons, Nat.mul_comm]
        rfl
      rw [readDigits_digit (by decide) (standsFor_of_isDigit hc), hnext]
      -- Digits only make the number larger, so what is too large already stays so.
      by_cases hlarge : limit ≤ v * 10 + (c.toNat - 48)
      · have hle := le_ofDigitChars cs (v * 10 + (c.toNat - 48))
        rw [if_pos hlarge, if_neg (by omega)]
      · rw [if_neg hlarge, ih hcs (by omega)]

/-! ### No white space -/

theorem isBlank_ascii : ∀ n < 128, ∀ d < 16, digitValue (Char.ofNat n) = some d →
    Text.isBlank (Char.ofNat n) = false := by
  decide +kernel

theorem StandsFor.not_blank (hbase : base ≤ 16) (h : StandsFor base c d) :
    Text.isBlank c = false := by
  have hvalue := ((standsFor_iff hbase).mp h).1
  have hblank := isBlank_ascii c.toNat (toNat_lt_of_digitValue hvalue) d
    (lt_of_lt_of_le h.1 hbase)
  rw [Char.ofNat_toNat] at hblank
  exact hblank hvalue

theorem Digits.not_blank (hbase : base ≤ 16) (h : Digits base v cs n) :
    ∀ c ∈ cs, Text.isBlank c = false := by
  induction h with
  | done v => simp
  | digit stands more ih =>
      rw [List.forall_mem_cons]
      exact ⟨stands.not_blank hbase, ih⟩
  | apart stands more ih =>
      rw [List.forall_mem_cons, List.forall_mem_cons]
      exact ⟨by decide, stands.not_blank hbase, ih⟩

theorem Magnitude.not_blank (h : Magnitude cs n) : ∀ c ∈ cs, Text.isBlank c = false := by
  cases h with
  | decimal stands leading more =>
      rw [List.forall_mem_cons]
      exact ⟨stands.not_blank (by decide), more.not_blank (by decide)⟩
  | octal more =>
      rw [List.forall_mem_cons]
      exact ⟨by decide, more.not_blank (by decide)⟩
  | marked isMark some more =>
      have hmarks : ∀ m ∈ marks, Text.isBlank m.1 = false ∧ m.2 ≤ 16 := by decide
      rw [List.forall_mem_cons, List.forall_mem_cons]
      exact ⟨by decide, (hmarks _ isMark).1, more.not_blank (hmarks _ isMark).2⟩

theorem IntegerLiteral.not_blank {signed : Bool} (h : IntegerLiteral signed cs i) :
    ∀ c ∈ cs, Text.isBlank c = false := by
  cases h with
  | plain h => exact h.not_blank
  | plus _ h | minus _ h =>
      rw [List.forall_mem_cons]
      exact ⟨by decide, h.not_blank⟩

end Decimal

end WireSchema.Number

namespace WireSchema

theorem Text.trim_of_not_blank {s : String} (h : ∀ c ∈ s.toList, Text.isBlank c = false) :
    Text.trim s = s := by
  have hdrop : ∀ cs : List Char, (∀ c ∈ cs, Text.isBlank c = false) →
      cs.dropWhile Text.isBlank = cs :=
    fun cs hcs => List.dropWhile_eq_self_iff.mpr fun hpos hblank =>
      Bool.false_ne_true ((hcs _ (List.getElem_mem hpos)).symm.trans hblank)
  rw [Text.trim, Text.trimBoth, hdrop _ h, hdrop _ fun c hc => h c (List.mem_reverse.mp hc),
    List.reverse_reverse, String.ofList_toList]

/-! ## Literals of primitive types -/

/-- The integers that a kind stores. -/
def Kind.Holds (k : Kind) (i : Int) : Prop :=
  if k.isSigned = true then -2 ^ (k.bits - 1) ≤ i ∧ i < 2 ^ (k.bits - 1) else 0 ≤ i ∧ i < 2 ^ k.bits

instance Kind.decidableHolds (k : Kind) (i : Int) : Decidable (k.Holds i) :=
  inferInstanceAs (Decidable (if k.isSigned = true then _ else _))

namespace Scalar

variable {s s' : Scalar}

theorem holds_toInt (s : Scalar) : s.kind.Holds s.toInt := by
  unfold Kind.Holds toInt
  split
  · exact ⟨s.bits.le_toInt, BitVec.toInt_lt⟩
  · exact ⟨Int.natCast_nonneg _, by exact_mod_cast s.bits.isLt⟩

/-- A number is stored in one way only. -/
theorem eq_of_toInt (hkind : s.kind = s'.kind) (hint : s.toInt = s'.toInt) : s = s' := by
  obtain ⟨k, x⟩ := s
  obtain ⟨k', x'⟩ := s'
  obtain rfl : k = k' := hkind
  congr 1
  unfold toInt at hint
  dsimp only at hint
  split at hint
  · exact BitVec.toInt_inj.mp hint
  · exact BitVec.toNat_inj.mp (by exact_mod_cast hint)

/-- Widening keeps the number, where the word is read with a sign if the kind has one. -/
theorem toInt_toWord (s : Scalar) :
    s.toInt = if s.kind.isSigned = true then s.toWord.toInt64.toInt else s.toWord.toNat := by
  unfold toInt
  split
  · rename_i hsigned
    have hword : s.toWord.toInt64.toInt = (s.bits.signExtend 64).toInt := by
      rw [toWord, if_pos hsigned]
      rfl
    rw [hword, BitVec.toInt_signExtend_of_le (Wire.bits_le s.kind)]
  · rename_i hsigned
    rw [Wire.toNat_toWord, if_neg fun h => hsigned h.1]
    rfl

/-- A number in the range of a kind is stored as it is. -/
theorem toInt_ofInt {k : Kind} {i : Int} (h : k.Holds i) :
    (⟨k, BitVec.ofInt k.bits i⟩ : Scalar).toInt = i := by
  have hpos : 0 < k.bits := by cases k <;> decide
  unfold Kind.Holds at h
  by_cases hsigned : k.isSigned = true
  · rw [if_pos hsigned] at h
    exact (if_pos hsigned).trans (BitVec.toInt_ofInt_eq_self hpos h.1 h.2)
  · rw [if_neg hsigned] at h
    refine (if_neg hsigned).trans ?_
    rw [BitVec.toNat_ofInt, Int.toNat_of_nonneg (Int.emod_nonneg _ (by positivity))]
    push_cast
    exact Int.emod_eq_of_lt h.1 h.2

end Scalar

namespace Primitive

open Number

variable {t : Primitive} {s : Scalar} {literal : String}

theorem format_integer (hint : t.kind.isInteger = true) (hkind : s.kind = t.kind) :
    t.format s = toString s.toInt := by
  have hnone : s.kind.format? = none := Wire.format?_eq_none (hkind ▸ hint)
  have hsigned : t.isSigned = s.kind.isSigned := by rw [hkind]; rfl
  rw [Scalar.toInt_toWord, format, hnone, hsigned]
  dsimp only
  split <;> rfl

theorem parse_signed (hint : t.kind.isInteger = true) (hsigned : t.isSigned = true) :
    t.parse literal = ((parseSigned t.bits (Text.trim literal).toList).mapError
      (.fault t (Text.trim literal))).map fun i => ⟨t.kind, BitVec.ofInt _ i⟩ := by
  rw [parse, Wire.format?_eq_none hint]
  dsimp only
  rw [if_pos hsigned]
  cases parseSigned t.bits (Text.trim literal).toList <;> rfl

theorem parse_unsigned (hint : t.kind.isInteger = true) (hsigned : ¬ t.isSigned = true) :
    t.parse literal = ((parseUnsigned t.bits (Text.trim literal).toList).mapError
      (.fault t (Text.trim literal))).map (.ofPattern t.kind) := by
  rw [parse, Wire.format?_eq_none hint]
  dsimp only
  rw [if_neg hsigned]
  cases parseUnsigned t.bits (Text.trim literal).toList <;> rfl

/-- What is read is stored, and what is refused is no scalar. -/
theorem stored_eq_ok_iff {α : Type} {read : Except Fault α} {refuse : Fault → LiteralError}
    {store : α → Scalar} :
    (read.mapError refuse).map store = .ok s ↔ ∃ a, read = .ok a ∧ store a = s := by
  cases read with
  | error e =>
      refine ⟨fun h => (nomatch h), ?_⟩
      rintro ⟨a, h, -⟩
      cases h
  | ok a =>
      refine ⟨fun h => ⟨a, rfl, Except.ok.inj h⟩, ?_⟩
      rintro ⟨a', h, hs⟩
      cases h
      exact congrArg Except.ok hs

/-- What is read is a literal of a number in range, stored under the kind of the type. -/
theorem parse_integer (hint : t.kind.isInteger = true) :
    t.parse literal = .ok s ↔ ∃ i, (IntegerLiteral t.isSigned (Text.trim literal).toList i ∧
      t.kind.Holds i) ∧ ⟨t.kind, BitVec.ofInt t.kind.bits i⟩ = s := by
  have hbits : 1 ≤ t.bits := by
    unfold bits
    cases t.kind <;> decide
  by_cases hsigned : t.isSigned = true
  · have hholds : ∀ i, t.kind.Holds i ↔ -2 ^ (t.bits - 1) ≤ i ∧ i < 2 ^ (t.bits - 1) :=
      fun i => iff_of_eq (if_pos hsigned)
    rw [parse_signed hint hsigned, stored_eq_ok_iff]
    simp only [hholds, hsigned, parseSigned_eq_ok_iff hbits]
  · have hholds : ∀ i, t.kind.Holds i ↔ 0 ≤ i ∧ i < 2 ^ t.bits :=
      fun i => iff_of_eq (if_neg hsigned)
    have hstore : ∀ n : Nat,
        (⟨t.kind, BitVec.ofInt t.kind.bits n⟩ : Scalar) = .ofPattern t.kind n :=
      fun n => congrArg (Scalar.mk t.kind) (BitVec.ofInt_natCast _ n)
    rw [parse_unsigned hint hsigned, stored_eq_ok_iff]
    constructor
    · rintro ⟨n, hread, rfl⟩
      obtain ⟨hlit, hn⟩ := parseUnsigned_eq_ok_iff.mp hread
      have hrange : t.kind.Holds n :=
        (hholds n).mpr ⟨Int.natCast_nonneg n, by exact_mod_cast hn⟩
      exact ⟨n, ⟨.plain hlit, hrange⟩, hstore n⟩
    · rintro ⟨i, ⟨hlit, hi⟩, rfl⟩
      obtain ⟨n, hmagnitude, rfl⟩ := hlit.unsigned hsigned
      have hn : n < 2 ^ t.bits := by exact_mod_cast ((hholds n).mp hi).2
      exact ⟨n, parseUnsigned_eq_ok_iff.mpr ⟨hmagnitude, hn⟩, (hstore n).symm⟩

/-- **Integer literals parse and format exactly.**  For an integer type every stored number is
written as a literal that is read back as it.  A text is read just if, without the white space
around it, it is a literal of a number that the type stores, and what is read is that number, stored
as the type stores it. -/
theorem parse_format_and_parse_iff (t : Primitive) (hint : t.kind.isInteger = true) :
    (∀ s, s.kind = t.kind → t.parse (t.format s) = .ok s) ∧
      ∀ literal, (∀ s, t.parse literal = .ok s → s.kind = t.kind) ∧
        ∀ i, (∃ s, t.parse literal = .ok s ∧ s.toInt = i) ↔
          IntegerLiteral t.isSigned (Text.trim literal).toList i ∧ t.kind.Holds i := by
  refine ⟨fun s hkind => ?_, fun literal => ⟨fun s hparse => ?_, fun i => ⟨?_, fun h => ?_⟩⟩⟩
  · have hholds : t.kind.Holds s.toInt := hkind ▸ s.holds_toInt
    have hallowed : 0 ≤ s.toInt ∨ t.isSigned = true := by
      by_cases hsigned : t.isSigned = true
      · exact .inr hsigned
      · exact .inl ((iff_of_eq (if_neg hsigned)).mp hholds).1
    have hlit := integerLiteral_toString t.isSigned hallowed
    rw [format_integer hint hkind, parse_integer hint,
      Text.trim_of_not_blank hlit.not_blank]
    exact ⟨s.toInt, ⟨hlit, hholds⟩, Scalar.eq_of_toInt hkind.symm (Scalar.toInt_ofInt hholds)⟩
  · obtain ⟨i, -, rfl⟩ := (parse_integer hint).mp hparse
    rfl
  · rintro ⟨s, hparse, rfl⟩
    obtain ⟨i, h, rfl⟩ := (parse_integer hint).mp hparse
    rwa [Scalar.toInt_ofInt h.2]
  · exact ⟨_, (parse_integer hint).mpr ⟨i, h, rfl⟩, Scalar.toInt_ofInt h.2⟩

/-- The least signed byte, written in hexadecimal with underscores and then in decimal. -/
theorem parse_format_and_parse_iff_byte :
    Kind.int8.isInteger = true ∧
      (∃ s, (⟨"byte", .int8⟩ : Primitive).parse " -0x_8_0\n" = .ok s ∧ s.toInt = -128) ∧
      (⟨"byte", .int8⟩ : Primitive).parse "-128" = .ok ⟨.int8, 0x80⟩ := by
  obtain ⟨hround, hread⟩ := parse_format_and_parse_iff ⟨"byte", .int8⟩ rfl
  have hdigits : Digits 16 0 ['_', '8', '_', '0'] 128 :=
    .apart (d := 8) ⟨by decide, .inl rfl⟩ (.apart (d := 0) ⟨by decide, .inl rfl⟩ (.done 128))
  have htrim : (Text.trim " -0x_8_0\n").toList = ['-', '0', 'x', '_', '8', '_', '0'] := by decide
  refine ⟨rfl, ((hread " -0x_8_0\n").2 (-128)).mpr ⟨?_, by decide⟩, hround ⟨.int8, 0x80⟩ rfl⟩
  rw [htrim]
  exact .minus rfl (.marked (by decide) (by simp) hdigits)

end Primitive

end WireSchema
