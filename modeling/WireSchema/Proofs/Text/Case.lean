import Mathlib
import WireSchema.Text.Case

/-!
# What the case mappings give

Both mappings are tables of rows, so what they give is read off the rows.  No row of the lower-case
mapping leads to the basic alphabet but to its small letters, and none of the upper-case mapping to
its small letters.  The rows of the upper-case mapping lead past all of its rows: what is
upper-cased stays as it is when it is upper-cased again.

## Main results

* `mapRows_cases` — what a mapping gives.
* `isUpper_toLower`, `isLower_toUpper` — neither mapping gives a letter of the basic alphabet that
  is of the other case.
* `eq_of_toLower_eq` — what no row leads to comes from itself only.
* `toUpper_toUpper` — the upper-case mapping is idempotent.
-/

namespace WireSchema.Text

/-! ## The basic alphabet -/

theorem isUpper_iff {c : Char} : c.isUpper = true ↔ 65 ≤ c.toNat ∧ c.toNat ≤ 90 := by
  simp [Char.isUpper, UInt32.le_iff_toNat_le]

theorem isLower_iff {c : Char} : c.isLower = true ↔ 97 ≤ c.toNat ∧ c.toNat ≤ 122 := by
  simp [Char.isLower, UInt32.le_iff_toNat_le]

/-- A letter of the basic alphabet has both cases there. -/
theorem cases_of_isAlpha {c : Char} (h : c.isAlpha = true) :
    (toLower c).isLower = true ∧ (toUpper c).isUpper = true := by
  have hlt : c.toNat < 128 := by
    rw [Char.isAlpha, Bool.or_eq_true, isUpper_iff, isLower_iff] at h
    omega
  rw [toLower, if_pos hlt, toUpper, if_pos hlt, Char.isLower_toLower_eq_isAlpha,
    Char.isUpper_toUpper_eq_isAlpha]
  exact ⟨h, h⟩

theorem toNat_toUpper_lt {c : Char} (h : c.toNat < 128) : (toUpper c).toNat < 128 := by
  rw [toUpper, if_pos h]
  by_cases hlower : c.isLower = true
  · rw [Char.toUpper_eq_of_isLower hlower, Char.toNat_ofNat]
    split <;> omega
  · rwa [Char.toUpper_eq_of_not_isLower hlower]

/-! ## Rows -/

theorem inStride_iff {start count step n : Nat} : inStride start count step n = true ↔
    start ≤ n ∧ n < start + count * step ∧ (n - start) % step = 0 := by
  simp [inStride, and_assoc]

/-- What a mapping gives: the character itself, the null character, or a character displaced by a
row that it lies in. -/
theorem mapRows_cases (rows : List (Nat × Nat × Nat × Int)) (c : Char) :
    mapRows rows c = c ∨ (mapRows rows c).toNat = 0 ∨ ∃ row ∈ rows,
      inStride row.1 row.2.1 row.2.2.1 c.toNat = true ∧
        ((mapRows rows c).toNat : Int) = max (c.toNat + row.2.2.2) 0 := by
  unfold mapRows
  split
  · rename_i start count stride shift hrow
    rw [Char.toNat_ofNat]
    split
    · have hin := List.find?_some hrow
      exact .inr (.inr ⟨_, List.mem_of_find?_eq_some hrow, hin, Int.toNat_eq_max _⟩)
    · exact .inr (.inl rfl)
  · exact .inl rfl

/-- No row of the mapping leads below the small letters. -/
theorem lowerRows_above : ∀ row ∈ lowerRows, 96 < (row.1 : Int) + row.2.2.2 := by
  decide +kernel

set_option maxRecDepth 4000 in
/-- Beyond the basic alphabet no row leads to its small letters. -/
theorem upperRows_apart : ∀ row ∈ upperRows, row.1 + row.2.1 * row.2.2.1 ≤ 128 ∨
    ((row.1 + row.2.1 * row.2.2.1 : Nat) : Int) + row.2.2.2 ≤ 97 ∨
      122 < (row.1 : Int) + row.2.2.2 := by
  decide

theorem isUpper_toLower (c : Char) : (toLower c).isUpper = false := by
  unfold toLower
  split
  · exact Char.isUpper_toLower_eq_false c
  · rename_i hge
    rw [← Bool.not_eq_true, isUpper_iff]
    rcases mapRows_cases lowerRows c with h | h | ⟨row, hrow, hin, hval⟩
    · rw [h]
      omega
    · omega
    · have := lowerRows_above row hrow
      have := inStride_iff.mp hin
      omega

theorem isLower_toUpper (c : Char) : (toUpper c).isLower = false := by
  unfold toUpper
  split
  · exact Char.isLower_toUpper_eq_false c
  · rename_i hge
    rw [← Bool.not_eq_true, isLower_iff]
    rcases mapRows_cases upperRows c with h | h | ⟨row, hrow, hin, hval⟩
    · rw [h]
      omega
    · omega
    · have := upperRows_apart row hrow
      have := inStride_iff.mp hin
      omega

/-- Only the character itself becomes one that is no small letter of the basic alphabet and that no
row leads to. -/
theorem eq_of_toLower_eq {c d : Char} (hzero : d.toNat ≠ 0) (hlower : d.isLower = false)
    (hclear : ∀ row ∈ lowerRows, (d.toNat : Int) < row.1 + row.2.2.2 ∨
      ((row.1 + row.2.1 * row.2.2.1 : Nat) : Int) + row.2.2.2 ≤ d.toNat)
    (h : toLower c = d) : c = d := by
  unfold toLower at h
  split at h
  · by_cases hupper : c.isUpper = true
    · have hsmall : d.isLower = true := by
        rw [← h, Char.isLower_toLower_eq_isAlpha, Char.isAlpha, hupper, Bool.true_or]
      exact absurd hsmall (Bool.eq_false_iff.mp hlower)
    · rwa [Char.toLower_eq_of_not_isUpper hupper] at h
  · rcases mapRows_cases lowerRows c with hsame | hnull | ⟨row, hrow, hin, hval⟩
    · exact hsame.symm.trans h
    · exact absurd (h ▸ hnull) hzero
    · have := hclear row hrow
      have := inStride_iff.mp hin
      rw [h] at hval
      omega

theorem toLower_eq_slash {c : Char} (h : toLower c = '/') : c = '/' :=
  eq_of_toLower_eq (by decide) (by decide)
    (fun row hrow => Or.inl (lt_of_le_of_lt (by decide) (lowerRows_above row hrow))) h

theorem noSlash_lowerCase {s : String} (h : '/' ∉ s.toList) : '/' ∉ (lowerCase s).toList := by
  rw [lowerCase, String.toList_map]
  intro hmem
  obtain ⟨c, hc, hlower⟩ := List.mem_map.mp hmem
  exact h (toLower_eq_slash hlower ▸ hc)

/-! ## Upper-casing twice -/

/-- What a row leads to lies outside another row: below it, above it, or between its characters. -/
def clearOf (row other : Nat × Nat × Nat × Int) : Bool :=
  Nat.blt ((row.1 + row.2.2.2).toNat + (row.2.1 - 1) * row.2.2.1) other.1 ||
    Nat.ble (other.1 + other.2.1 * other.2.2.1) (row.1 + row.2.2.2).toNat ||
    (Nat.beq row.2.1 1 || Nat.beq row.2.2.1 2) && Nat.beq other.2.2.1 2 &&
      !Nat.beq ((row.1 + row.2.2.2).toNat % 2) (other.1 % 2)

theorem upperRows_clear : (upperRows.all fun row => upperRows.all (clearOf row)) = true := by
  decide +kernel

theorem upperRows_nonneg : ∀ row ∈ upperRows, 0 ≤ (row.1 : Int) + row.2.2.2 := by
  decide +kernel

/-- A row that is clear of another leads out of it. -/
theorem inStride_of_clearOf {row other : Nat × Nat × Nat × Int} (hclear : clearOf row other = true)
    (hnonneg : 0 ≤ (row.1 : Int) + row.2.2.2) {n k : Nat}
    (hn : inStride row.1 row.2.1 row.2.2.1 n = true) (hk : (k : Int) = n + row.2.2.2) :
    inStride other.1 other.2.1 other.2.2.1 k = false := by
  obtain ⟨start, count, step, shift⟩ := row
  obtain ⟨start', count', step', shift'⟩ := other
  obtain ⟨hstart, hend, hmod⟩ := inStride_iff.mp hn
  simp only [clearOf, Bool.or_eq_true, Bool.and_eq_true, Nat.blt_eq, Nat.ble_eq, Bool.not_eq_true',
    ← Bool.not_eq_true, Nat.beq_eq] at hclear
  dsimp only at hstart hend hmod hnonneg hk ⊢
  -- The image has the same place among the images as the character in its row.
  obtain ⟨q, hq⟩ := Nat.dvd_of_mod_eq_zero hmod
  have hplace : k = (start + shift).toNat + step * q := by omega
  rw [← Bool.not_eq_true, inStride_iff]
  have hlt : q < count := by
    by_contra hge
    have := Nat.mul_le_mul_left step (Nat.not_lt.mp hge)
    rw [Nat.mul_comm step count] at this
    omega
  rcases hclear with (hbelow | habove) | ⟨⟨hsingle, rfl⟩, hparity⟩
  · have hle : step * q ≤ (count - 1) * step := by
      rw [Nat.mul_comm]
      exact Nat.mul_le_mul_right step (by omega)
    omega
  · omega
  · have heven : step * q % 2 = 0 := by
      rcases hsingle with rfl | rfl
      · rw [Nat.lt_one_iff.mp hlt, Nat.mul_zero]
      · exact Nat.mul_mod_right 2 q
    omega

theorem mapRows_eq_self {rows : List (Nat × Nat × Nat × Int)} {c : Char}
    (h : ∀ row ∈ rows, inStride row.1 row.2.1 row.2.2.1 c.toNat = false) : mapRows rows c = c := by
  have hnone : rows.find? (fun row => inStride row.1 row.2.1 row.2.2.1 c.toNat) = none :=
    List.find?_eq_none.mpr fun row hrow => by rw [h row hrow]; exact Bool.false_ne_true
  rw [mapRows, hnone]

/-- **The upper-case mapping is idempotent.** -/
theorem toUpper_toUpper (c : Char) : toUpper (toUpper c) = toUpper c := by
  by_cases hsmall : (toUpper c).toNat < 128
  · rw [toUpper, if_pos hsmall]
    exact Char.toUpper_eq_of_not_isLower (Bool.eq_false_iff.mp (isLower_toUpper c))
  · have hc : ¬ c.toNat < 128 := fun hc => hsmall (toNat_toUpper_lt hc)
    rw [toUpper, if_neg hsmall]
    rw [toUpper, if_neg hc] at hsmall ⊢
    rcases mapRows_cases upperRows c with h | h | ⟨row, hrow, hin, hval⟩
    · rw [h, h]
    · omega
    · have hnonneg := upperRows_nonneg row hrow
      have hstart := (inStride_iff.mp hin).1
      refine mapRows_eq_self fun other hother => ?_
      have hclear := List.all_eq_true.mp (List.all_eq_true.mp upperRows_clear row hrow) other hother
      exact inStride_of_clearOf hclear hnonneg hin (by omega)

end WireSchema.Text
