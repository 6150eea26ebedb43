import Mathlib
import WireSchema.Number.IntegerLiteral

/-!
# Integer literals

The grammar of integer literals, and that reading accepts just these.  A literal is decimal without
a leading zero, octal behind a leading zero, or digits behind a base mark; single underscores may
stand in front of any digit but the first of a decimal literal.  Where the type is signed a sign may
come first.

The reader looks at a literal twice: once for its digits, skipping underscores wherever they are,
and once more for its underscores, skipping what is between them.  Followed side by side the two
accept the digits of the grammar.

## Main results

* `readDigits_iff` — both looks together accept the digits of a base.
* `parseUnsigned_eq_ok_iff`, `parseSigned_eq_ok_iff` — literals without and with a sign.
-/

namespace WireSchema.Number

/-! ## The grammar -/

/-- A character is the digit `d` of a base; letters may be capitals. -/
def StandsFor (base : Nat) (c : Char) (d : Nat) : Prop :=
  d < base ∧ (c = d.digitChar ∨ c = d.digitChar.toUpper)

/-- Digits that follow those of the number `v`, each with at most one underscore in front of it,
make it the number `n`. -/
inductive Digits (base : Nat) : (v : Nat) → List Char → (n : Nat) → Prop where
  | done (v : Nat) : Digits base v [] v
  | digit {v d n : Nat} {c : Char} {cs : List Char} (stands : StandsFor base c d)
      (more : Digits base (v * base + d) cs n) : Digits base v (c :: cs) n
  | apart {v d n : Nat} {c : Char} {cs : List Char} (stands : StandsFor base c d)
      (more : Digits base (v * base + d) cs n) : Digits base v ('_' :: c :: cs) n

/-- The marks of bases. -/
def marks : List (Char × Nat) := [('b', 2), ('B', 2), ('o', 8), ('O', 8), ('x', 16), ('X', 16)]

/-- A literal without a sign. -/
inductive Magnitude : List Char → Nat → Prop where
  | decimal {d n : Nat} {c : Char} {cs : List Char} (stands : StandsFor 10 c d) (leading : d ≠ 0)
      (more : Digits 10 d cs n) : Magnitude (c :: cs) n
  | octal {n : Nat} {cs : List Char} (more : Digits 8 0 cs n) : Magnitude ('0' :: cs) n
  | marked {base n : Nat} {mark : Char} {cs : List Char} (isMark : (mark, base) ∈ marks)
      (some : cs ≠ []) (more : Digits base 0 cs n) : Magnitude ('0' :: mark :: cs) n

/-- An integer literal, with a sign only if `signed`. -/
inductive IntegerLiteral (signed : Bool) : List Char → Int → Prop where
  | plain {n : Nat} {cs : List Char} (h : Magnitude cs n) : IntegerLiteral signed cs n
  | plus {n : Nat} {cs : List Char} (allowed : signed = true) (h : Magnitude cs n) :
      IntegerLiteral signed ('+' :: cs) n
  | minus {n : Nat} {cs : List Char} (allowed : signed = true) (h : Magnitude cs n) :
      IntegerLiteral signed ('-' :: cs) (-n)

/-! ## Characters -/

section Characters

variable {base d : Nat} {c : Char}

theorem digitValue_ascii : ∀ n < 128, ∀ d < 16, digitValue (Char.ofNat n) = some d ↔
    Char.ofNat n = d.digitChar ∨ Char.ofNat n = d.digitChar.toUpper := by
  decide +kernel

theorem digitChar_ascii : ∀ d < 16, d.digitChar.toNat < 128 ∧ d.digitChar.toUpper.toNat < 128 := by
  decide

theorem isDigit_ascii : ∀ n < 128, ∀ d < 10, digitValue (Char.ofNat n) = some d →
    (Char.ofNat n).isDigit = true := by
  decide +kernel

theorem isHexDigit_ascii : ∀ n < 128, ∀ d < 16, digitValue (Char.ofNat n) = some d →
    ((Char.ofNat n).isDigit ||
      decide ('a' ≤ (Char.ofNat n).toLower ∧ (Char.ofNat n).toLower ≤ 'f')) = true := by
  decide +kernel

theorem toLower_ascii : ∀ n < 128,
    ((Char.ofNat n).toLower = 'b' ↔ Char.ofNat n = 'b' ∨ Char.ofNat n = 'B') ∧
    ((Char.ofNat n).toLower = 'o' ↔ Char.ofNat n = 'o' ∨ Char.ofNat n = 'O') ∧
    ((Char.ofNat n).toLower = 'x' ↔ Char.ofNat n = 'x' ∨ Char.ofNat n = 'X') := by
  decide +kernel

/-- No character from elsewhere has a small letter of the basic alphabet. -/
theorem toNat_lt_of_toLower (h : c.toLower.toNat < 128) : c.toNat < 128 := by
  unfold Char.toLower at h
  split at h
  · rename_i hcap
    have hle : c.toNat ≤ 90 := hcap.2
    omega
  · exact h

theorem toNat_lt_of_digitValue (h : digitValue c = some d) : c.toNat < 128 := by
  unfold digitValue at h
  split at h
  · rename_i hdigit
    have hle : c.toNat ≤ 57 := hdigit.2
    omega
  · split at h
    · rename_i hletter
      have hle : c.toLower.toNat ≤ 122 := hletter.2
      exact toNat_lt_of_toLower (by omega)
    · cases h

/-- The digits of a base are the characters with a value below it. -/
theorem standsFor_iff (hbase : base ≤ 16) :
    StandsFor base c d ↔ digitValue c = some d ∧ d < base := by
  constructor
  · rintro ⟨hd, hc⟩
    have hascii := digitChar_ascii d (by omega)
    have hlt : c.toNat < 128 := by
      rcases hc with rfl | rfl
      · exact hascii.1
      · exact hascii.2
    have hvalue := digitValue_ascii c.toNat hlt d (by omega)
    rw [Char.ofNat_toNat] at hvalue
    exact ⟨hvalue.mpr hc, hd⟩
  · rintro ⟨hvalue, hd⟩
    have hiff := digitValue_ascii c.toNat (toNat_lt_of_digitValue hvalue) d (by omega)
    rw [Char.ofNat_toNat] at hiff
    exact ⟨hd, hiff.mp hvalue⟩

theorem StandsFor.unique {d' : Nat} (hbase : base ≤ 16) (h : StandsFor base c d)
    (h' : StandsFor base c d') : d' = d := by
  have hd := ((standsFor_iff hbase).mp h).1
  rw [((standsFor_iff hbase).mp h').1] at hd
  exact Option.some.inj hd

theorem StandsFor.ne {c' : Char} (hbase : base ≤ 16) (h : StandsFor base c d)
    (hnone : digitValue c' = none) : c ≠ c' := by
  rintro rfl
  rw [((standsFor_iff hbase).mp h).1] at hnone
  cases hnone

/-- A digit counts as one where underscores are looked for. -/
theorem StandsFor.isDigit {hex : Bool} (hbase : base ≤ 16) (hhex : base ≤ 10 ∨ hex = true)
    (h : StandsFor base c d) :
    (c.isDigit || (hex && decide ('a' ≤ c.toLower ∧ c.toLower ≤ 'f'))) = true := by
  have hvalue := ((standsFor_iff hbase).mp h).1
  have hascii := toNat_lt_of_digitValue hvalue
  rcases hhex with hten | rfl
  · have hdigit := isDigit_ascii c.toNat hascii d (lt_of_lt_of_le h.1 hten)
    rw [Char.ofNat_toNat] at hdigit
    rw [hdigit hvalue, Bool.true_or]
  · have hletter := isHexDigit_ascii c.toNat hascii d (lt_of_lt_of_le h.1 hbase)
    rw [Char.ofNat_toNat] at hletter
    rw [Bool.true_and, hletter hvalue]

/-- The letters that the reader takes for marks are the marks. -/
theorem toLower_eq_iff :
    (c.toLower = 'b' ↔ c = 'b' ∨ c = 'B') ∧ (c.toLower = 'o' ↔ c = 'o' ∨ c = 'O') ∧
      (c.toLower = 'x' ↔ c = 'x' ∨ c = 'X') := by
  by_cases hc : c.toNat < 128
  · have hiff := toLower_ascii c.toNat hc
    rwa [Char.ofNat_toNat] at hiff
  · have hlow : ¬ c.toLower.toNat < 128 := fun h => hc (toNat_lt_of_toLower h)
    have hne : ∀ l : Char, l.toNat < 128 → c.toLower ≠ l ∧ c ≠ l :=
      fun l hl => ⟨fun h => hlow (h ▸ hl), fun h => hc (h ▸ hl)⟩
    have hb := hne 'b' (by decide)
    have ho := hne 'o' (by decide)
    have hx := hne 'x' (by decide)
    simp [hb, ho, hx, hne 'B' (by decide), hne 'O' (by decide), hne 'X' (by decide)]

end Characters

/-! ## Digits -/

section Digits

variable {base limit v d n : Nat} {c : Char} {cs : List Char} {hex : Bool} {b : Before}

theorem Digits.le (hbase : 1 ≤ base) (h : Digits base v cs n) : v ≤ n := by
  induction h with
  | done v => exact le_rfl
  | digit stands more ih | apart stands more ih =>
      exact le_trans (le_trans (Nat.le_mul_of_pos_right _ hbase) (Nat.le_add_right _ _)) ih

/-- Digits that begin with a digit. -/
def Group (base v : Nat) (cs : List Char) (n : Nat) : Prop :=
  ∃ c d rest, cs = c :: rest ∧ StandsFor base c d ∧ Digits base (v * base + d) rest n

theorem not_group_underscore (hbase : base ≤ 16) : ¬ Group base v ('_' :: cs) n := by
  rintro ⟨c, d, rest, heq, hc, -⟩
  obtain ⟨rfl, -⟩ := List.cons.inj heq
  exact hc.ne hbase rfl rfl

theorem group_cons (hbase : base ≤ 16) (hc : StandsFor base c d) :
    Group base v (c :: cs) n ↔ Digits base (v * base + d) cs n := by
  refine ⟨?_, fun h => ⟨c, d, cs, rfl, hc, h⟩⟩
  rintro ⟨c', d', rest, heq, hc', hrest⟩
  obtain ⟨rfl, rfl⟩ := List.cons.inj heq
  exact hc.unique hbase hc' ▸ hrest

theorem digits_nil : Digits base v [] n ↔ n = v := by
  constructor
  · intro h
    cases h
    rfl
  · rintro rfl
    exact .done n

theorem digits_underscore (hbase : base ≤ 16) :
    Digits base v ('_' :: cs) n ↔ Group base v cs n := by
  constructor
  · intro h
    cases h with
    | digit stands more => exact absurd rfl (stands.ne hbase rfl)
    | apart stands more => exact ⟨_, _, _, rfl, stands, more⟩
  · rintro ⟨c, d, rest, rfl, hc, hrest⟩
    exact .apart hc hrest

theorem digits_cons (hc : c ≠ '_') : Digits base v (c :: cs) n ↔ Group base v (c :: cs) n := by
  constructor
  · intro h
    cases h with
    | digit stands more => exact ⟨_, _, _, rfl, stands, more⟩
    | apart stands more => exact absurd rfl hc
  · rintro ⟨c', d, rest, heq, hc', hrest⟩
    obtain ⟨rfl, rfl⟩ := List.cons.inj heq
    exact .digit hc' hrest

/-! ## Both looks at the digits -/

theorem readDigits_underscore :
    readDigits base limit v ('_' :: cs) = readDigits base limit v cs := by
  rw [readDigits, if_pos rfl]

theorem readDigits_digit (hbase : base ≤ 16) (hc : StandsFor base c d) :
    readDigits base limit v (c :: cs) =
      if limit ≤ v * base + d then .error .outOfRange
      else readDigits base limit (v * base + d) cs := by
  rw [readDigits, if_neg (hc.ne hbase rfl), ((standsFor_iff hbase).mp hc).1]
  exact if_neg (Nat.not_le.mpr hc.1)

/-- What is read is an underscore or a digit. -/
theorem standsFor_of_readDigits (hbase : base ≤ 16) (hc : c ≠ '_')
    (h : readDigits base limit v (c :: cs) = .ok n) : ∃ d, StandsFor base c d := by
  rw [readDigits, if_neg hc] at h
  cases hvalue : digitValue c with
  | none =>
      rw [hvalue] at h
      cases h
  | some d =>
      rw [hvalue] at h
      dsimp only at h
      split at h
      · cases h
      · exact ⟨d, (standsFor_iff hbase).mpr ⟨hvalue, by omega⟩⟩

/-- A digit is a digit for the look at the underscores too. -/
theorem underscoresFrom_digit (hbase : base ≤ 16) (hhex : base ≤ 10 ∨ hex = true)
    (hc : StandsFor base c d) :
    underscoresFrom hex b (c :: cs) = underscoresFrom hex .digit cs := by
  rw [underscoresFrom, if_pos (hc.isDigit hbase hhex)]

theorem underscoresFrom_underscore :
    underscoresFrom hex b ('_' :: cs) = (b == .digit && underscoresFrom hex .underscore cs) := by
  cases hex <;> rfl

/-- Both looks at digits that begin with a digit. -/
theorem read_group_iff (hbase : 1 ≤ base ∧ base ≤ 16) (hhex : base ≤ 10 ∨ hex = true)
    (hc : StandsFor base c d)
    (hrest : v * base + d < limit →
      ((readDigits base limit (v * base + d) cs = .ok n ∧ underscoresFrom hex .digit cs = true) ↔
        Digits base (v * base + d) cs n ∧ n < limit)) :
    (readDigits base limit v (c :: cs) = .ok n ∧ underscoresFrom hex b (c :: cs) = true) ↔
      Group base v (c :: cs) n ∧ n < limit := by
  rw [readDigits_digit hbase.2 hc, underscoresFrom_digit hbase.2 hhex hc, group_cons hbase.2 hc]
  by_cases hlarge : limit ≤ v * base + d
  · rw [if_pos hlarge]
    refine ⟨fun h => (nomatch h.1), fun h => ?_⟩
    have := h.1.le hbase.1
    omega
  · rw [if_neg hlarge]
    exact hrest (by omega)

/-- **Both looks together accept the digits of a base** that make a number below the limit.  Behind
a digit they may go on with an underscore, elsewhere they have to begin with a digit. -/
theorem readDigits_iff (hbase : 1 ≤ base ∧ base ≤ 16) (hhex : base ≤ 10 ∨ hex = true)
    (cs : List Char) : ∀ {v : Nat}, v < limit →
    ((readDigits base limit v cs = .ok n ∧ underscoresFrom hex .digit cs = true) ↔
      Digits base v cs n ∧ n < limit) ∧
    ∀ b, b ≠ .digit → (cs ≠ [] ∨ b = .underscore) →
      ((readDigits base limit v cs = .ok n ∧ underscoresFrom hex b cs = true) ↔
        Group base v cs n ∧ n < limit) := by
  -- Both statements at once: an underscore leads from the first to the second, a digit back.
  induction cs with
  | nil =>
      intro v hv
      refine ⟨?_, fun b _ hb => ?_⟩
      · rw [digits_nil, readDigits, underscoresFrom]
        refine ⟨fun h => ?_, fun h => ⟨h.1 ▸ rfl, rfl⟩⟩
        cases h.1
        exact ⟨rfl, hv⟩
      · obtain rfl := hb.resolve_left fun h => h rfl
        refine ⟨fun h => (nomatch h.2), ?_⟩
        rintro ⟨⟨c, d, rest, heq, -⟩, -⟩
        cases heq
  | cons c cs ih =>
      intro v hv
      by_cases hc : c = '_'
      · subst hc
        rw [readDigits_underscore, digits_underscore hbase.2]
        refine ⟨?_, fun b hb _ => ⟨fun h => ?_, fun h => absurd h.1 (not_group_underscore hbase.2)⟩⟩
        · rw [underscoresFrom_underscore]
          exact (ih hv).2 .underscore (by decide) (.inr rfl)
        · rw [underscoresFrom_underscore, beq_eq_false_iff_ne.mpr hb] at h
          cases h.2
      · rw [digits_cons hc]
        by_cases hd : ∃ d, StandsFor base c d
        · obtain ⟨d, hd⟩ := hd
          have hstep := fun b =>
            read_group_iff (v := v) (b := b) hbase hhex hd fun hlt => (ih hlt).1
          exact ⟨hstep .digit, fun b _ _ => hstep b⟩
        · have hread : readDigits base limit v (c :: cs) ≠ .ok n :=
            fun h => hd (standsFor_of_readDigits hbase.2 hc h)
          have hgroup : ¬ Group base v (c :: cs) n := by
            rintro ⟨c', d, rest, heq, hc', -⟩
            obtain ⟨rfl, -⟩ := List.cons.inj heq
            exact hd ⟨d, hc'⟩
          simp only [hread, hgroup, false_and, iff_self, implies_true, and_self]

/-- Digits without underscores pass the look at the underscores. -/
theorem underscoresFrom_of_notMem (hbase : base ≤ 16) (hhex : base ≤ 10 ∨ hex = true) :
    ∀ {cs : List Char} {v : Nat} {b : Before}, '_' ∉ cs → b ≠ .underscore →
      readDigits base limit v cs = .ok n → underscoresFrom hex b cs = true := by
  intro cs
  induction cs with
  | nil =>
      intro v b _ hb _
      rw [underscoresFrom]
      exact bne_iff_ne.mpr hb
  | cons c cs ih =>
      intro v b hmem hb hread
      have hc : c ≠ '_' := fun h => hmem (h ▸ List.mem_cons_self)
      obtain ⟨d, hd⟩ := standsFor_of_readDigits hbase hc hread
      rw [readDigits_digit hbase hd] at hread
      split at hread
      · cases hread
      · rw [underscoresFrom_digit hbase hhex hd]
        exact ih (fun h => hmem (List.mem_cons_of_mem _ h)) (by decide) hread

end Digits

/-! ## Literals without a sign -/

section Magnitudes

variable {bits base v n : Nat} {mark c : Char} {cs digits : List Char} {hex : Bool} {b : Before}

theorem parseUnsigned_split (hne : cs ≠ []) (hsplit : splitBase cs = (base, digits)) :
    parseUnsigned bits cs = .ok n ↔ readDigits base (2 ^ bits) 0 digits = .ok n ∧
      ('_' ∈ digits → underscoresFit cs = true) := by
  have hempty : cs.isEmpty = false := by simpa using hne
  have heq : parseUnsigned bits cs = readDigits base (2 ^ bits) 0 digits >>= fun n =>
      if (digits.contains '_' && !underscoresFit cs) = true then .error .syntaxError
      else .ok n := by
    simp only [parseUnsigned, hempty, hsplit]
    rfl
  rw [heq]
  cases readDigits base (2 ^ bits) 0 digits with
  | error e => exact ⟨fun h => (nomatch h), fun h => (nomatch h.1)⟩
  | ok m =>
      change (if _ then _ else _) = _ ↔ _
      by_cases hmem : '_' ∈ digits <;> cases underscoresFit cs <;> simp [hmem]

/-- Where the second look, past the mark, goes on at the digits of the first one, what is read is
what both find there. -/
theorem parseUnsigned_iff (hne : cs ≠ []) (hsplit : splitBase cs = (base, digits))
    (hbase : base ≤ 16) (hhex : base ≤ 10 ∨ hex = true) (hb : b ≠ .underscore)
    (hfit : readDigits base (2 ^ bits) 0 digits = .ok n →
      underscoresFit cs = underscoresFrom hex b digits) :
    parseUnsigned bits cs = .ok n ↔ readDigits base (2 ^ bits) 0 digits = .ok n ∧
      underscoresFrom hex b digits = true := by
  rw [parseUnsigned_split hne hsplit]
  refine and_congr_right fun hread => ?_
  rw [hfit hread]
  exact ⟨fun h => by_cases h fun hmem => underscoresFrom_of_notMem hbase hhex hmem hb hread,
    fun h _ => h⟩

/-- Behind a mark the digits of its base follow. -/
theorem splitBase_marked (hmark : (mark, base) ∈ marks) (hne : digits ≠ []) :
    splitBase ('0' :: mark :: digits) = (base, digits) ∧
      underscoresFit ('0' :: mark :: digits) = underscoresFrom (base == 16) .digit digits := by
  obtain ⟨d, rest, rfl⟩ := List.exists_cons_of_ne_nil hne
  revert hmark
  simp only [marks, List.mem_cons, Prod.mk.injEq, List.not_mem_nil, or_false]
  rintro (⟨rfl, rfl⟩ | ⟨rfl, rfl⟩ | ⟨rfl, rfl⟩ | ⟨rfl, rfl⟩ | ⟨rfl, rfl⟩ | ⟨rfl, rfl⟩) <;>
    exact ⟨rfl, rfl⟩

/-- A mark is no octal digit. -/
theorem not_standsFor_of_mark (hmark : (mark, base) ∈ marks) : ¬ StandsFor 8 mark n := by
  rw [standsFor_iff (by decide)]
  rintro ⟨hvalue, hlt⟩
  have hlarge : ∀ m ∈ marks, ∀ d < 8, digitValue m.1 ≠ some d := by decide
  exact hlarge _ hmark n hlt hvalue

theorem mem_marks_of_toLower (h : c.toLower = 'b' ∨ c.toLower = 'o' ∨ c.toLower = 'x') :
    ∃ base, (c, base) ∈ marks := by
  rw [toLower_eq_iff.1, toLower_eq_iff.2.1, toLower_eq_iff.2.2] at h
  rcases h with (rfl | rfl) | (rfl | rfl) | (rfl | rfl)
  · exact ⟨2, by decide⟩
  · exact ⟨2, by decide⟩
  · exact ⟨8, by decide⟩
  · exact ⟨8, by decide⟩
  · exact ⟨16, by decide⟩
  · exact ⟨16, by decide⟩

/-- Behind a leading zero that nothing marks octal digits follow. -/
theorem splitBase_octal
    (h : ∀ mark base digits, (mark, base) ∈ marks → cs = mark :: digits → digits = []) :
    splitBase ('0' :: cs) = (8, cs) := by
  rcases cs with _ | ⟨c, _ | ⟨d, rest⟩⟩
  · rfl
  · rfl
  · have hnone : ¬ (c.toLower = 'b' ∨ c.toLower = 'o' ∨ c.toLower = 'x') := by
      intro hc
      obtain ⟨base, hmark⟩ := mem_marks_of_toLower hc
      cases h c base (d :: rest) hmark rfl
    simp only [not_or] at hnone
    simp only [splitBase, if_neg hnone.1, if_neg hnone.2.1, if_neg hnone.2.2]

/-- What octal digits begin with is no mark, so the second look starts at the leading zero. -/
theorem underscoresFit_octal (hread : readDigits 8 (2 ^ bits) 0 cs = .ok n) :
    underscoresFit ('0' :: cs) = underscoresFrom false .digit cs := by
  rcases cs with _ | ⟨c, rest⟩
  · rfl
  · have hnone : ¬ (c.toLower = 'b' ∨ c.toLower = 'o' ∨ c.toLower = 'x') := by
      intro hc
      obtain ⟨base, hmark⟩ := mem_marks_of_toLower hc
      have hne : c ≠ '_' := by
        rintro rfl
        revert hc
        decide
      obtain ⟨d, hd⟩ := standsFor_of_readDigits (by decide) hne hread
      exact not_standsFor_of_mark hmark hd
    have hfit : underscoresFit ('0' :: c :: rest) =
        underscoresFrom false .start ('0' :: c :: rest) := if_neg hnone
    have hzero : StandsFor 8 '0' 0 := ⟨by decide, .inl rfl⟩
    rw [hfit, underscoresFrom_digit (by decide) (.inl (by decide)) hzero]

theorem splitBase_decimal (hc : c ≠ '0') : splitBase (c :: cs) = (10, c :: cs) := by
  unfold splitBase
  split
  · simp_all
  · simp_all
  · rfl

/-- Decimal digits begin with no sign, so the second look has nothing to pass over. -/
theorem underscoresFit_decimal (hc : c ≠ '0')
    (hread : readDigits 10 (2 ^ bits) 0 (c :: cs) = .ok n) :
    underscoresFit (c :: cs) = underscoresFrom false .start (c :: cs) := by
  have hplus : c ≠ '+' := by
    rintro rfl
    cases hread
  have hminus : c ≠ '-' := by
    rintro rfl
    cases hread
  unfold underscoresFit
  split
  · simp_all
  · simp_all
  · dsimp only
    split
    · simp_all
    · rfl

/-! ### The three forms -/

theorem standsFor_zero (hbase : 1 ≤ base ∧ base ≤ 16) (h : StandsFor base '0' n) : n = 0 :=
  StandsFor.unique hbase.2 ⟨hbase.1, .inl rfl⟩ h

theorem magnitude_decimal (hc : c ≠ '0') : Magnitude (c :: cs) n ↔ Group 10 0 (c :: cs) n := by
  constructor
  · intro h
    cases h with
    | @decimal d _ _ _ stands leading more =>
        exact ⟨c, d, cs, rfl, stands, by rwa [Nat.zero_mul, Nat.zero_add]⟩
    | octal more => exact absurd rfl hc
    | marked isMark some more => exact absurd rfl hc
  · rintro ⟨c', d, rest, heq, stands, more⟩
    obtain ⟨rfl, rfl⟩ := List.cons.inj heq
    rw [Nat.zero_mul, Nat.zero_add] at more
    refine .decimal stands ?_ more
    rintro rfl
    rcases stands.2 with h | h
    · exact hc h
    · exact hc h

theorem magnitude_marked (hmark : (mark, base) ∈ marks) (hne : digits ≠ []) :
    Magnitude ('0' :: mark :: digits) n ↔ Digits base 0 digits n := by
  refine ⟨fun h => ?_, .marked hmark hne⟩
  cases h with
  | decimal stands leading more => exact absurd (standsFor_zero (by decide) stands) leading
  | octal more =>
      have hne : mark ≠ '_' := by
        rintro rfl
        revert hmark
        simp [marks]
      obtain ⟨c, d, rest, heq, stands, -⟩ := (digits_cons hne).mp more
      obtain ⟨rfl, -⟩ := List.cons.inj heq
      exact absurd stands (not_standsFor_of_mark hmark)
  | @marked base' _ _ _ isMark some more =>
      have hunique : ∀ m ∈ marks, ∀ m' ∈ marks, m.1 = m'.1 → m.2 = m'.2 := by decide
      have hbase : base' = base := hunique _ isMark _ hmark rfl
      exact hbase ▸ more

theorem magnitude_octal
    (h : ∀ mark base digits, (mark, base) ∈ marks → cs = mark :: digits → digits = []) :
    Magnitude ('0' :: cs) n ↔ Digits 8 0 cs n := by
  refine ⟨fun hlit => ?_, .octal⟩
  cases hlit with
  | decimal stands leading more => exact absurd (standsFor_zero (by decide) stands) leading
  | octal more => exact more
  | marked isMark some more => exact absurd (h _ _ _ isMark rfl) some

/-- **Literals without a sign**: reading gives a number just if the text is a literal of it and it
has no more than the bits asked for. -/
theorem parseUnsigned_eq_ok_iff :
    parseUnsigned bits cs = .ok n ↔ Magnitude cs n ∧ n < 2 ^ bits := by
  have hpos : 0 < 2 ^ bits := Nat.two_pow_pos bits
  -- The cases are those of `splitBase`: nothing, a marked base, a leading zero, anything else.
  rcases cs with _ | ⟨c, cs⟩
  · exact ⟨fun h => (nomatch h), fun h => (nomatch h.1)⟩
  by_cases hc : c = '0'
  · subst hc
    by_cases hmarked : ∃ mark base digits, (mark, base) ∈ marks ∧ cs = mark :: digits ∧ digits ≠ []
    · obtain ⟨mark, base, digits, hmark, rfl, hne⟩ := hmarked
      have hbounds : ∀ m ∈ marks, (1 ≤ m.2 ∧ m.2 ≤ 16) ∧ (m.2 ≤ 10 ∨ (m.2 == 16) = true) := by
        decide
      obtain ⟨hbase, hhex⟩ := hbounds _ hmark
      obtain ⟨hsplit, hfit⟩ := splitBase_marked hmark hne
      rw [parseUnsigned_iff (by simp) hsplit hbase.2 hhex (by decide) fun _ => hfit,
        (readDigits_iff hbase hhex digits hpos).1, magnitude_marked hmark hne]
    · have hnone : ∀ mark base digits, (mark, base) ∈ marks → cs = mark :: digits → digits = [] :=
        fun mark base digits hmark heq => by_contra fun hne =>
          hmarked ⟨mark, base, digits, hmark, heq, hne⟩
      rw [parseUnsigned_iff (by simp) (splitBase_octal hnone) (by decide) (.inl (by decide))
          (by decide) underscoresFit_octal,
        (readDigits_iff (by decide) (.inl (by decide)) cs hpos).1, magnitude_octal hnone]
  · rw [parseUnsigned_iff (by simp) (splitBase_decimal hc) (by decide) (.inl (by decide))
        (by decide) (underscoresFit_decimal hc),
      (readDigits_iff (by decide) (.inl (by decide)) (c :: cs) hpos).2 .start (by decide)
        (.inl (by simp)), magnitude_decimal hc]

end Magnitudes

/-! ## Literals with a sign -/

section Signs

variable {bits n : Nat} {i : Int} {c : Char} {cs : List Char}

theorem Magnitude.head (h : Magnitude (c :: cs) n) : c ≠ '+' ∧ c ≠ '-' := by
  cases h with
  | decimal stands leading more => exact ⟨stands.ne (by decide) rfl, stands.ne (by decide) rfl⟩
  | octal more => exact ⟨by decide, by decide⟩
  | marked isMark some more => exact ⟨by decide, by decide⟩

/-- Behind a sign a literal without one is read, and refused where the number with its sign is out
of the range. -/
theorem parse_behind_sign_iff (bits : Nat) (cs : List Char) (i : Int) (out : Nat → Prop)
    [DecidablePred out] (value : Nat → Int) (hout : ∀ n, ¬ out n → n < 2 ^ bits) :
    (match parseUnsigned bits cs with
      | .error e => .error e
      | .ok n => if out n then .error .outOfRange else .ok (value n) : Except Fault Int) = .ok i ↔
      ∃ n, Magnitude cs n ∧ ¬ out n ∧ value n = i := by
  have hread : ∀ n, parseUnsigned bits cs = .ok n ↔ _ := fun _ => parseUnsigned_eq_ok_iff
  constructor
  · intro h
    cases hcs : parseUnsigned bits cs with
    | error e => cases hcs ▸ h
    | ok n =>
        rw [hcs] at h
        dsimp only at h
        split at h
        · cases h
        · rename_i hn
          exact ⟨n, ((hread n).mp hcs).1, hn, Except.ok.inj h⟩
  · rintro ⟨n, hlit, hn, rfl⟩
    rw [(hread n).mpr ⟨hlit, hout n hn⟩]
    exact if_neg hn

theorem IntegerLiteral.unsigned {signed : Bool} (h : IntegerLiteral signed cs i)
    (hsigned : ¬ signed = true) : ∃ n, Magnitude cs n ∧ (n : Int) = i := by
  cases h with
  | plain h => exact ⟨_, h, rfl⟩
  | plus allowed | minus allowed => exact absurd allowed hsigned

theorem parseSigned_plain (hplus : ∀ rest, cs ≠ '+' :: rest) (hminus : ∀ rest, cs ≠ '-' :: rest) :
    parseSigned bits cs = match parseUnsigned bits cs with
      | .error e => .error e
      | .ok n => if 2 ^ (bits - 1) ≤ n then .error .outOfRange else .ok (n : Int) := by
  unfold parseSigned
  split
  · exact absurd rfl (hplus _)
  · exact absurd rfl (hminus _)
  · rfl

/-- **Literals with a sign**: reading gives a number just if the text is a literal of it and it lies
in the range of the bits asked for. -/
theorem parseSigned_eq_ok_iff (hbits : 1 ≤ bits) :
    parseSigned bits cs = .ok i ↔
      IntegerLiteral true cs i ∧ -2 ^ (bits - 1) ≤ i ∧ i < 2 ^ (bits - 1) := by
  have hhalf : 2 ^ (bits - 1) < 2 ^ bits := Nat.pow_lt_pow_right (by decide) (by omega)
  have hpos : 0 < 2 ^ (bits - 1) := Nat.two_pow_pos _
  have hcast : (2 : Int) ^ (bits - 1) = ((2 ^ (bits - 1) : Nat) : Int) := by push_cast; rfl
  have hbelow := fun cs => parse_behind_sign_iff bits cs i (fun n => 2 ^ (bits - 1) < n)
    (fun n => -(n : Int)) fun n hn => by omega
  have habove := fun cs => parse_behind_sign_iff bits cs i (fun n => 2 ^ (bits - 1) ≤ n)
    (fun n => (n : Int)) fun n hn => by omega
  rw [hcast]
  -- What follows a sign is no literal with another one, as no magnitude begins with a sign.
  by_cases hplus : ∃ rest, cs = '+' :: rest
  · obtain ⟨rest, rfl⟩ := hplus
    refine (habove rest).trans ⟨?_, ?_⟩
    · rintro ⟨n, hlit, hn, rfl⟩
      exact ⟨.plus rfl hlit, by omega, by omega⟩
    · rintro ⟨h, hlow, hhigh⟩
      cases h with
      | plain h => exact absurd rfl h.head.1
      | plus _ h => exact ⟨_, h, by omega, rfl⟩
  by_cases hminus : ∃ rest, cs = '-' :: rest
  · obtain ⟨rest, rfl⟩ := hminus
    refine (hbelow rest).trans ⟨?_, ?_⟩
    · rintro ⟨n, hlit, hn, rfl⟩
      exact ⟨.minus rfl hlit, by omega, by omega⟩
    · rintro ⟨h, hlow, hhigh⟩
      cases h with
      | plain h => exact absurd rfl h.head.2
      | minus _ h => exact ⟨_, h, by omega, rfl⟩
  rw [parseSigned_plain (fun rest h => hplus ⟨rest, h⟩) fun rest h => hminus ⟨rest, h⟩]
  refine (habove cs).trans ⟨?_, ?_⟩
  · rintro ⟨n, hlit, hn, rfl⟩
    exact ⟨.plain hlit, by omega, by omega⟩
  · rintro ⟨h, hlow, hhigh⟩
    cases h with
    | plain h => exact ⟨_, h, by omega, rfl⟩
    | plus _ h => exact absurd ⟨_, rfl⟩ hplus
    | minus _ h => exact absurd ⟨_, rfl⟩ hminus

end Signs

end WireSchema.Number
