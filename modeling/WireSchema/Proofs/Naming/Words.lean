import Mathlib
import WireSchema.Naming.Ident
import WireSchema.Proofs.Naming.Distance
import WireSchema.Proofs.Text.Case

/-!
# The words of an identifier are all of it but its separators

Before they are lower-cased the words of an identifier lie in it one after the other, with nothing
but separators around them (`LiesIn`).  While an identifier is cut, this holds of the words so far
together with the current one, whichever rule ends that; so where the words are cut does not matter
for what they are together.

`Alike` relates texts of which one becomes the other by changing the case of characters and by
moving separators.  A change of case makes no separator and takes none away, since no case mapping
leads to a separator or from one.

## Main results

* `words_liesIn` — the words lie in the identifier.
* `normalize_eq` — the normal form is the characters that are no separators, lower-cased.
* `normalize_eq_iff_alike` — normal forms tell what is not alike, and nothing else.
* `words_exact` — all of it, for every byte string.
-/

namespace WireSchema.Ident

/-! ## Words in a text -/

/-- The words stand in the text in this order, no two at the same place.  They are not empty and
hold no separators, and around them there are only separators. -/
inductive LiesIn : List (List Char) → List Char → Prop
  | none : LiesIn [] []
  | separator {c : Char} {cs : List Char} {ws : List (List Char)} (h : isSeparator c = true)
      (rest : LiesIn ws cs) : LiesIn ws (c :: cs)
  | word {w cs : List Char} {ws : List (List Char)} (hne : w ≠ [])
      (hw : ∀ c ∈ w, isSeparator c = false) (rest : LiesIn ws cs) : LiesIn (w :: ws) (w ++ cs)

variable {cs : List Char} {ws : List (List Char)}

namespace LiesIn

theorem ne_nil (h : LiesIn ws cs) : ∀ w ∈ ws, w ≠ [] := by
  induction h with
  | none => exact fun w hw => absurd hw List.not_mem_nil
  | separator _ _ ih => exact ih
  | word hne _ _ ih => exact List.forall_mem_cons.mpr ⟨hne, ih⟩

/-- Put together, the words are the text without its separators. -/
theorem flatten_eq (h : LiesIn ws cs) : ws.flatten = cs.filter fun c => !isSeparator c := by
  induction h with
  | none => rfl
  | separator hc _ ih => rw [ih, List.filter_cons_of_neg (by simp [hc])]
  | @word w cs ws _ hw _ ih =>
      have hkept : (w.filter fun c => !isSeparator c) = w :=
        List.filter_eq_self.mpr fun c hc => by rw [hw c hc, Bool.not_false]
      rw [List.flatten_cons, ih, List.filter_append, hkept]

end LiesIn

/-- Each word lower-cased. -/
def lowered (ws : List (List Char)) : List (List Char) := ws.map fun w => w.map Text.toLower

/-- Ending the current word puts it in front of the words that come after it. -/
theorem flush_liesIn {current : List Char} (hcurrent : ∀ c ∈ current, isSeparator c = false)
    (rest : LiesIn ws cs) :
    ∃ ws', LiesIn ws' (current.reverse ++ cs) ∧ flush current ++ lowered ws = lowered ws' := by
  cases current with
  | nil => exact ⟨ws, rest, rfl⟩
  | cons c current =>
      refine ⟨(c :: current).reverse :: ws, .word (by simp) ?_ rest, rfl⟩
      intro d hd
      exact hcurrent d (List.mem_reverse.mp hd)

/-- **What is still to be cut lies in the text that is left**, with the current word in front. -/
theorem wordsFrom_liesIn (cs : List Char) : ∀ (before : Option Char) (current : List Char),
    (∀ c ∈ current, isSeparator c = false) →
      ∃ ws, LiesIn ws (current.reverse ++ cs) ∧ wordsFrom before current cs = lowered ws := by
  induction cs with
  | nil =>
      intro before current hcurrent
      obtain ⟨ws, hlies, hwords⟩ := flush_liesIn hcurrent .none
      exact ⟨ws, hlies, (List.append_nil _).symm.trans hwords⟩
  | cons c cs ih =>
      intro before current hcurrent
      rw [wordsFrom]
      by_cases hsep : isSeparator c = true
      · rw [if_pos hsep]
        obtain ⟨ws, hlies, hwords⟩ := ih (some c) [] (List.forall_mem_nil _)
        rw [hwords]
        exact flush_liesIn hcurrent (.separator hsep hlies)
      · rw [if_neg hsep]
        have hc : isSeparator c = false := Bool.eq_false_iff.mpr hsep
        by_cases hstarts : startsWord before c cs.head? = true
        · rw [if_pos hstarts]
          obtain ⟨ws, hlies, hwords⟩ := ih (some c) [c] (List.forall_mem_singleton.mpr hc)
          rw [hwords]
          exact flush_liesIn hcurrent hlies
        · -- The character joins the current word, and the text stays the same.
          rw [if_neg hstarts]
          obtain ⟨ws, hlies, hwords⟩ :=
            ih (some c) (c :: current) (List.forall_mem_cons.mpr ⟨hc, hcurrent⟩)
          exact ⟨ws, by simpa using hlies, hwords⟩

theorem words_liesIn (cs : List Char) : ∃ ws, LiesIn ws cs ∧ words cs = lowered ws :=
  wordsFrom_liesIn cs none [] (List.forall_mem_nil _)

/-- **The normal form is the characters that are no separators, lower-cased.** -/
theorem normalize_eq (cs : List Char) :
    normalize cs = (cs.filter fun c => !isSeparator c).map Text.toLower := by
  obtain ⟨ws, hlies, hwords⟩ := words_liesIn cs
  rw [normalize, hwords, lowered, ← List.map_flatten, hlies.flatten_eq]

/-! ## Separators and case -/

/-- Where the separators are. -/
def separators : List Nat :=
  [0x5f, 0x2d, 0x2e] ++ ([0x09, 0x0a, 0x0b, 0x0c, 0x0d, 0x20, 0x85, 0xa0, 0x1680, 0x2028, 0x2029,
    0x202f, 0x205f, 0x3000] ++ List.range' 0x2000 11)

theorem toNat_mem_separators {c : Char} (h : isSeparator c = true) : c.toNat ∈ separators := by
  simp only [isSeparator, Text.isBlank, Bool.or_eq_true, beq_iff_eq, List.contains_iff_mem,
    decide_eq_true_eq] at h
  rcases h with ((rfl | rfl) | rfl) | hlisted | hspace
  · decide
  · decide
  · decide
  · exact List.mem_append_right _ (List.mem_append_left _ hlisted)
  · refine List.mem_append_right _ (List.mem_append_right _ (List.mem_range'_1.mpr ?_))
    omega

theorem toLower_separators : ∀ n ∈ separators, Text.toLower (Char.ofNat n) = Char.ofNat n := by
  decide +kernel

/-- No row of the lower-case mapping leads to a separator. -/
theorem lowerRows_separators : ∀ n ∈ separators, n ≠ 0 ∧ (Char.ofNat n).isLower = false ∧
    ∀ row ∈ Text.lowerRows, (n : Int) < row.1 + row.2.2.2 ∨
      ((row.1 + row.2.1 * row.2.2.1 : Nat) : Int) + row.2.2.2 ≤ n := by
  decide +kernel

/-- **Lower-casing neither makes a separator nor takes one away.** -/
theorem isSeparator_toLower (c : Char) : isSeparator (Text.toLower c) = isSeparator c := by
  rw [Bool.eq_iff_iff]
  constructor
  · intro h
    obtain ⟨hzero, hlower, hclear⟩ := lowerRows_separators _ (toNat_mem_separators h)
    rw [Char.ofNat_toNat] at hlower
    rw [Text.eq_of_toLower_eq hzero hlower hclear rfl]
    exact h
  · intro h
    have hsame := toLower_separators _ (toNat_mem_separators h)
    rw [Char.ofNat_toNat] at hsame
    rwa [hsame]

/-! ## Texts that are alike -/

/-- Texts that differ only in the case of their characters and in where separators stand. -/
inductive Alike : List Char → List Char → Prop
  | nil : Alike [] []
  | recased {c d : Char} {as bs : List Char} (h : Text.toLower c = Text.toLower d)
      (rest : Alike as bs) : Alike (c :: as) (d :: bs)
  | left {c : Char} {as bs : List Char} (h : isSeparator c = true) (rest : Alike as bs) :
      Alike (c :: as) bs
  | right {d : Char} {as bs : List Char} (h : isSeparator d = true) (rest : Alike as bs) :
      Alike as (d :: bs)

variable {as bs : List Char}

theorem normalize_cons (c : Char) (cs : List Char) : normalize (c :: cs) =
    if isSeparator c then normalize cs else Text.toLower c :: normalize cs := by
  rw [normalize_eq, normalize_eq, List.filter_cons]
  cases isSeparator c <;> rfl

theorem Alike.normalize_eq (h : Alike as bs) : normalize as = normalize bs := by
  induction h with
  | nil => rfl
  | @recased c d as bs hcase _ ih =>
      have hsep : isSeparator c = isSeparator d := by
        rw [← isSeparator_toLower c, hcase, isSeparator_toLower]
      rw [normalize_cons, normalize_cons, hsep, hcase, ih]
  | left hsep _ ih => rw [normalize_cons, if_pos hsep, ih]
  | right hsep _ ih => rw [normalize_cons, if_pos hsep, ih]

/-- Texts with the same normal form are alike: separators go first, on either side, and then the
characters in front are the same but for their case. -/
theorem alike_of_normalize_eq (h : normalize as = normalize bs) : Alike as bs := by
  induction as generalizing bs with
  | nil =>
      induction bs with
      | nil => exact .nil
      | cons d bs ih =>
          by_cases hd : isSeparator d = true
          · rw [normalize_cons d, if_pos hd] at h
            exact .right hd (ih h)
          · rw [normalize_cons d, if_neg hd] at h
            cases h
  | cons c as ih =>
      by_cases hc : isSeparator c = true
      · rw [normalize_cons c, if_pos hc] at h
        exact .left hc (ih h)
      · induction bs with
        | nil =>
            rw [normalize_cons c, if_neg hc] at h
            cases h
        | cons d bs ihbs =>
            by_cases hd : isSeparator d = true
            · rw [normalize_cons d, if_pos hd] at h
              exact .right hd (ihbs h)
            · rw [normalize_cons c, if_neg hc, normalize_cons d, if_neg hd] at h
              obtain ⟨hcase, hrest⟩ := List.cons.inj h
              exact .recased hcase (ih hrest)

/-- **Two texts have the same normal form exactly when they are alike.** -/
theorem normalize_eq_iff_alike : normalize as = normalize bs ↔ Alike as bs :=
  ⟨alike_of_normalize_eq, Alike.normalize_eq⟩

/-! ## Byte strings -/

open Naming (charsOf)

/-- **Cutting an identifier into words loses and invents nothing.**  The words lie in the identifier
with nothing but separators around them, none of them is empty, and together they are its characters
without the separators, lower-cased.  Where they are cut does not matter: two identifiers have the
same normal form exactly when they differ only in case and in where separators stand. -/
theorem words_exact (s : List UInt8) :
    (∃ ws, LiesIn ws (charsOf s) ∧ words (charsOf s) = lowered ws) ∧
    [] ∉ words (charsOf s) ∧
    (words (charsOf s)).flatten = normalize (charsOf s) ∧
    normalize (charsOf s) = ((charsOf s).filter fun c => !isSeparator c).map Text.toLower ∧
    ∀ t, normalize (charsOf s) = normalize (charsOf t) ↔ Alike (charsOf s) (charsOf t) := by
  refine ⟨words_liesIn _, ?_, rfl, normalize_eq _, fun t => normalize_eq_iff_alike⟩
  obtain ⟨ws, hlies, hwords⟩ := words_liesIn (charsOf s)
  rw [hwords]
  intro hmem
  obtain ⟨w, hw, hempty⟩ := List.mem_map.mp hmem
  exact hlies.ne_nil w hw (List.map_eq_nil_iff.mp hempty)

/-- A run of capitals ends before its last one if a small letter follows. -/
example : words "XMLParser_of.IDs".toList =
    ["xml".toList, "parser".toList, "of".toList, "i".toList, "ds".toList] := by
  decide +kernel

end WireSchema.Ident
