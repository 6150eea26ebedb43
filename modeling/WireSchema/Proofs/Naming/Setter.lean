import Mathlib
import WireSchema.Naming
import WireSchema.Proofs.Text.Case

/-!
# Attributes and the names of their setters

The setter of an attribute is `set` followed by the attribute with a capital first letter, and the
attribute is read back from it with a small one.  That only comes back to the attribute if its first
character is the small form of its own capital: a name that starts with a capital comes back with a
small letter, and one that starts with a character that has no capital is not taken for the rest of
a setter.

## Main results

* `setterField_setterName_iff` — the attributes that are read back from their setters.
* `isSettable_of_isAlpha` — of those that start with a letter of the basic alphabet, the ones that
  start with a small one.
-/

namespace WireSchema.Naming

open Text (Glyph)

/-! ## First characters -/

/-- A rule on glyphs, as one on characters. -/
theorem onString_toList (rule : List Glyph → List Glyph) (s : String) :
    (onString rule s).toList = (rule (s.toList.map .char)).map Glyph.toChar := by
  rw [onString, Text.ofString, String.toList_ofList]

theorem map_toChar_char (cs : List Char) : (cs.map Glyph.char).map Glyph.toChar = cs := by
  rw [List.map_map]
  exact List.map_id cs

theorem initialCap_toList (s : String) :
    (initialCap s).toList = match s.toList with
      | [] => []
      | c :: cs => Text.toUpper c :: cs := by
  rw [initialCap, onString_toList]
  cases s.toList with
  | nil => rfl
  | cons c cs => exact congrArg (Text.toUpper c :: ·) (map_toChar_char cs)

theorem lowerFirst_toList (s : String) :
    (lowerFirst s).toList = match s.toList with
      | [] => []
      | c :: cs => Text.toLower c :: cs := by
  rw [lowerFirst, onString_toList]
  cases s.toList with
  | nil => rfl
  | cons c cs => exact congrArg (Text.toLower c :: ·) (map_toChar_char cs)

/-- **Capitalizing a name twice is capitalizing it once.** -/
theorem initialCap_initialCap (s : String) : initialCap (initialCap s) = initialCap s := by
  refine String.toList_inj.mp ?_
  rw [initialCap_toList, initialCap_toList s]
  cases s.toList with
  | nil => rfl
  | cons c cs => exact congrArg (· :: cs) (Text.toUpper_toUpper c)

/-! ## Setters -/

theorem setterName_eq (s : String) : setterName s = "set" ++ initialCap s := by
  refine String.toList_inj.mp ?_
  rw [setterName, onString_toList, String.toList_append, initialCap, onString_toList]
  rfl

/-- The character is the small form of its capital. -/
def hasCapital (c : Char) : Bool :=
  Text.isUpper (Text.toUpper c) && Text.toLower (Text.toUpper c) == c

/-- The attribute can be named by its setter. -/
def isSettable (field : String) : Bool := field.toList.head?.any hasCapital

theorem setterField_setterName_toList (s : String) :
    (setterField (setterName s)).toList = match s.toList with
      | [] => ['s', 'e', 't']
      | c :: cs =>
          if Text.isUpper (Text.toUpper c) then Text.toLower (Text.toUpper c) :: cs
          else 's' :: 'e' :: 't' :: Text.toUpper c :: cs := by
  rw [setterField, onString_toList, setterName_eq, String.toList_append, initialCap_toList]
  cases s.toList with
  | nil => rfl
  | cons c cs =>
      show (if Text.isUpper (Text.toUpper c) then
          (Glyph.char (Text.toLower (Text.toUpper c)) :: cs.map .char)
        else .char 's' :: .char 'e' :: .char 't' :: .char (Text.toUpper c) :: cs.map .char).map
          Glyph.toChar = _
      by_cases hupper : Text.isUpper (Text.toUpper c) = true
      · rw [if_pos hupper]
        exact (congrArg (_ :: ·) (map_toChar_char cs)).trans (if_pos hupper).symm
      · rw [if_neg hupper]
        exact (congrArg (_ :: _ :: _ :: _ :: ·) (map_toChar_char cs)).trans (if_neg hupper).symm

/-- **Which attributes are read back from the names of their setters.** -/
theorem setterField_setterName_iff (s : String) :
    setterField (setterName s) = s ↔ isSettable s = true := by
  rw [← String.toList_inj, setterField_setterName_toList, isSettable]
  cases s.toList with
  | nil => simp
  | cons c cs =>
      simp only [List.head?_cons, Option.any_some, hasCapital, Bool.and_eq_true, beq_iff_eq]
      split
      · rename_i hupper
        simp [hupper]
      · rename_i hupper
        refine iff_of_false (fun h => ?_) fun h => hupper h.1
        have hlength := congrArg List.length h
        simp only [List.length_cons] at hlength
        omega

theorem hasCapital_ascii : ∀ n < 128, hasCapital (Char.ofNat n) = (Char.ofNat n).isLower := by
  decide +kernel

theorem isSettable_of_isAlpha {s : String} {c : Char} (hs : s.toList.head? = some c)
    (hc : c.isAlpha = true) : isSettable s = c.isLower := by
  have hlt : c.toNat < 128 := by
    rw [Char.isAlpha, Bool.or_eq_true, Text.isUpper_iff, Text.isLower_iff] at hc
    omega
  rw [isSettable, hs, Option.any_some, ← Char.ofNat_toNat c]
  exact hasCapital_ascii _ hlt

end WireSchema.Naming
