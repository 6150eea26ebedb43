import Mathlib
import WireSchema.Proofs.Emit.Files

/-!
# The first letter of a generated name

Type names and getters start with whatever character the upper-case mapping gives, stored fields
with what the lower-case mapping gives.  Neither mapping is onto: nothing is mapped to a capital of
the basic alphabet by the lower-case mapping, nor to a small letter of it by the upper-case one.  So
a stored field never has the name of a setter, of an appender or of a method that every type has;
but a character without case is mapped to itself by both, and then a stored field can have the name
of a getter.

## Main results

* `fieldIdent_ne_of_isCapitalized` — a stored field does not start with a capital.
* `fieldIdent_ne_constructName` — nor is it the constructor.
* `fieldIdent_ne_of_letter` — one that starts with a letter of the basic alphabet is no type name
  and no getter.
* `isIdent_append` — an identifier stays one behind a capitalized one.
-/

namespace WireSchema

namespace Emit

/-! ## First letters -/

/-- The text starts with a capital of the basic alphabet. -/
def isCapitalized (s : String) : Bool := s.toList.head?.any Char.isUpper

/-- The text starts with a small letter of the basic alphabet. -/
def isUncapitalized (s : String) : Bool := s.toList.head?.any Char.isLower

/-- The text starts with a letter of the basic alphabet. -/
def startsWithLetter (s : String) : Bool := s.toList.head?.any Char.isAlpha

variable {f s t : String}

theorem isCapitalized_append (h : isCapitalized s = true) (t : String) :
    isCapitalized (s ++ t) = true := by
  rw [isCapitalized, String.toList_append]
  unfold isCapitalized at h
  cases hs : s.toList with
  | nil =>
      rw [hs] at h
      cases h
  | cons c cs => simpa [hs] using h

theorem exported_head? (f : String) :
    (exported f).toList.head? = f.toList.head?.map Text.toUpper := by
  rw [exported, Naming.initialCap_toList]
  cases f.toList <;> rfl

theorem fieldIdent_head? (f : String) :
    (fieldIdent f).toList.head? = f.toList.head?.map Text.toLower := by
  have hfirst : (Naming.lowerFirst f).toList.head? = f.toList.head?.map Text.toLower := by
    rw [Naming.lowerFirst_toList]
    cases f.toList <;> rfl
  dsimp only [fieldIdent]
  split
  · rename_i hescaped
    rw [String.toList_append, List.head?_append, hfirst]
    -- the underscore would be the first character of the empty name, which is not escaped
    cases hf : f.toList with
    | nil =>
        obtain rfl : f = "" := String.toList_inj.mp hf
        exact absurd hescaped (by decide)
    | cons c cs => rfl
  · exact hfirst

theorem isUncapitalized_exported (f : String) : isUncapitalized (exported f) = false := by
  rw [isUncapitalized, exported_head?]
  cases f.toList with
  | nil => rfl
  | cons c cs => exact Text.isLower_toUpper c

theorem isCapitalized_exported (h : startsWithLetter f = true) :
    isCapitalized (exported f) = true := by
  rw [isCapitalized, exported_head?]
  unfold startsWithLetter at h
  cases hf : f.toList with
  | nil =>
      rw [hf] at h
      cases h
  | cons c cs =>
      rw [hf] at h
      exact (Text.cases_of_isAlpha h).2

theorem isCapitalized_fieldIdent (f : String) : isCapitalized (fieldIdent f) = false := by
  rw [isCapitalized, fieldIdent_head?]
  cases f.toList with
  | nil => rfl
  | cons c cs => exact Text.isUpper_toLower c

theorem isUncapitalized_fieldIdent (h : startsWithLetter f = true) :
    isUncapitalized (fieldIdent f) = true := by
  rw [isUncapitalized, fieldIdent_head?]
  unfold startsWithLetter at h
  cases hf : f.toList with
  | nil =>
      rw [hf] at h
      cases h
  | cons c cs =>
      rw [hf] at h
      exact (Text.cases_of_isAlpha h).1

/-! ## Stored fields against other names -/

theorem fieldIdent_ne_of_isCapitalized (h : isCapitalized s = true) : fieldIdent f ≠ s := by
  rintro rfl
  rw [isCapitalized_fieldIdent] at h
  cases h

theorem fieldIdent_ne_of_letter (h : startsWithLetter f = true) (hs : isUncapitalized s = false) :
    fieldIdent f ≠ s := by
  rintro rfl
  rw [isUncapitalized_fieldIdent h] at hs
  cases hs

theorem fieldIdent_ne_constructName (f : String) : fieldIdent f ≠ constructName := by
  dsimp only [fieldIdent]
  split
  · intro h
    have hlast := congrArg (fun s => s.toList.getLast?) h
    simp [constructName] at hlast
  · rename_i hplain
    intro h
    simp [h] at hplain

/-! ## Identifiers -/

theorem isWord_append {cs ds : List Char} (hcs : isWord cs = true) (hds : isWord ds = true) :
    isWord (cs ++ ds) = true := by
  cases cs with
  | nil => exact hds
  | cons c cs =>
      cases ds with
      | nil => rwa [List.append_nil]
      | cons d ds =>
          simp only [isWord, Bool.and_eq_true, List.cons_append, List.all_append, List.all_cons]
            at hcs hds ⊢
          exact ⟨hcs.1, hcs.2, by simp [continuesIdent, hds.1], hds.2⟩

/-- The reserved words are not capitalized. -/
theorem isIdent_of_isCapitalized (hword : isWord s.toList = true) (h : isCapitalized s = true) :
    isIdent s = true := by
  have hsmall : ∀ k ∈ keywords, isCapitalized k = false := by decide
  have hfree : s ∉ keywords := fun hmem => by
    rw [hsmall s hmem] at h
    cases h
  simp [isIdent, hword, hfree]

theorem isIdent_append (hs : isIdent s = true) (hcap : isCapitalized s = true)
    (ht : isIdent t = true) : isIdent (s ++ t) = true := by
  rw [isIdent, Bool.and_eq_true] at hs ht
  refine isIdent_of_isCapitalized ?_ (isCapitalized_append hcap t)
  rw [String.toList_append]
  exact isWord_append hs.1 ht.1

end Emit

end WireSchema
