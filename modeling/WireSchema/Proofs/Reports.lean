import Mathlib
import WireSchema.Diagnostic

/-!
# When a report has errors, and which

Reports are put together from small ones and sorted at the end.  Every check of a schema succeeds
when its report has no errors, so what matters of a composed report is only which of its pieces have
some.  The lemmas below push `hasErrors` down to the pieces; all are tagged for `simp`.

Where the errors themselves matter it is by the type they are reported under: `About` says that a
report has errors of one type only.
-/

namespace WireSchema.Report

@[simp] theorem hasErrors_empty : empty.hasErrors = false := rfl

@[simp] theorem hasErrors_error (code message type field : String) (suggestions : List String) :
    (error code message type field suggestions).hasErrors = true := rfl

@[simp] theorem hasErrors_warning (code message type field : String) :
    (warning code message type field).hasErrors = false := rfl

@[simp] theorem hasErrors_append (a b : Report) :
    (a ++ b).hasErrors = (a.hasErrors || b.hasErrors) := by
  show (!(a.errors ++ b.errors).isEmpty) = (!a.errors.isEmpty || !b.errors.isEmpty)
  cases a.errors with
  | nil => rfl
  | cons d rest => rfl

/-- A joined report has errors exactly when one of its pieces does. -/
@[simp] theorem hasErrors_join (rs : List Report) : (join rs).hasErrors = rs.any hasErrors := by
  induction rs with
  | nil => rfl
  | cons r rest ih =>
      have hstep : (join (r :: rest)).hasErrors = (r.hasErrors || (join rest).hasErrors) :=
        hasErrors_append r (join rest)
      rw [hstep, ih, List.any_cons]

/-- Sorting neither adds nor removes errors. -/
@[simp] theorem hasErrors_sort (r : Report) : r.sort.hasErrors = r.hasErrors := by
  have hperm : (r.errors.mergeSort Diagnostic.notAfter).Perm r.errors :=
    List.mergeSort_perm _ _
  show (!(r.errors.mergeSort Diagnostic.notAfter).isEmpty) = !r.errors.isEmpty
  rw [hperm.isEmpty_eq]

theorem hasErrors_iff {r : Report} : r.hasErrors = true ↔ ∃ d, d ∈ r.errors := by
  rw [hasErrors, Bool.not_eq_true', List.isEmpty_eq_false_iff_exists_mem]

@[simp] theorem errors_append (a b : Report) : (a ++ b).errors = a.errors ++ b.errors := rfl

@[simp] theorem mem_errors_join {d : Diagnostic} {rs : List Report} :
    d ∈ (join rs).errors ↔ ∃ r ∈ rs, d ∈ r.errors := by
  induction rs with
  | nil => simp [join, empty]
  | cons r rest ih =>
      change d ∈ r.errors ++ (join rest).errors ↔ _
      rw [List.mem_append, ih, List.exists_mem_cons_iff]

@[simp] theorem mem_errors_sort {d : Diagnostic} {r : Report} :
    d ∈ r.sort.errors ↔ d ∈ r.errors :=
  List.mem_mergeSort

/-- Every error is reported under the type. -/
def About (type : String) (r : Report) : Prop := ∀ d ∈ r.errors, d.type = type

namespace About

variable {type : String} {a b : Report}

theorem empty : Report.empty.About type := by
  intro d hd
  cases hd

theorem error (code message field : String) (suggestions : List String) :
    (Report.error code message type field suggestions).About type := by
  intro d hd
  rw [List.mem_singleton.mp hd]

theorem append (ha : a.About type) (hb : b.About type) : (a ++ b).About type := by
  intro d hd
  rcases List.mem_append.mp hd with hd | hd
  · exact ha d hd
  · exact hb d hd

theorem join {rs : List Report} (h : ∀ r ∈ rs, r.About type) : (Report.join rs).About type := by
  intro d hd
  obtain ⟨r, hr, hd⟩ := mem_errors_join.mp hd
  exact h r hr d hd

end About

end WireSchema.Report
