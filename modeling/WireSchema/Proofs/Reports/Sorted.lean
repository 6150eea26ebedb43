import Mathlib
import WireSchema.Diagnostic

/-!
# Sorted reports

A report is sorted by type, field and code, and findings that agree in all three keep the order they
came in.  So a sorted report depends on less than the report: reports in which every type has the
same findings in the same order are sorted into the same one.  Reports about different types can
therefore be joined in any order before they are sorted.

## Main results

* `mergeSort_eq_of_filter` — a stable sort depends only on the order among tied elements.
* `sort_eq_of_sameByType` — reports with the same findings for each type sort into the same report.
* `sameByType_join` — reports about different types may be joined in any order.
-/

namespace WireSchema

/-! ## Stable sorting -/

section Stable

variable {α : Type} {le : α → α → Bool}
  (trans : ∀ a b c, le a b = true → le b c = true → le a c = true)
  (total : ∀ a b, (le a b || le b a) = true)

/-- Either may stand before the other. -/
def tied (le : α → α → Bool) (a b : α) : Bool := le a b && le b a

/-- Sorted lists with the same tied elements in the same order are the same. -/
theorem eq_of_filter_tied (refl : ∀ a, le a a = true) {l l' : List α}
    (hl : l.Pairwise fun a b => le a b = true) (hl' : l'.Pairwise fun a b => le a b = true)
    (h : ∀ a, l.filter (tied le a) = l'.filter (tied le a)) : l = l' := by
  have hself : ∀ a, tied le a a = true := fun a => by simp [tied, refl a]
  induction l generalizing l' with
  | nil =>
      cases l' with
      | nil => rfl
      | cons b l' =>
          have hb := h b
          rw [List.filter_cons_of_pos (hself b)] at hb
          cases hb
  | cons a l ih =>
      cases l' with
      | nil =>
          have ha := h a
          rw [List.filter_cons_of_pos (hself a)] at ha
          cases ha
      | cons b l' =>
          obtain ⟨hfirst, hrest⟩ := List.pairwise_cons.mp hl
          obtain ⟨hfirst', hrest'⟩ := List.pairwise_cons.mp hl'
          -- Each head occurs in the other list, so the heads are tied and come first among equals.
          have hab : le a b = true := by
            have hmem : b ∈ (a :: l).filter (tied le b) := by
              rw [h b]
              exact List.mem_filter.mpr ⟨List.mem_cons_self, hself b⟩
            rcases List.mem_cons.mp (List.mem_filter.mp hmem).1 with rfl | hmem
            · exact refl b
            · exact hfirst b hmem
          have hba : le b a = true := by
            have hmem : a ∈ (b :: l').filter (tied le a) := by
              rw [← h a]
              exact List.mem_filter.mpr ⟨List.mem_cons_self, hself a⟩
            rcases List.mem_cons.mp (List.mem_filter.mp hmem).1 with rfl | hmem
            · exact refl a
            · exact hfirst' a hmem
          obtain rfl : a = b := by
            have hheads := h a
            rw [List.filter_cons_of_pos (hself a),
              List.filter_cons_of_pos (by simp [tied, hab, hba])] at hheads
            exact (List.cons.inj hheads).1
          refine congrArg (a :: ·) (ih hrest hrest' fun c => ?_)
          have hc := h c
          cases hca : tied le c a with
          | true =>
              rw [List.filter_cons_of_pos hca, List.filter_cons_of_pos hca] at hc
              exact (List.cons.inj hc).2
          | false =>
              rw [List.filter_cons_of_neg (by simp [hca]),
                List.filter_cons_of_neg (by simp [hca])] at hc
              exact hc

include trans total

/-- Sorting keeps the order of tied elements. -/
theorem filter_mergeSort (l : List α) (a : α) :
    (l.mergeSort le).filter (tied le a) = l.filter (tied le a) := by
  have hpair : (l.filter (tied le a)).Pairwise fun b c => le b c = true := by
    refine List.pairwise_of_forall_mem_list fun b hb c hc => ?_
    have hba := (List.mem_filter.mp hb).2
    have hac := (List.mem_filter.mp hc).2
    simp only [tied, Bool.and_eq_true] at hba hac
    exact trans b a c hba.2 hac.1
  have hsub : (l.filter (tied le a)).Sublist (l.mergeSort le) :=
    List.sublist_mergeSort trans total hpair List.filter_sublist
  have hfilter := hsub.filter (tied le a)
  rw [List.filter_filter] at hfilter
  simp only [Bool.and_self] at hfilter
  have hlen := ((List.mergeSort_perm l le).filter (tied le a)).length_eq
  exact (hfilter.eq_of_length hlen.symm).symm

/-- **A stable sort depends only on the order among tied elements.** -/
theorem mergeSort_eq_of_filter {l l' : List α}
    (h : ∀ a, l.filter (tied le a) = l'.filter (tied le a)) : l.mergeSort le = l'.mergeSort le := by
  have refl : ∀ a, le a a = true := fun a => by simpa using total a a
  refine eq_of_filter_tied refl (List.pairwise_mergeSort trans total l)
    (List.pairwise_mergeSort trans total l') fun a => ?_
  rw [filter_mergeSort trans total, filter_mergeSort trans total, h a]

end Stable

/-! ## The order of findings -/

namespace Diagnostic

/-- The key findings are sorted by. -/
def key (d : Diagnostic) : String ×ₗ String ×ₗ String := toLex (d.type, toLex (d.field, d.code))

theorem notAfter_iff (a b : Diagnostic) : notAfter a b = true ↔ a.key ≤ b.key := by
  simp only [notAfter, key, Prod.Lex.toLex_le_toLex]
  by_cases htype : a.type = b.type
  · by_cases hfield : a.field = b.field
    · simp [htype, hfield]
    · simp [htype, hfield]
  · simp [htype]

theorem notAfter_trans (a b c : Diagnostic) (hab : notAfter a b = true)
    (hbc : notAfter b c = true) : notAfter a c = true := by
  rw [notAfter_iff] at hab hbc ⊢
  exact hab.trans hbc

theorem notAfter_total (a b : Diagnostic) : (notAfter a b || notAfter b a) = true := by
  rw [Bool.or_eq_true, notAfter_iff, notAfter_iff]
  exact le_total a.key b.key

/-- Tied findings concern the same type. -/
theorem type_eq_of_tied {a b : Diagnostic} (h : tied notAfter a b = true) : b.type = a.type := by
  simp only [tied, Bool.and_eq_true, notAfter_iff] at h
  have hkey : b.key = a.key := h.2.antisymm h.1
  exact congrArg (fun k => (ofLex k).1) hkey

end Diagnostic

/-! ## Findings by severity and type -/

namespace Report

/-- The findings of a severity. -/
def found (r : Report) : Severity → List Diagnostic
  | .error => r.errors
  | .warning => r.warnings
  | .info => r.infos

theorem ext_found {a b : Report} (h : ∀ s, a.found s = b.found s) : a = b := by
  obtain ⟨ae, aw, ai⟩ := a
  obtain ⟨be, bw, bi⟩ := b
  obtain rfl : ae = be := h .error
  obtain rfl : aw = bw := h .warning
  obtain rfl : ai = bi := h .info
  rfl

section Found

variable (s : Severity) (a b : Report)

@[simp] theorem found_empty : empty.found s = [] := by cases s <;> rfl

@[simp] theorem found_append : (a ++ b).found s = a.found s ++ b.found s := by cases s <;> rfl

@[simp] theorem found_join (rs : List Report) : (join rs).found s = rs.flatMap (·.found s) := by
  induction rs with
  | nil => exact found_empty s
  | cons r rest ih =>
      rw [List.flatMap_cons, ← ih]
      exact found_append s r (join rest)

@[simp] theorem found_sort : a.sort.found s = (a.found s).mergeSort Diagnostic.notAfter := by
  cases s <;> rfl

end Found

/-- For every type the same findings in the same order. -/
def SameByType (a b : Report) : Prop :=
  ∀ (s : Severity) (type : String),
    (a.found s).filter (·.type == type) = (b.found s).filter (·.type == type)

/-- **Reports with the same findings for each type sort into the same report.** -/
theorem sort_eq_of_sameByType {a b : Report} (h : a.SameByType b) : a.sort = b.sort := by
  refine ext_found fun s => ?_
  rw [found_sort, found_sort]
  refine mergeSort_eq_of_filter Diagnostic.notAfter_trans Diagnostic.notAfter_total fun d => ?_
  have hnarrow : ∀ l : List Diagnostic, l.filter (tied Diagnostic.notAfter d) =
      (l.filter (·.type == d.type)).filter (tied Diagnostic.notAfter d) := by
    intro l
    rw [List.filter_filter]
    refine List.filter_congr fun e _ => ?_
    cases htied : tied Diagnostic.notAfter d e with
    | false => rfl
    | true => simp [Diagnostic.type_eq_of_tied htied]
  rw [hnarrow (a.found s), hnarrow (b.found s), h s d.type]

theorem SameByType.refl (a : Report) : a.SameByType a := fun _ _ => rfl

theorem SameByType.append {a a' b b' : Report} (ha : a.SameByType a') (hb : b.SameByType b') :
    (a ++ b).SameByType (a' ++ b') := by
  intro s type
  rw [found_append, found_append, List.filter_append, List.filter_append, ha s type, hb s type]

/-- Every finding concerns the type. -/
def Concerns (type : String) (r : Report) : Prop := ∀ s, ∀ d ∈ r.found s, d.type = type

namespace Concerns

variable {type : String} {a b : Report}

@[simp] theorem empty : Report.empty.Concerns type := by
  intro s d hd
  rw [found_empty] at hd
  cases hd

@[simp] theorem error (code message field : String) (suggestions : List String) :
    (Report.error code message type field suggestions).Concerns type := by
  intro s d hd
  cases s with
  | error => rw [List.mem_singleton.mp hd]
  | warning => cases hd
  | info => cases hd

@[simp] theorem warning (code message field : String) :
    (Report.warning code message type field).Concerns type := by
  intro s d hd
  cases s with
  | error => cases hd
  | warning => rw [List.mem_singleton.mp hd]
  | info => cases hd

theorem append (ha : a.Concerns type) (hb : b.Concerns type) : (a ++ b).Concerns type := by
  intro s d hd
  rw [found_append] at hd
  rcases List.mem_append.mp hd with hd | hd
  · exact ha s d hd
  · exact hb s d hd

theorem join {rs : List Report} (h : ∀ r ∈ rs, r.Concerns type) :
    (Report.join rs).Concerns type := by
  intro s d hd
  rw [found_join] at hd
  obtain ⟨r, hr, hd⟩ := List.mem_flatMap.mp hd
  exact h r hr s d hd

/-- A report about one type has nothing to say about another. -/
theorem filter_eq_nil (h : a.Concerns type) (s : Severity) {other : String} (hne : type ≠ other) :
    (a.found s).filter (·.type == other) = [] := by
  refine List.filter_eq_nil_iff.mpr fun d hd => ?_
  rw [h s d hd]
  simpa using hne

end Concerns

/-- Two reports that do not concern a common type. -/
def Apart (a b : Report) : Prop :=
  ∃ type other, type ≠ other ∧ a.Concerns type ∧ b.Concerns other

theorem Apart.symm {a b : Report} (h : a.Apart b) : b.Apart a := by
  obtain ⟨type, other, hne, ha, hb⟩ := h
  exact ⟨other, type, hne.symm, hb, ha⟩

/-- The reports about items with different names are apart. -/
theorem pairwise_apart {α : Type} {items : List α} {name : α → String} {report : α → Report}
    (hnames : (items.map name).Nodup) (h : ∀ x ∈ items, (report x).Concerns (name x)) :
    (items.map report).Pairwise Apart := by
  refine List.pairwise_map.mpr ((List.pairwise_map.mp hnames).imp_of_mem ?_)
  intro x y hx hy hne
  exact ⟨name x, name y, hne, h x hx, h y hy⟩

/-- **Reports about different types may be joined in any order.** -/
theorem sameByType_join {rs rs' : List Report} (hperm : rs.Perm rs') (hapart : rs.Pairwise Apart) :
    (join rs).SameByType (join rs') := by
  intro s type
  rw [found_join, found_join, List.filter_flatMap, List.filter_flatMap]
  induction hperm with
  | nil => rfl
  | cons r _ ih =>
      rw [List.flatMap_cons, List.flatMap_cons, ih (List.pairwise_cons.mp hapart).2]
  | swap r t rest =>
      obtain ⟨one, other, hne, ht, hr⟩ :=
        (List.pairwise_cons.mp hapart).1 r List.mem_cons_self
      simp only [List.flatMap_cons, ← List.append_assoc]
      congr 1
      -- At most one of the two speaks of the type.
      by_cases hone : one = type
      · rw [hr.filter_eq_nil s (hone ▸ hne.symm), List.append_nil, List.nil_append]
      · rw [ht.filter_eq_nil s hone, List.append_nil, List.nil_append]
  | trans hfirst _ ih ih' =>
      exact (ih hapart).trans (ih' ((hfirst.pairwise_iff Apart.symm).mp hapart))

end Report

end WireSchema
