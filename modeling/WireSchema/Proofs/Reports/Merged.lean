import Mathlib
import WireSchema.Proofs.Reports.Sorted

/-!
# Reports merged in any order

The reports of several types are merged one after the other, in the order in which the types were
finished, and sorted at the end.  Two findings of one key concern the same type, so they come from
the same report, and a stable sort leaves them as they stood there.  All that the order of merging
could decide is what comes first among findings of different keys, which the sort decides anew.

`Collects` says what the sorted report holds without mentioning how it was put together.

## Main results

* `merged_eq_join` — merging one after the other is joining.
* `collects_sort_merged` — every finding is there, in order, and ties are as they were.
* `sort_merged_exact` — the same report comes of every order of merging.
-/

namespace WireSchema

namespace Diagnostic

theorem tied_iff (a b : Diagnostic) : tied notAfter a b = true ↔ b.key = a.key := by
  rw [tied, Bool.and_eq_true, notAfter_iff, notAfter_iff]
  constructor
  · rintro ⟨hab, hba⟩
    exact hba.antisymm hab
  · intro hkey
    exact ⟨hkey.ge, hkey.le⟩

/-- The key of the findings of a code about a field. -/
def keyOf (type field code : String) : String ×ₗ String ×ₗ String :=
  toLex (type, toLex (field, code))

/-- A stable sort keeps the order of the findings of a key. -/
theorem filter_key_mergeSort (type field code : String) (ds : List Diagnostic) :
    (ds.mergeSort notAfter).filter (fun d => d.key = keyOf type field code) =
      ds.filter fun d => d.key = keyOf type field code := by
  -- Any finding of the key will do to say which others are tied with it.
  let sample : Diagnostic := ⟨.error, code, "", type, field, []⟩
  have htied : (fun d : Diagnostic => decide (d.key = keyOf type field code)) =
      tied notAfter sample := by
    funext d
    rw [Bool.eq_iff_iff, decide_eq_true_iff, tied_iff]
    rfl
  rw [htied]
  exact filter_mergeSort notAfter_trans notAfter_total ds sample

end Diagnostic

/-- Of pieces that are empty but for one, that one is all there is. -/
theorem flatMap_eq_of_single {α β : Type} {l : List α} {f : α → List β} {x : α} (hnodup : l.Nodup)
    (hx : x ∈ l) (hempty : ∀ y ∈ l, y ≠ x → f y = []) : l.flatMap f = f x := by
  induction l with
  | nil => cases hx
  | cons y l ih =>
      obtain ⟨hy, hl⟩ := List.nodup_cons.mp hnodup
      rw [List.flatMap_cons]
      by_cases hyx : y = x
      · subst hyx
        have hrest : l.flatMap f = [] := by
          apply List.flatMap_eq_nil_iff.mpr
          intro z hz
          exact hempty z (List.mem_cons_of_mem y hz) fun heq => hy (heq ▸ hz)
        rw [hrest, List.append_nil]
      · have hxl : x ∈ l := (List.mem_cons.mp hx).resolve_left fun heq => hyx heq.symm
        rw [hempty y List.mem_cons_self hyx, List.nil_append]
        exact ih hl hxl fun z hz => hempty z (List.mem_cons_of_mem y hz)

namespace Report

/-- The reports of the types, merged one after the other. -/
def merged (report : String → Report) (types : List String) : Report :=
  types.foldl (fun r type => r.merge (report type)) empty

/-- What a report holds that was collected from the reports of the types and sorted. -/
structure Collects (report : String → Report) (types : List String) (r : Report) : Prop where
  /-- Every finding is there as often as it was found. -/
  all : ∀ s, (r.found s).Perm (types.flatMap fun type => (report type).found s)
  /-- Findings are ordered by type, field and code. -/
  ordered : ∀ s, (r.found s).Pairwise fun a b => a.key ≤ b.key
  /-- Findings of one key stand as they did in the report of their type. -/
  stable : ∀ s, ∀ type ∈ types, ∀ field code,
    (r.found s).filter (fun d => d.key = Diagnostic.keyOf type field code) =
      ((report type).found s).filter fun d => d.key = Diagnostic.keyOf type field code
  /-- Sorting again changes nothing. -/
  settled : r.sort = r

section Merged

variable {report : String → Report} {types types' : List String}

theorem found_foldl_merge (s : Severity) (report : String → Report) (types : List String)
    (r : Report) :
    (types.foldl (fun r type => r.merge (report type)) r).found s =
      r.found s ++ types.flatMap fun type => (report type).found s := by
  induction types generalizing r with
  | nil => simp
  | cons type types ih =>
      show (types.foldl (fun r type => r.merge (report type)) (r ++ report type)).found s = _
      rw [ih, found_append, List.flatMap_cons, List.append_assoc]

@[simp] theorem found_merged (s : Severity) (report : String → Report) (types : List String) :
    (merged report types).found s = types.flatMap fun type => (report type).found s := by
  rw [merged, found_foldl_merge, found_empty, List.nil_append]

/-- **Merging one after the other is joining.** -/
theorem merged_eq_join (report : String → Report) (types : List String) :
    merged report types = join (types.map report) := by
  refine ext_found fun s => ?_
  rw [found_merged, found_join, List.flatMap_map]

/-- The findings of a key are those of the report of its type. -/
theorem filter_key_merged (hnames : types.Nodup)
    (hconcerns : ∀ type ∈ types, (report type).Concerns type) (s : Severity) {type : String}
    (htype : type ∈ types) (field code : String) :
    ((merged report types).found s).filter (fun d => d.key = Diagnostic.keyOf type field code) =
      ((report type).found s).filter fun d => d.key = Diagnostic.keyOf type field code := by
  rw [found_merged, List.filter_flatMap]
  apply flatMap_eq_of_single hnames htype
  intro other hother hne
  refine List.filter_eq_nil_iff.mpr fun d hd hkey => hne ?_
  have hfirst : d.type = type := congrArg (fun k => (ofLex k).1) (of_decide_eq_true hkey)
  rw [← hconcerns other hother s d hd, hfirst]

/-- **Every finding is there, in order, and ties are as they were.** -/
theorem collects_sort_merged (hnames : types.Nodup)
    (hconcerns : ∀ type ∈ types, (report type).Concerns type) :
    Collects report types (merged report types).sort where
  all s := by
    rw [found_sort, found_merged]
    exact List.mergeSort_perm _ _
  ordered s := by
    rw [found_sort]
    exact (List.pairwise_mergeSort Diagnostic.notAfter_trans Diagnostic.notAfter_total _).imp
      fun {a b} => (Diagnostic.notAfter_iff a b).mp
  stable s type htype field code := by
    rw [found_sort, Diagnostic.filter_key_mergeSort,
      filter_key_merged hnames hconcerns s htype field code]
  settled := by
    refine ext_found fun s => ?_
    rw [found_sort, found_sort]
    exact List.mergeSort_of_pairwise (List.pairwise_mergeSort Diagnostic.notAfter_trans
      Diagnostic.notAfter_total _)

/-- **Reports do not depend on the order in which types were finished.**  The reports of types, each
about its own, sort into the same report whatever order they are merged in, and that report has
every finding, ordered by key, with ties as they were. -/
theorem sort_merged_exact (hnames : types.Nodup)
    (hconcerns : ∀ type ∈ types, (report type).Concerns type) (hperm : types'.Perm types) :
    (merged report types').sort = (merged report types).sort ∧
      Collects report types (merged report types').sort := by
  have hsame : (merged report types').sort = (merged report types).sort := by
    rw [merged_eq_join, merged_eq_join]
    have hnames' : (types'.map id).Nodup := by
      rw [List.map_id]
      exact hperm.nodup_iff.mpr hnames
    have hapart : (types'.map report).Pairwise Apart :=
      pairwise_apart hnames' fun type htype => hconcerns type (hperm.mem_iff.mp htype)
    exact sort_eq_of_sameByType (sameByType_join (hperm.map report) hapart)
  exact ⟨hsame, hsame ▸ collects_sort_merged hnames hconcerns⟩

end Merged

/-- Two types with findings; two findings of the first are tied. -/
def tiedFindings (type : String) : Report :=
  if type = "Pdu" then
    error Diagnostic.unknownType "second" "Pdu" "body" ++
      error Diagnostic.unknownType "first" "Pdu" "body" ++ error "late" "third" "Pdu" "age"
  else if type = "Node" then
    error Diagnostic.unknownType "fourth" "Node" "next" ++ warning "idle" "fifth" "Node" ""
  else empty

theorem sort_merged_exact_tied :
    ["Pdu", "Node"].Nodup ∧
    (∀ type ∈ ["Pdu", "Node"], (tiedFindings type).Concerns type) ∧
    ["Node", "Pdu"].Perm ["Pdu", "Node"] ∧
    (merged tiedFindings ["Node", "Pdu"]).sort = (merged tiedFindings ["Pdu", "Node"]).sort ∧
    Collects tiedFindings ["Pdu", "Node"] (merged tiedFindings ["Node", "Pdu"]).sort ∧
    (((merged tiedFindings ["Node", "Pdu"]).sort.found .error).filter fun d =>
      d.key = Diagnostic.keyOf "Pdu" "body" Diagnostic.unknownType).map (·.message) =
      ["second", "first"] := by
  have hnames : ["Pdu", "Node"].Nodup := by decide
  have hconcerns : ∀ type ∈ ["Pdu", "Node"], (tiedFindings type).Concerns type := by
    intro type htype
    rcases List.mem_cons.mp htype with rfl | htype
    · exact ((Concerns.error _ _ _ _).append (Concerns.error _ _ _ _)).append
        (Concerns.error _ _ _ _)
    · rw [List.mem_singleton.mp htype]
      exact (Concerns.error _ _ _ _).append (Concerns.warning _ _ _)
  have hperm : ["Node", "Pdu"].Perm ["Pdu", "Node"] := List.Perm.swap _ _ _
  obtain ⟨hsame, hcollects⟩ := sort_merged_exact hnames hconcerns hperm
  refine ⟨hnames, hconcerns, hperm, hsame, hcollects, ?_⟩
  rw [hcollects.stable .error "Pdu" List.mem_cons_self]
  decide

end Report

end WireSchema
