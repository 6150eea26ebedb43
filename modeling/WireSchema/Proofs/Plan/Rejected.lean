import Mathlib
import WireSchema.Proofs.Plan.Accepted

/-!
# Which types are rejected, and why

A type is rejected for errors of its own, or because it uses a rejected type.  The second rule is
applied round by round until a round rejects nothing new.  What comes out does not depend on the
rounds: a type is rejected exactly if some type with errors is reached from it along uses, through
any number of types and also around cycles.

In one direction this holds because whatever ends a round without effect is closed.  In the other it
is an invariant of every single rejection, as is that each rejected type has an error under its own
name and no other type has.

## Main results

* `mem_rejected_iff` — the rejected types are those from which a type with errors is reached.
* `rejected_eq_filter` — they are listed in the order of their declaration.
* `exists_error_iff` — they are the types with errors in the report.
* `failedTypes_eq` — so the report names them, apart from a type without a name.
-/

namespace WireSchema

/-- Nothing is dropped where nothing occurs twice. -/
theorem Report.distinct_of_nodup {α : Type} [DecidableEq α] {xs : List α} (h : xs.Nodup) :
    distinct xs = xs := by
  induction xs with
  | nil => rfl
  | cons x xs ih =>
      obtain ⟨hfresh, hrest⟩ := List.nodup_cons.mp h
      rw [distinct, ih hrest, List.filter_eq_self.mpr]
      intro y hy
      rw [decide_eq_true_eq]
      rintro rfl
      exact hfresh hy

theorem Report.nodup_distinct {α : Type} [DecidableEq α] (xs : List α) : (distinct xs).Nodup := by
  induction xs with
  | nil => exact List.nodup_nil
  | cons x xs ih =>
      rw [distinct, List.nodup_cons]
      refine ⟨fun hmem => ?_, ih.sublist List.filter_sublist⟩
      simp at hmem

/-- Sorted names do not depend on the order they were found in. -/
theorem mergeSort_eq_of_perm {xs ys : List String} (h : xs.Perm ys) :
    xs.mergeSort = ys.mergeSort := by
  have hsorted : ∀ l : List String, l.mergeSort.Pairwise fun a b => decide (a ≤ b) = true := by
    intro l
    refine List.pairwise_mergeSort (fun a b c hab hbc => ?_) (fun a b => ?_) l
    · simp only [decide_eq_true_eq] at hab hbc ⊢
      exact hab.trans hbc
    · simpa using le_total a b
  refine List.Perm.eq_of_pairwise (fun a b _ _ hab hba => ?_) (hsorted xs) (hsorted ys)
    (((List.mergeSort_perm xs _).trans h).trans (List.mergeSort_perm ys _).symm)
  simp only [decide_eq_true_eq] at hab hba
  exact hab.antisymm hba

namespace Plan

/-! ## The errors of the checks -/

section About

variable {m : Model} {sized : Bool} {i : Nat} {c : Class} {owner : String} {a : Attribute}

theorem checkElement_about (owner : String) (a : Attribute) :
    (checkElement owner a).About owner := by
  unfold checkElement unboundType
  split
  · exact .error _ _ _ _
  · exact .empty

theorem checkFixedList_about (n : Int) : (checkFixedList sized m owner a n).About owner := by
  refine ((checkElement_about owner a).append ?_).append ?_
  · split
    · exact .error _ _ _ _
    · exact .empty
  · split
    · split
      · exact .error _ _ _ _
      · exact .empty
    · exact .empty

theorem checkShape_about : (checkShape sized m owner a).About owner := by
  unfold checkShape unboundType
  split
  · exact .error _ _ _ _
  · split
    · exact .error _ _ _ _
    · exact .empty
  · split
    · exact .error _ _ _ _
    · exact .empty
  · exact checkFixedList_about _
  · exact checkElement_about _ _

theorem checkList_about (here : AttrRef) : (checkList m owner here a).About owner := by
  unfold checkList
  split
  · exact .error _ _ _ _
  · split
    · exact .error _ _ _ _
    · split
      · exact .error _ _ _ _
      · split
        · exact .empty
        · split
          · exact .error _ _ _ _
          · split
            · exact .error _ _ _ _
            · exact .empty

theorem checkCount_about (attributes : List Attribute) (here : AttrRef) :
    (checkCount owner attributes here a).About owner := by
  unfold checkCount
  split
  · exact .error _ _ _ _
  · refine Report.About.append ?_ ?_
    · split
      · exact .error _ _ _ _
      · exact .empty
    · split
      · exact .error _ _ _ _
      · exact .empty

/-- **The checks of a type report errors of that type only.** -/
theorem check_about : (check sized m i c).About c.name := by
  refine Report.About.append (.append (.append ?_ (.join ?_)) (.join ?_)) (.join ?_)
  · split
    · exact .error _ _ _ _
    · exact .empty
  · intro r hr
    obtain ⟨a, -, rfl⟩ := List.mem_map.mp hr
    exact checkShape_about
  · intro r hr
    obtain ⟨k, hk⟩ := List.mem_iff_getElem?.mp hr
    rw [List.getElem?_mapIdx, Option.map_eq_some_iff] at hk
    obtain ⟨a, -, rfl⟩ := hk
    split
    · exact checkList_about _
    · split
      · exact checkCount_about _ _
      · exact .empty
  · intro r hr
    obtain ⟨v, -, rfl⟩ := List.mem_map.mp hr
    split
    · exact .error _ _ _ _
    · exact .empty

end About

end Plan

namespace PlanSet

open Resolve (Bound)

/-- The type at `i` has errors of its own. -/
def Invalid (sized : Bool) (m : Model) (i : Nat) : Prop :=
  ∃ c, m.classes[i]? = some c ∧ (Plan.check sized m i c).hasErrors = true

/-- A type with errors is reached from the one at `i` along uses. -/
def Doomed (sized : Bool) (m : Model) (i : Nat) : Prop :=
  ∃ j, Relation.ReflTransGen m.Uses i j ∧ Invalid sized m j

/-! ## Uses by name -/

section Uses

variable {m : Model}

/-- The types that a type uses are declared. -/
theorem uses_lt (hm : Bound m) {i j : Nat} (h : m.Uses i j) : j < m.classes.length := by
  obtain ⟨c, hc, hparent | ⟨a, ha, hcls⟩⟩ := h
  · have hmem := List.mem_of_getElem? hc
    by_cases hhas : c.hasParent = true
    · obtain ⟨k, hk, hname⟩ := hm.parent c hmem hhas
      obtain rfl := Option.some.inj (hparent.symm.trans hk)
      have hlt := (List.getElem?_eq_some_iff.mp hname).1
      simpa [Model.classNames] using hlt
    · rw [hm.orphan c hmem (Bool.eq_false_iff.mpr hhas)] at hparent
      cases hparent
  · exact (hm.types c (List.mem_of_getElem? hc) a ha).class_lt hcls

theorem className_of_getElem? {i : Nat} {c : Class} (hc : m.classes[i]? = some c) :
    m.className i = c.name := by
  rw [Model.className, hc]
  rfl

/-- What a type relies on by name is what it uses. -/
theorem mem_dependencies (hm : Bound m) {i : Nat} {c : Class} (hc : m.classes[i]? = some c)
    {name : String} : name ∈ dependencies m c ↔ ∃ j, m.Uses i j ∧ m.className j = name := by
  have hmem := List.mem_of_getElem? hc
  -- The parent's name is that of the type the parent link leads to.
  have hparent : ∀ j, c.parentClass? = some j → c.hasParent = true ∧ m.className j = c.parent := by
    intro j hj
    by_cases hhas : c.hasParent = true
    · obtain ⟨k, hk, hname⟩ := hm.parent c hmem hhas
      obtain rfl := Option.some.inj (hj.symm.trans hk)
      rw [Model.classNames, List.getElem?_map] at hname
      exact ⟨hhas, by rw [Model.className, hname]; rfl⟩
    · rw [hm.orphan c hmem (Bool.eq_false_iff.mpr hhas)] at hj
      cases hj
  rw [dependencies, Report.mem_distinct, List.mem_append]
  constructor
  · rintro (hdep | hdep)
    · by_cases hhas : c.hasParent = true
      · rw [if_pos hhas, List.mem_singleton] at hdep
        obtain ⟨j, hj, -⟩ := hm.parent c hmem hhas
        exact ⟨j, ⟨c, hc, .inl hj⟩, (hparent j hj).2.trans hdep.symm⟩
      · rw [if_neg hhas] at hdep
        cases hdep
    · obtain ⟨a, ha, hname⟩ := List.mem_filterMap.mp hdep
      obtain ⟨j, hj, hname⟩ := Option.map_eq_some_iff.mp hname
      exact ⟨j, ⟨c, hc, .inr ⟨a, ha, hj⟩⟩, hname⟩
  · rintro ⟨j, ⟨c', hc', hlink⟩, rfl⟩
    obtain rfl := Option.some.inj (hc.symm.trans hc')
    rcases hlink with hj | ⟨a, ha, hj⟩
    · obtain ⟨hhas, hname⟩ := hparent j hj
      left
      rw [if_pos hhas, hname]
      exact List.mem_singleton_self _
    · right
      exact List.mem_filterMap.mpr ⟨a, ha, by rw [hj]; rfl⟩

/-- A name means one type only. -/
theorem index_unique (hm : Bound m) {i j : Nat} (hi : i < m.classes.length)
    (hj : j < m.classes.length) (hname : m.className i = m.className j) : i = j := by
  refine (List.getElem?_inj ?_ hm.classes_nodup).mp ?_
  · simpa [Model.classNames] using hi
  · simpa [Model.classNames, Model.className, hi, hj] using hname

end Uses

/-! ## One rejection after the other -/

/-- What every rejection keeps is kept by all rounds. -/
theorem spread_induct {m : Model} {outcomes : List Outcome} {P : Rejection → Prop}
    (hstep : ∀ r, ∀ o ∈ outcomes, P r → P (r.consider m o)) (fuel : Nat) :
    ∀ r, P r → P (r.spread m outcomes fuel) := by
  have hround : ∀ l : List Outcome, l ⊆ outcomes → ∀ r, P r →
      P (l.foldl (Rejection.consider m) r) := by
    intro l
    induction l with
    | nil => exact fun _ r hr => hr
    | cons o l ih =>
        intro hl r hr
        exact ih (fun x hx => hl (List.mem_cons_of_mem _ hx)) _
          (hstep r o (hl List.mem_cons_self) hr)
  induction fuel with
  | zero => exact fun r hr => hr
  | succ fuel ih =>
      intro r hr
      rw [Rejection.spread]
      split
      · exact hr
      · exact ih _ (hround outcomes (fun _ h => h) r hr)

/-- Every rejected name is that of a type with a reason, and exactly the rejected types have
errors. -/
structure Justified (sized : Bool) (m : Model) (r : Rejection) : Prop where
  reason : ∀ name ∈ r.names, ∃ i c, m.classes[i]? = some c ∧ c.name = name ∧ Doomed sized m i
  errors : ∀ type, (∃ d ∈ r.report.errors, d.type = type) ↔ type ∈ r.names

section Rejection

variable {sized : Bool} {m : Model} {outcomes : List Outcome}

/-- The outcomes of a model's types as they were computed, place by place. -/
def Computed (sized : Bool) (m : Model) (outcomes : List Outcome) : Prop :=
  outcomes.length = m.classes.length ∧ ∀ (i : Nat) (c : Class), m.classes[i]? = some c →
    ∃ o, outcomes[i]? = some o ∧ outcomeOf sized m i c = .ok o

theorem Computed.became (h : Computed sized m outcomes) : Outcomes sized m outcomes := by
  refine ⟨h.1, fun i c hc => ?_⟩
  obtain ⟨o, ho, hout⟩ := h.2 i c hc
  exact ⟨o, ho, outcomeOf_became hout⟩

/-- The outcome of a type says whether the type has errors. -/
theorem outcomeOf_report {i : Nat} {c : Class} {o : Outcome} (h : outcomeOf sized m i c = .ok o) :
    o.cls = c ∧ o.report = Plan.check sized m i c ∧
      (o.plan? = none ↔ (Plan.check sized m i c).hasErrors = true) := by
  unfold outcomeOf at h
  by_cases herr : (Plan.check sized m i c).hasErrors = true
  · simp only [herr, if_true, Except.ok.injEq] at h
    subst h
    exact ⟨rfl, rfl, by simp [herr]⟩
  · simp only [if_neg herr] at h
    cases hplan : Plan.derive sized m c with
    | error e =>
        rw [hplan] at h
        cases h
    | ok p =>
        rw [hplan] at h
        cases h
        exact ⟨rfl, rfl, by simp [herr]⟩

theorem Computed.exists_class (h : Computed sized m outcomes) {o : Outcome} (ho : o ∈ outcomes) :
    ∃ i c, m.classes[i]? = some c ∧ outcomeOf sized m i c = .ok o := by
  obtain ⟨i, c, hc, hi, -⟩ := h.became.exists_class ho
  obtain ⟨o', ho', hout⟩ := h.2 i c hc
  obtain rfl := Option.some.inj (hi.symm.trans ho')
  exact ⟨i, c, hc, hout⟩

/-- The rejection that the rounds start from. -/
def firstRejection (outcomes : List Outcome) : Rejection :=
  ⟨(outcomes.filter (·.plan?.isNone)).map (·.cls.name), .join (outcomes.map (·.report))⟩

/-- The types that are rejected first are those with errors. -/
theorem firstRejection_justified (h : Computed sized m outcomes) :
    Justified sized m (firstRejection outcomes) := by
  constructor
  · intro name hname
    obtain ⟨o, ho, rfl⟩ := List.mem_map.mp hname
    obtain ⟨hmem, hnone⟩ := List.mem_filter.mp ho
    obtain ⟨i, c, hc, hout⟩ := h.exists_class hmem
    obtain ⟨hcls, -, hplan⟩ := outcomeOf_report hout
    have herr := hplan.mp (by simpa using hnone)
    exact ⟨i, c, hc, by rw [hcls], i, .refl, c, hc, herr⟩
  · intro type
    simp only [firstRejection, Report.mem_errors_join, List.mem_map, List.mem_filter]
    constructor
    · rintro ⟨d, ⟨r, ⟨o, ho, rfl⟩, hd⟩, rfl⟩
      obtain ⟨i, c, -, hout⟩ := h.exists_class ho
      obtain ⟨hcls, hreport, hplan⟩ := outcomeOf_report hout
      rw [hreport] at hd
      have hnone := hplan.mpr (Report.hasErrors_iff.mpr ⟨d, hd⟩)
      exact ⟨o, ⟨ho, by simp [hnone]⟩, by rw [hcls, Plan.check_about d hd]⟩
    · rintro ⟨o, ⟨ho, hnone⟩, rfl⟩
      obtain ⟨i, c, -, hout⟩ := h.exists_class ho
      obtain ⟨hcls, hreport, hplan⟩ := outcomeOf_report hout
      obtain ⟨d, hd⟩ := Report.hasErrors_iff.mp (hplan.mp (by simpa using hnone))
      exact ⟨d, ⟨o.report, ⟨o, ho, rfl⟩, hreport ▸ hd⟩, by rw [hcls, Plan.check_about d hd]⟩

/-- A type that is rejected for what it uses has a reason, and gets an error. -/
theorem Justified.consider (hm : Bound m) (h : Computed sized m outcomes) {r : Rejection}
    (hr : Justified sized m r) {o : Outcome} (ho : o ∈ outcomes) :
    Justified sized m (r.consider m o) := by
  obtain ⟨i, c, hc, hout⟩ := h.exists_class ho
  obtain ⟨hcls, -, -⟩ := outcomeOf_report hout
  unfold Rejection.consider
  split
  · exact hr
  · split
    · exact hr
    · rename_i dep hfound
      have hmem : dep ∈ dependencies m c := hcls ▸ List.mem_of_find?_eq_some hfound
      have hrejected : dep ∈ r.names := by simpa using List.find?_some hfound
      obtain ⟨j, huses, hname⟩ := (mem_dependencies hm hc).mp hmem
      obtain ⟨k, d, hd, hdname, l, hpath, hinvalid⟩ := hr.reason dep hrejected
      have hsame : j = k := by
        refine index_unique hm (uses_lt hm huses) (List.getElem?_eq_some_iff.mp hd).1 ?_
        rw [hname, className_of_getElem? hd, hdname]
      constructor
      · intro name hin
        rcases List.mem_cons.mp hin with rfl | hin
        · exact ⟨i, c, hc, by rw [hcls], l, .head huses (hsame ▸ hpath), hinvalid⟩
        · exact hr.reason name hin
      · intro type
        simp only [Report.errors_append, List.mem_append, List.mem_cons, ← hr.errors type]
        constructor
        · rintro ⟨x, hx | hx, rfl⟩
          · exact .inr ⟨x, hx, rfl⟩
          · left
            rw [List.mem_singleton.mp hx]
        · rintro (rfl | ⟨x, hx, rfl⟩)
          · exact ⟨_, .inr (List.mem_singleton_self _), rfl⟩
          · exact ⟨x, .inl hx, rfl⟩

/-- The rejection that the rounds end with. -/
def lastRejection (m : Model) (outcomes : List Outcome) : Rejection :=
  (firstRejection outcomes).spread m outcomes (outcomes.length + 1)

theorem lastRejection_justified (hm : Bound m) (h : Computed sized m outcomes) :
    Justified sized m (lastRejection m outcomes) :=
  spread_induct (fun _ _ ho hr => hr.consider hm h ho) _ _ (firstRejection_justified h)

/-- **A type is rejected exactly if a type with errors is reached from it.** -/
theorem mem_rejectedNames_iff (hm : Bound m) (h : Computed sized m outcomes) {i : Nat} {c : Class}
    (hc : m.classes[i]? = some c) :
    c.name ∈ rejectedNames m outcomes ↔ Doomed sized m i := by
  constructor
  · intro hname
    obtain ⟨j, d, hd, hsame, hdoomed⟩ := (lastRejection_justified hm h).reason c.name hname
    have hij : j = i := by
      refine index_unique hm (List.getElem?_eq_some_iff.mp hd).1
        (List.getElem?_eq_some_iff.mp hc).1 ?_
      rw [className_of_getElem? hd, className_of_getElem? hc, hsame]
    exact hij ▸ hdoomed
  · rintro ⟨j, hpath, d, hd, herr⟩
    obtain ⟨hclosed, hunplanned⟩ := rejectedNames_closed m outcomes
    -- Rejection runs back along the path, from the type with errors to the first one.
    induction hpath using Relation.ReflTransGen.head_induction_on generalizing c with
    | refl =>
        obtain rfl := Option.some.inj (hc.symm.trans hd)
        obtain ⟨o, ho, hout⟩ := h.2 _ c hc
        obtain ⟨hcls, -, hplan⟩ := outcomeOf_report hout
        rw [← hcls]
        exact hunplanned o (List.mem_of_getElem? ho) (hplan.mpr herr)
    | @head i k huses _ ih =>
        have hlt := uses_lt hm huses
        have hk : m.className k ∈ rejectedNames m outcomes := by
          rw [className_of_getElem? (List.getElem?_eq_getElem hlt)]
          exact ih (List.getElem?_eq_getElem hlt)
        obtain ⟨o, ho, hout⟩ := h.2 i c hc
        obtain ⟨hcls, -, -⟩ := outcomeOf_report hout
        have hmem := List.mem_of_getElem? ho
        by_contra hfree
        cases hplan : o.plan? with
        | none => exact hfree (hcls ▸ hunplanned o hmem hplan)
        | some p =>
            have hdep : m.className k ∈ dependencies m o.cls :=
              hcls ▸ (mem_dependencies hm hc).mpr ⟨k, huses, rfl⟩
            exact hclosed o hmem (by simp [hplan]) (hcls ▸ hfree) _ hdep hk

end Rejection

/-! ## The rejected types of a plan set -/

section PlanSet

variable {sized : Bool} {m : Model} {S : PlanSet}

/-- The rejected types are listed in the order of their declaration. -/
theorem rejected_eq_filter (hm : Bound m) {outcomes : List Outcome}
    (h : Computed sized m outcomes) : (ofOutcomes m outcomes).rejected =
      m.classNames.filter fun name => (rejectedNames m outcomes).contains name := by
  have hnames : (outcomes.filter fun o =>
        (rejectedNames m outcomes).contains o.cls.name).map (·.cls.name) =
      m.classNames.filter fun name => (rejectedNames m outcomes).contains name := by
    rw [← map_name_outcomes h.became, List.filter_map]
    rfl
  change Report.distinct ((outcomes.filter fun o =>
    (rejectedNames m outcomes).contains o.cls.name).map (·.cls.name)) = _
  rw [hnames, Report.distinct_of_nodup]
  exact hm.classes_nodup.sublist List.filter_sublist

/-- **A type is rejected exactly if a type with errors is reached from it along uses.** -/
theorem mem_rejected_iff (hm : Bound m) (h : derive sized m = .ok S) {i : Nat} {c : Class}
    (hc : m.classes[i]? = some c) : c.name ∈ S.rejected ↔ Doomed sized m i := by
  obtain ⟨outcomes, rfl, hcomputed⟩ := exists_computed h
  have hname : c.name ∈ m.classNames := List.mem_map_of_mem (List.mem_of_getElem? hc)
  rw [rejected_eq_filter hm hcomputed, List.mem_filter]
  simp only [hname, true_and, List.contains_eq_mem, decide_eq_true_eq]
  exact mem_rejectedNames_iff hm hcomputed hc

/-- The rejected types are declared, and each is listed once in the order of declaration. -/
theorem rejected_sublist (hm : Bound m) (h : derive sized m = .ok S) :
    S.rejected.Sublist m.classNames ∧ S.rejected.Nodup := by
  obtain ⟨outcomes, rfl, hcomputed⟩ := exists_computed h
  have hsub : (ofOutcomes m outcomes).rejected.Sublist m.classNames := by
    rw [rejected_eq_filter hm hcomputed]
    exact List.filter_sublist
  exact ⟨hsub, hm.classes_nodup.sublist hsub⟩

/-- **The types with errors in the report are the rejected ones.** -/
theorem exists_error_iff (hm : Bound m) (h : derive sized m = .ok S) (type : String) :
    (∃ d ∈ S.report.errors, d.type = type) ↔ type ∈ S.rejected := by
  obtain ⟨outcomes, rfl, hcomputed⟩ := exists_computed h
  have hjustified := lastRejection_justified hm hcomputed
  have hdeclared : ∀ name ∈ rejectedNames m outcomes, name ∈ m.classNames := by
    intro name hname
    obtain ⟨i, c, hc, rfl, -⟩ := hjustified.reason name hname
    exact List.mem_map_of_mem (List.mem_of_getElem? hc)
  have herrors : (∃ d ∈ (ofOutcomes m outcomes).report.errors, d.type = type) ↔
      type ∈ rejectedNames m outcomes := by
    refine Iff.trans ?_ (hjustified.errors type)
    simp only [ofOutcomes, Report.mem_errors_sort]
    rfl
  rw [herrors, rejected_eq_filter hm hcomputed, List.mem_filter]
  simp only [List.contains_eq_mem, decide_eq_true_eq]
  exact ⟨fun hmem => ⟨hdeclared type hmem, hmem⟩, fun hmem => hmem.2⟩

/-- **The report names the rejected types**, except one without a name, which is the name that
findings about no type have. -/
theorem failedTypes_eq (hm : Bound m) (h : derive sized m = .ok S) :
    S.report.failedTypes = (S.rejected.filter fun type => !type.isEmpty).mergeSort := by
  have hperm : (Report.distinct ((S.report.errors.map (·.type)).filter fun t => !t.isEmpty)).Perm
      (S.rejected.filter fun type => !type.isEmpty) := by
    refine (List.perm_ext_iff_of_nodup (Report.nodup_distinct _)
      ((rejected_sublist hm h).2.sublist List.filter_sublist)).mpr fun type => ?_
    rw [Report.mem_distinct, List.mem_filter, List.mem_filter, ← exists_error_iff hm h type,
      List.mem_map]
  exact mergeSort_eq_of_perm hperm

end PlanSet

end PlanSet

end WireSchema
