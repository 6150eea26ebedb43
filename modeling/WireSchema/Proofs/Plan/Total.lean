import Mathlib
import WireSchema.Plan.Set
import WireSchema.Proofs.Plan.Derived

/-!
# Deriving plans does not fail

Deriving refuses what it cannot lay out: a name without a link, a count without a list, a literal
that is none.  All of this is reported before.  Resolution vets literals and counts, the checks of a
type ask for the links of everything the type declares.  So a type that passes its checks has a
plan, and the plans of a resolved model are derived without an error, whichever types are rejected.

## Main results

* `derive_total` — a type that passed every check has a plan.
* `PlanSet.derive_total` — the plans of a bound model can be derived.
-/

namespace WireSchema.Plan

open Resolve (Bound DefaultBound ValueBound)

/-- A traversal succeeds if it does at every place. -/
theorem mapM_total {α β ε : Type} {f : α → Except ε β} (xs : List α)
    (h : ∀ x ∈ xs, ∃ y, f x = .ok y) : ∃ ys, xs.mapM f = .ok ys := by
  induction xs with
  | nil => exact ⟨[], rfl⟩
  | cons x xs ih =>
      obtain ⟨y, hy⟩ := h x List.mem_cons_self
      obtain ⟨ys, hys⟩ := ih fun z hz => h z (List.mem_cons_of_mem _ hz)
      exact ⟨y :: ys, by rw [List.mapM_cons, hy, hys]; rfl⟩

section Checked

variable {m : Model} {sized : Bool} {i : Nat} {c : Class}

/-- Every setter that passed is bound. -/
theorem check_setter (hcheck : (check sized m i c).hasErrors = false) {v : InitialValue}
    (hv : v ∈ c.initialValues) : v.target?.isSome = true := by
  simp only [check, Report.hasErrors_append, Report.hasErrors_join, Bool.or_eq_false_iff,
    List.any_eq_false, List.mem_map, forall_exists_index, and_imp,
    forall_apply_eq_imp_iff₂] at hcheck
  have hvalue := hcheck.2 v hv
  cases htarget : v.target? with
  | some r => rfl
  | none => simp [htarget] at hvalue

theorem defaultOf_total {a : Attribute} (hdefault : DefaultBound a) (qualified : String) :
    ∃ d, defaultOf qualified a = .ok d := by
  unfold defaultOf
  cases hliteral : a.default? with
  | none => exact ⟨none, rfl⟩
  | some literal =>
      cases htype : a.primitive? with
      | none => exact ⟨none, rfl⟩
      | some t =>
          by_cases hused : (a.isPrimitive && !a.isCount) = true
          · have hprim : a.isPrimitive = true := (Bool.and_eq_true_iff.mp hused).1
            obtain ⟨s, hs⟩ := hdefault hprim t literal htype hliteral
            exact ⟨some s, by simp only [hused, if_true, hs]⟩
          · exact ⟨none, by simp only [if_neg hused]⟩

/-- The elements of a bound list are of a known type. -/
theorem element_bound {count : Nat} {t : Option Primitive} {j : Option Nat}
    (h : (t.isSome = true ∧ j = none) ∨ (t = none ∧ ∃ k, j = some k ∧ k < count)) :
    (t.isNone && j.isNone) = false := by
  rcases h with ⟨hprim, -⟩ | ⟨-, k, rfl, -⟩
  · simp [Option.isSome_iff_ne_none.mp hprim]
  · simp

/-- The attributes of a type that passed contribute to its plan. -/
theorem partOf_total (hm : Bound m) (hc : m.classes[i]? = some c)
    (hcheck : (check sized m i c).hasErrors = false) {a : Attribute} (ha : a ∈ c.attributes)
    (hdefault : DefaultBound a) : ∃ part, partOf m c.name a = .ok part := by
  obtain ⟨k, hk⟩ := List.mem_iff_getElem?.mp ha
  have hcls := List.mem_of_getElem? hc
  have hshown := check_shape hcheck ha
  have htype := hm.types c hcls a ha
  obtain ⟨d, hd⟩ := defaultOf_total hdefault (c.name ++ "." ++ a.name)
  unfold partOf
  unfold Resolve.TypeBound at htype
  cases hshape : a.shape with
  | none =>
      rw [checkShape, hshape] at hshown
      cases hshown
  | some shape =>
      rw [hshape] at htype
      simp only [fieldOf, hd, bind, Except.bind, pure, Except.pure]
      cases shape with
      | primitive =>
          obtain ⟨t, ht⟩ := Option.isSome_iff_exists.mp htype.1
          by_cases hcount : a.isCount = true
          · obtain ⟨l, -, -, hlist, -⟩ := exists_counted hm hc hcheck hk hcount
            exact ⟨_, by simp only [primitivePart, ht, hcount, hlist, if_true]; rfl⟩
          · exact ⟨_, by simp only [primitivePart, ht, if_neg hcount]; rfl⟩
      | reference =>
          obtain ⟨-, j, hj, -⟩ := htype
          exact ⟨_, by simp only [referencePart, hj]; rfl⟩
      | fixedList n =>
          have hbound := element_bound htype
          exact ⟨_, by simp only [fixedListPart, hbound, Bool.false_eq_true, if_false]; rfl⟩
      | variableList =>
          have hbound := element_bound htype
          have hvar : a.isVariableList = true := by simp [Attribute.isVariableList, hshape]
          obtain ⟨j, -, hlink, -⟩ := exists_count hm hc hk hvar
          exact ⟨_, by
            simp only [variableListPart, hbound, hlink, Bool.false_eq_true, if_false]; rfl⟩

/-- A bound initial value is assigned. -/
theorem assignmentOf_total {v : InitialValue} (hset : v.target?.isSome = true)
    (hvalue : ValueBound m i v) (owner : String) : ∃ x, assignmentOf m owner v = .ok x := by
  obtain ⟨r, hr⟩ := Option.isSome_iff_exists.mp hset
  obtain ⟨-, a, t, s, hattr, -, -, htype, hparse⟩ := hvalue r hr
  exact ⟨_, by simp only [assignmentOf, hr, hattr, Option.bind_some, htype, hparse]; rfl⟩

/-- **A type that passed every check has a plan.** -/
theorem derive_total (hm : Bound m)
    (hdefaults : ∀ c ∈ m.classes, ∀ a ∈ c.attributes, DefaultBound a)
    (hc : m.classes[i]? = some c) (hcheck : (check sized m i c).hasErrors = false) :
    ∃ p, derive sized m c = .ok p := by
  obtain ⟨parts, hparts⟩ := mapM_total c.attributes fun a ha =>
    partOf_total hm hc hcheck ha (hdefaults c (List.mem_of_getElem? hc) a ha)
  obtain ⟨values, hvalues⟩ := mapM_total c.initialValues fun v hv =>
    assignmentOf_total (check_setter hcheck hv) (hm.values i c hc v hv) c.name
  exact ⟨_, by rw [derive, hparts, hvalues]; rfl⟩

end Checked

end WireSchema.Plan

namespace WireSchema.PlanSet

open Resolve (Bound DefaultBound)

/-- **The plans of a bound model can be derived**, whatever is wrong with single types. -/
theorem derive_total {m : Model} (hm : Bound m)
    (hdefaults : ∀ c ∈ m.classes, ∀ a ∈ c.attributes, DefaultBound a) (sized : Bool) :
    ∃ S, derive sized m = .ok S := by
  have houtcome : ∀ x ∈ m.classes.mapIdx fun i c => (i, c),
      ∃ o, outcomeOf sized m x.1 x.2 = .ok o := by
    intro x hx
    obtain ⟨i, hi⟩ := List.mem_iff_getElem?.mp hx
    rw [List.getElem?_mapIdx, Option.map_eq_some_iff] at hi
    obtain ⟨c, hc, rfl⟩ := hi
    unfold outcomeOf
    by_cases herr : (Plan.check sized m i c).hasErrors = true
    · exact ⟨_, by simp only [herr, if_true]; rfl⟩
    · obtain ⟨p, hp⟩ := Plan.derive_total hm hdefaults hc (Bool.eq_false_iff.mpr herr)
      exact ⟨_, by simp only [if_neg herr, hp]; rfl⟩
  obtain ⟨outcomes, hall⟩ := Plan.mapM_total _ houtcome
  exact ⟨ofOutcomes m outcomes, by
    unfold derive
    simp only [hall, bind, Except.bind, pure, Except.pure]⟩

end WireSchema.PlanSet
