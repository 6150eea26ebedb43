import Mathlib
import WireSchema.Message.Store
import WireSchema.Proofs.Plan.Accepted

/-!
# What a runtime promises

Messages follow the plans of a runtime by position.  `Sound` is everything the operations on
messages rely on: each plan keeps its own promises, types are found under their names, parents are
linked, message types that a field mentions exist, assignments hit a number of an ancestor, and
containment by value falls along a rank below the number of plans.

## Main results

* `ofSet_sound` — the runtime over the accepted plans of a resolved model is `Sound`.
-/

namespace WireSchema.Message.Runtime

open Plan (Field)
open PlanSet (Member)
open Resolve (Bound)

/-- The plan at `j` is that at `i` or is reached from it by parent links. -/
inductive Ancestor (rt : Runtime) : Nat → Nat → Prop where
  | self (i : Nat) : Ancestor rt i i
  | up {i j k : Nat} {p : Plan} (plan : rt.plans[i]? = some p) (parent : p.parent? = some j)
      (rest : Ancestor rt j k) : Ancestor rt i k

/-- Messages of the plan `p` hold messages of the plan at `j` by value. -/
def Contains (rt : Runtime) (p : Plan) (j : Nat) : Prop :=
  p.parent? = some j ∨ ∃ f ∈ p.fields, f.shape ≠ .variableList ∧
    ∃ type, f.elem = .message type ∧ rt.position? type = some j

/-- A number falls along containment by value, and is smaller than the number of plans. -/
def Ranked (rt : Runtime) (rank : Nat → Nat) : Prop :=
  ∀ (i : Nat) (p : Plan), rt.plans[i]? = some p →
    rank i < rt.plans.size ∧ ∀ j, rt.Contains p j → rank j < rank i

/-- An assignment sets a number of the plan at `j`. -/
def Assigns (rt : Runtime) (a : Plan.Assignment) (j : Nat) : Prop :=
  ∃ q f t, rt.plans[j]? = some q ∧ q.name = a.owner ∧ f ∈ q.fields ∧ f.name = a.field ∧
    f.shape = .primitive ∧ f.elem = .primitive t ∧ f.stored = true ∧ a.value.kind = t.kind

/-- What a runtime promises. -/
structure Sound (rt : Runtime) : Prop where
  plan : ∀ {i : Nat} {p : Plan}, rt.plans[i]? = some p → p.Sound
  named : ∀ {i : Nat} {p : Plan}, rt.plans[i]? = some p → rt.position? p.name = some i
  position : ∀ {type : String} {i : Nat}, rt.position? type = some i →
    ∃ p, rt.plans[i]? = some p ∧ p.name = type
  parent : ∀ {i : Nat} {p : Plan}, rt.plans[i]? = some p → p.hasParent = true →
    ∃ j q, p.parent? = some j ∧ rt.plans[j]? = some q
  orphan : ∀ {i : Nat} {p : Plan}, rt.plans[i]? = some p → p.hasParent = false → p.parent? = none
  elem : ∀ {i : Nat} {p : Plan} {f : Field} {type : String}, rt.plans[i]? = some p →
    f ∈ p.fields → f.elem = .message type → ∃ j, rt.position? type = some j
  assignment : ∀ {i : Nat} {p : Plan} {a : Plan.Assignment}, rt.plans[i]? = some p →
    a ∈ p.assignments → ∃ j, rt.Ancestor i j ∧ rt.Assigns a j
  ranked : ∃ rank, rt.Ranked rank

@[simp] theorem plans_on (rt : Runtime) (makes : Int → Bool) : (rt.on makes).plans = rt.plans := rfl

@[simp] theorem makes_on (rt : Runtime) (makes : Int → Bool) : (rt.on makes).makes = makes := rfl

@[simp] theorem contains_on (rt : Runtime) (makes : Int → Bool) :
    (rt.on makes).Contains = rt.Contains := rfl

theorem Ancestor.on {rt : Runtime} {i j : Nat} (h : rt.Ancestor i j) (makes : Int → Bool) :
    (rt.on makes).Ancestor i j := by
  induction h with
  | self i => exact .self i
  | up plan parent _ ih => exact .up plan parent ih

/-- Promises are about the plans, so they hold on every machine. -/
theorem Sound.on {rt : Runtime} (h : rt.Sound) (makes : Int → Bool) : (rt.on makes).Sound where
  plan := h.plan
  named := h.named
  position := h.position
  parent := h.parent
  orphan := h.orphan
  elem := h.elem
  assignment hp ha := by
    obtain ⟨j, hup, hassigns⟩ := h.assignment hp ha
    exact ⟨j, hup.on makes, hassigns⟩
  ranked := h.ranked

/-- Any numbers can be replaced by small ones in the same order. -/
theorem exists_bounded_rank (n : Nat) (base : Nat → Nat) :
    ∃ rank : Nat → Nat, ∀ i < n, rank i < n ∧ ∀ j < n, base j < base i → rank j < rank i := by
  refine ⟨fun i => ((Finset.range n).filter fun k => base k < base i).card, fun i hi => ⟨?_, ?_⟩⟩
  · have hlt : ((Finset.range n).filter fun k => base k < base i) ⊂ Finset.range n :=
      Finset.filter_ssubset.mpr ⟨i, Finset.mem_range.mpr hi, by omega⟩
    simpa using Finset.card_lt_card hlt
  · intro j hj hbase
    refine Finset.card_lt_card (Finset.ssubset_iff_of_subset ?_ |>.mpr ⟨j, ?_, ?_⟩)
    · intro k hk
      obtain ⟨hrange, hlt⟩ := Finset.mem_filter.mp hk
      exact Finset.mem_filter.mpr ⟨hrange, hlt.trans hbase⟩
    · exact Finset.mem_filter.mpr ⟨Finset.mem_range.mpr hj, hbase⟩
    · intro hmem
      exact lt_irrefl _ (Finset.mem_filter.mp hmem).2

/-! ## The runtime of a plan set -/

section OfSet

variable {sized : Bool} {m : Model} {S : PlanSet}

theorem getElem?_plans_ofSet (S : PlanSet) (q : Nat) :
    (ofSet S).plans[q]? = S.accepted[q]? := by
  simp [ofSet]

theorem order_positions (h : PlanSet.derive sized m = .ok S) :
    S.order.Nodup ∧ ∀ q, q ∈ S.order ↔ q < S.accepted.length := by
  obtain ⟨outcomes, rfl, -⟩ := PlanSet.exists_outcomes h
  exact PlanSet.parentsFirst_positions _

/-- A type is found exactly where its accepted plan is. -/
theorem position?_ofSet (hm : Bound m) (h : PlanSet.derive sized m = .ok S) {type : String}
    {q : Nat} :
    (ofSet S).position? type = some q ↔ ∃ p, S.accepted[q]? = some p ∧ p.name = type := by
  obtain ⟨hnodup, hmem⟩ := order_positions h
  have hnames := PlanSet.accepted_nodup hm.classes_nodup h
  have hkeys : ((ofSet S).names.map (·.1)).Nodup := by
    show ((S.order.map _).map _).Nodup
    rw [List.map_map]
    refine List.Nodup.map_on ?_ hnodup
    intro a ha b hb hab
    have hget : (S.accepted.map (·.name))[a]? = (S.accepted.map (·.name))[b]? := by
      have haccepted := List.getElem?_eq_getElem ((hmem a).mp ha)
      have hbccepted := List.getElem?_eq_getElem ((hmem b).mp hb)
      simp only [Function.comp_apply, haccepted, hbccepted, Option.map_some,
        Option.getD_some] at hab
      rw [List.getElem?_map, List.getElem?_map, haccepted, hbccepted, Option.map_some,
        Option.map_some, hab]
    exact (List.getElem?_inj (by simpa using (hmem a).mp ha) hnames).mp hget
  constructor
  · intro hpos
    have hin : (type, q) ∈ (ofSet S).names.reverse := by
      obtain ⟨l₁, l₂, hsplit, -⟩ := List.lookup_eq_some_iff.mp hpos
      exact hsplit ▸ List.mem_append_right _ List.mem_cons_self
    obtain ⟨q', hq', heq⟩ := List.mem_map.mp (List.mem_reverse.mp hin)
    obtain ⟨hname, rfl⟩ := Prod.mk.inj heq
    have hplan := List.getElem?_eq_getElem ((hmem q').mp hq')
    exact ⟨_, hplan, by simpa [hplan] using hname⟩
  · rintro ⟨p, hp, rfl⟩
    refine lookup_of_nodup ?_ (List.mem_reverse.mpr ?_)
    · rw [List.map_reverse]
      exact List.nodup_reverse.mpr hkeys
    · refine List.mem_map.mpr ⟨q, (hmem q).mpr (List.getElem?_eq_some_iff.mp hp).1, ?_⟩
      simp [hp]

/-! ## Members of the set -/

/-- The plan of a member is tied to its type. -/
theorem derived_of_member (hm : Bound m) {q i : Nat} {c : Class} {p : Plan}
    (h : Member sized m S q i c p) : Plan.Derived m c p ∧
      p.parent? = if p.hasParent then PlanSet.position? S.accepted p.parentName else none := by
  have hcls := List.mem_of_getElem? h.cls
  obtain ⟨p₀, hderive, rfl⟩ := h.derived
  obtain ⟨hd, hnone⟩ :=
    Plan.derive_derived (hm.types c hcls) (fun _ => hm.count_isPrimitive hcls) hderive
  refine ⟨⟨hd.name, hd.parentName, hd.fields, hd.decode, hd.encode, hd.assignments⟩, ?_⟩
  show (if p₀.hasParent then _ else p₀.parent?) = _
  rw [hnone]
  rfl

/-- A type that an accepted type uses has a position. -/
theorem exists_position (hm : Bound m) (h : PlanSet.derive sized m = .ok S) {q i j : Nat}
    {c d : Class} {p : Plan} (hp : Member sized m S q i c p) (hd : m.classes[j]? = some d)
    (hdep : d.name ∈ PlanSet.dependencies m c) :
    ∃ q' p', Member sized m S q' j d p' ∧ (ofSet S).position? d.name = some q' := by
  obtain ⟨q', p', hp'⟩ := PlanSet.exists_member_of_dependency hm.classes_nodup h hp hd hdep
  exact ⟨q', p', hp', (position?_ofSet hm h).mpr ⟨p', hp'.plan, (derived_of_member hm hp').1.name⟩⟩

/-- The parent of an accepted type is accepted and linked. -/
theorem parent_member (hm : Bound m) (h : PlanSet.derive sized m = .ok S) {q i : Nat} {c : Class}
    {p : Plan} (hp : Member sized m S q i c p) (hparent : c.hasParent = true) :
    ∃ j d q' p', c.parentClass? = some j ∧ Member sized m S q' j d p' ∧ p.parent? = some q' ∧
      d.name = c.parent := by
  obtain ⟨hd, hlink⟩ := derived_of_member hm hp
  obtain ⟨j, hj, hname⟩ := hm.parent c (List.mem_of_getElem? hp.cls) hparent
  rw [Model.classNames, List.getElem?_map, Option.map_eq_some_iff] at hname
  obtain ⟨d, hdcls, hdname⟩ := hname
  have hdep : d.name ∈ PlanSet.dependencies m c := by
    rw [PlanSet.dependencies, Report.mem_distinct, hdname]
    simp [hparent]
  obtain ⟨q', p', hp', -⟩ := exists_position hm h hp hdcls hdep
  refine ⟨j, d, q', p', hj, hp', ?_, hdname⟩
  have hpname : p.parentName = p'.name := by
    rw [hd.parentName, if_pos hparent, (derived_of_member hm hp').1.name, hdname]
  have hhas : p.hasParent = true := by
    rw [Plan.hasParent, hd.parentName, Plan.hasParent_parentName, hparent]
  rw [hlink, hhas, if_pos rfl, hpname]
  exact PlanSet.position?_eq_some (PlanSet.accepted_nodup hm.classes_nodup h) hp'.plan

theorem hasParent_of_member (hm : Bound m) {q i : Nat} {c : Class} {p : Plan}
    (hp : Member sized m S q i c p) : p.hasParent = c.hasParent := by
  rw [Plan.hasParent, (derived_of_member hm hp).1.parentName, Plan.hasParent_parentName]

/-- The message type of a field's elements is accepted. -/
theorem elem_member (hm : Bound m) (h : PlanSet.derive sized m = .ok S) {q i : Nat} {c : Class}
    {p : Plan} (hp : Member sized m S q i c p) {a : Attribute} {f : Field} {type : String}
    (ha : a ∈ c.attributes) (hspec : Plan.FieldSpec m a f) (helem : f.elem = .message type) :
    ∃ j d q' p', a.class? = some j ∧ Member sized m S q' j d p' ∧
      (ofSet S).position? type = some q' ∧ d.name = type := by
  have htype := hm.types c (List.mem_of_getElem? hp.cls) a ha
  have hshape := hspec.shape
  have hprim : a.primitive? = none := by
    cases hprim : a.primitive? with
    | none => rfl
    | some t =>
        rw [hspec.elem, Plan.elementOf, hprim] at helem
        cases helem
  -- An unbound type would be taken by its name; that does not happen here.
  obtain ⟨j, hj⟩ : ∃ j, a.class? = some j := by
    unfold Resolve.TypeBound at htype
    rw [hshape, hprim] at htype
    cases hsh : f.shape with
    | primitive =>
        rw [hsh] at htype
        cases htype.1
    | reference =>
        rw [hsh] at htype
        exact ⟨_, htype.2.choose_spec.1⟩
    | fixedList n | variableList =>
        rw [hsh] at htype
        rcases htype with hbad | hcls
        · cases hbad.1
        · exact ⟨_, hcls.2.choose_spec.1⟩
  have hlt := htype.class_lt hj
  have hdcls := List.getElem?_eq_getElem hlt
  have hname : m.classes[j].name = type := by
    rw [hspec.elem, Plan.elementOf, hprim, hj] at helem
    simpa [Model.className, hdcls] using helem
  have hdep : m.classes[j].name ∈ PlanSet.dependencies m c := by
    rw [PlanSet.dependencies, Report.mem_distinct]
    refine List.mem_append_right _ (List.mem_filterMap.mpr ⟨a, ha, ?_⟩)
    simp [hj, Model.className, hdcls]
  obtain ⟨q', p', hp', hpos⟩ := exists_position hm h hp hdcls hdep
  exact ⟨j, m.classes[j], q', p', hj, hp', hname ▸ hpos, hname⟩

/-- The types on the parent chain of an accepted type are accepted ancestors. -/
theorem ancestor_member (hm : Bound m) (h : PlanSet.derive sized m = .ok S) (fuel : Nat) :
    ∀ {seen : List Nat} {q i k : Nat} {c : Class} {p : Plan}, Member sized m S q i c p →
      k ∈ m.chainFrom fuel seen i →
      ∃ q' d p', Member sized m S q' k d p' ∧ (ofSet S).Ancestor q q' := by
  induction fuel with
  | zero =>
      intro seen q i k c p _ hk
      cases hk
  | succ fuel ih =>
      intro seen q i k c p hp hk
      rw [Model.chainFrom] at hk
      split at hk
      · cases hk
      · rcases List.mem_cons.mp hk with rfl | hk
        · exact ⟨q, c, p, hp, .self q⟩
        · rw [Model.parentOf?, hp.cls, Option.bind_some] at hk
          cases hparent : c.hasParent with
          | false =>
              rw [hm.orphan c (List.mem_of_getElem? hp.cls) hparent] at hk
              cases hk
          | true =>
              obtain ⟨j, d, q', p', hj, hp', hlink, -⟩ := parent_member hm h hp hparent
              rw [hj] at hk
              obtain ⟨q'', d', p'', hp'', hup⟩ := ih hp' hk
              exact ⟨q'', d', p'', hp'', .up (by rw [getElem?_plans_ofSet, hp.plan]) hlink hup⟩

/-- An initial value of an accepted type sets a number of an ancestor. -/
theorem assignment_member (hm : Bound m) (h : PlanSet.derive sized m = .ok S) {q i : Nat}
    {c : Class} {p : Plan} (hp : Member sized m S q i c p) {a : Plan.Assignment}
    (ha : a ∈ p.assignments) : ∃ j, (ofSet S).Ancestor q j ∧ (ofSet S).Assigns a j := by
  obtain ⟨k, hk⟩ := List.mem_iff_getElem?.mp ha
  obtain ⟨v, hv, r, attr, t, htarget, hattr, htype, hfield, howner, hparse⟩ :=
    Plan.forall₂_getElem? (R := fun a v => Plan.AssignmentSpec m v a)
      (derived_of_member hm hp).1.assignments.flip hk
  obtain ⟨hchain, attr', t', s, hattr', hcount, hprim, htype', -⟩ :=
    hm.values i c hp.cls v (List.mem_of_getElem? hv) r htarget
  rw [hattr] at hattr'
  obtain rfl := Option.some.inj hattr'
  rw [htype] at htype'
  obtain rfl := Option.some.inj htype'
  obtain ⟨q', d, p', hp', hup⟩ := ancestor_member hm h _ hp hchain
  have hd := (derived_of_member hm hp').1
  rw [Model.attribute?, hp'.cls, Option.bind_some] at hattr
  obtain ⟨f, hf, hspec⟩ := hd.exists_field hattr
  refine ⟨q', hup, p', f, t, by rw [getElem?_plans_ofSet, hp'.plan], ?_,
    List.mem_of_getElem? hf, hspec.name.trans hfield.symm, ?_, ?_, ?_,
    Primitive.parse_kind hparse⟩
  · rw [hd.name, howner]
    simp [Model.className, hp'.cls]
  · have hshape := hspec.shape
    simp only [Attribute.isPrimitive, beq_iff_eq] at hprim
    rw [hprim] at hshape
    exact (Option.some.inj hshape).symm
  · rw [hspec.elem, Plan.elementOf, htype]
  · rw [hspec.stored, hcount]
    rfl

/-- Whatever a plan holds by value comes from a type that its type contains. -/
theorem contained_of_contains (hm : Bound m) (h : PlanSet.derive sized m = .ok S) {q i k : Nat}
    {c : Class} {p : Plan} (hp : Member sized m S q i c p) (hk : (ofSet S).Contains p k) :
    ∃ j d p', Member sized m S k j d p' ∧ j ∈ Resolve.contained c := by
  rcases hk with hlink | ⟨f, hf, hshape, type, helem, hpos⟩
  · cases hparent : c.hasParent with
    | false =>
        obtain ⟨-, hnone⟩ := derived_of_member hm hp
        rw [hasParent_of_member hm hp, hparent, hlink] at hnone
        cases hnone
    | true =>
        obtain ⟨j, d, q', p', hj, hp', hlink', -⟩ := parent_member hm h hp hparent
        rw [hlink] at hlink'
        obtain rfl := Option.some.inj hlink'
        exact ⟨j, d, p', hp', by simp [Resolve.contained, hj]⟩
  · obtain ⟨l, hl⟩ := List.mem_iff_getElem?.mp hf
    obtain ⟨a, ha, hspec⟩ := (derived_of_member hm hp).1.exists_attribute hl
    obtain ⟨j, d, q', p', hj, hp', hpos', -⟩ :=
      elem_member hm h hp (List.mem_of_getElem? ha) hspec helem
    rw [hpos] at hpos'
    obtain rfl := Option.some.inj hpos'
    refine ⟨j, d, p', hp', List.mem_append_right _ (List.mem_filterMap.mpr
      ⟨a, List.mem_of_getElem? ha, ?_⟩)⟩
    have hvar : a.isVariableList = false := by
      rw [Attribute.isVariableList, hspec.shape, beq_eq_false_iff_ne]
      exact fun heq => hshape (Option.some.inj heq)
    simp [hvar, hj]

/-- Whatever a type contains is held by value by the plan of the type. -/
theorem contains_of_contained (hm : Bound m) (h : PlanSet.derive sized m = .ok S) {q i j : Nat}
    {c : Class} {p : Plan} (hp : Member sized m S q i c p) (hj : j ∈ Resolve.contained c) :
    ∃ k d p', Member sized m S k j d p' ∧ (ofSet S).Contains p k := by
  have hcls := List.mem_of_getElem? hp.cls
  rcases List.mem_append.mp hj with hparent | hattr
  · have hlink : c.parentClass? = some j := Option.mem_toList.mp hparent
    have hhas : c.hasParent = true := by
      by_contra hno
      rw [hm.orphan c hcls (Bool.eq_false_iff.mpr hno)] at hlink
      cases hlink
    obtain ⟨j', d, k, p', hj', hp', hparent', -⟩ := parent_member hm h hp hhas
    obtain rfl := Option.some.inj (hlink.symm.trans hj')
    exact ⟨k, d, p', hp', .inl hparent'⟩
  · obtain ⟨a, ha, hclass⟩ := List.mem_filterMap.mp hattr
    by_cases hvar : a.isVariableList = true
    · simp [hvar] at hclass
    · rw [if_neg hvar] at hclass
      obtain ⟨x, hx⟩ := List.mem_iff_getElem?.mp ha
      obtain ⟨f, hf, hspec⟩ := (derived_of_member hm hp).1.exists_field hx
      have hshape : f.shape ≠ .variableList := by
        intro hshape
        simp [Attribute.isVariableList, hspec.shape, hshape] at hvar
      have helem : f.elem = .message (m.className j) := by
        rw [hspec.elem, Plan.elementOf, (hm.types c hcls a ha).primitive?_eq_none hclass, hclass]
      obtain ⟨j', d, k, p', hj', hp', hpos, -⟩ := elem_member hm h hp ha hspec helem
      obtain rfl := Option.some.inj (hclass.symm.trans hj')
      exact ⟨k, d, p', hp', .inr ⟨f, List.mem_of_getElem? hf, hshape, _, helem, hpos⟩⟩

/-- Containment among accepted plans falls along a small rank. -/
theorem exists_ranked (hm : Bound m) (h : PlanSet.derive sized m = .ok S) :
    ∃ rank, (ofSet S).Ranked rank := by
  obtain ⟨rank, hrank⟩ := hm.ranked
  let base : Nat → Nat := fun q =>
    rank (m.classNames.idxOf (((S.accepted[q]?).map (·.name)).getD ""))
  have hbase : ∀ {q i c p}, Member sized m S q i c p → base q = rank i := by
    intro q i c p hp
    have hname : m.classNames[i]? = some c.name := by simp [Model.classNames, hp.cls]
    obtain ⟨hlt, hget⟩ := List.getElem?_eq_some_iff.mp hname
    have hidx : m.classNames.idxOf c.name = i := by
      rw [← hget]
      exact hm.classes_nodup.idxOf_getElem i hlt
    simp [base, hp.plan, (derived_of_member hm hp).1.name, hidx]
  obtain ⟨small, hsmall⟩ := exists_bounded_rank S.accepted.length base
  refine ⟨small, fun q p hq => ?_⟩
  rw [getElem?_plans_ofSet] at hq
  obtain ⟨i, c, hp⟩ := PlanSet.exists_member h hq
  have hlt := (List.getElem?_eq_some_iff.mp hq).1
  refine ⟨by simpa [ofSet] using (hsmall q hlt).1, ?_⟩
  intro k hk
  obtain ⟨j, d, p', hp', hj⟩ := contained_of_contains hm h hp hk
  refine (hsmall q hlt).2 k (List.getElem?_eq_some_iff.mp hp'.plan).1 ?_
  rw [hbase hp, hbase hp']
  exact hrank i c hp.cls j hj

/-- **The runtime over the accepted plans of a resolved model keeps what runtimes promise.** -/
theorem ofSet_sound (hm : Bound m) (h : PlanSet.derive sized m = .ok S) : (ofSet S).Sound := by
  refine ⟨?_, ?_, ?_, ?_, ?_, ?_, ?_, exists_ranked hm h⟩
  · intro q p hq
    obtain ⟨i, c, hp⟩ := PlanSet.exists_member h (getElem?_plans_ofSet S q ▸ hq)
    exact (derived_of_member hm hp).1.sound hm hp.cls hp.checked
  · intro q p hq
    exact (position?_ofSet hm h).mpr ⟨p, getElem?_plans_ofSet S q ▸ hq, rfl⟩
  · intro type q hpos
    obtain ⟨p, hp, hname⟩ := (position?_ofSet hm h).mp hpos
    exact ⟨p, (getElem?_plans_ofSet S q).trans hp, hname⟩
  · intro q p hq hparent
    obtain ⟨i, c, hp⟩ := PlanSet.exists_member h (getElem?_plans_ofSet S q ▸ hq)
    obtain ⟨j, d, q', p', -, hp', hlink, -⟩ :=
      parent_member hm h hp (hasParent_of_member hm hp ▸ hparent)
    exact ⟨q', p', hlink, (getElem?_plans_ofSet S q').trans hp'.plan⟩
  · intro q p hq hparent
    obtain ⟨i, c, hp⟩ := PlanSet.exists_member h (getElem?_plans_ofSet S q ▸ hq)
    rw [(derived_of_member hm hp).2, hparent]
    rfl
  · intro q p f type hq hf helem
    obtain ⟨i, c, hp⟩ := PlanSet.exists_member h (getElem?_plans_ofSet S q ▸ hq)
    obtain ⟨l, hl⟩ := List.mem_iff_getElem?.mp hf
    obtain ⟨a, ha, hspec⟩ := (derived_of_member hm hp).1.exists_attribute hl
    obtain ⟨-, -, q', -, -, -, hpos, -⟩ :=
      elem_member hm h hp (List.mem_of_getElem? ha) hspec helem
    exact ⟨q', hpos⟩
  · intro q p a hq ha
    obtain ⟨i, c, hp⟩ := PlanSet.exists_member h (getElem?_plans_ofSet S q ▸ hq)
    exact assignment_member hm h hp ha

end OfSet

end WireSchema.Message.Runtime
