import Mathlib
import WireSchema.Plan.Set
import WireSchema.Proofs.Graph.Order
import WireSchema.Proofs.Plan.Derived

/-!
# Accepted plans rely on accepted plans

A type is rejected when it uses a rejected one, and this is repeated until nothing changes.  The
fuel of that repetition is the number of types plus one, which suffices because every round but the
last rejects another type.  What remains is closed: whatever an accepted type uses is accepted.

## Main results

* `spread_closed` — the repetition ends in a closed set of rejected names.
* `exists_member` — an accepted plan is the linked plan of a type that passed every check.
* `exists_member_of_dependency` — the types an accepted type relies on are accepted.
* `position?_eq_some` — an accepted plan is found under its name.
-/

namespace WireSchema

/-- The message type at `j` is used by the one at `i`: as its parent, or by an attribute. -/
def Model.Uses (m : Model) (i j : Nat) : Prop :=
  ∃ c, m.classes[i]? = some c ∧ (c.parentClass? = some j ∨ ∃ a ∈ c.attributes, a.class? = some j)

theorem Report.mem_distinct {α : Type} [DecidableEq α] {x : α} (xs : List α) :
    x ∈ Report.distinct xs ↔ x ∈ xs := by
  induction xs with
  | nil => rfl
  | cons y ys ih =>
      rw [Report.distinct, List.mem_cons, List.mem_filter, ih, List.mem_cons]
      by_cases hxy : x = y <;> simp [hxy]

/-- A key that occurs once is found with its value. -/
theorem lookup_of_nodup {α : Type} {l : List (String × α)} {k : String} {v : α}
    (hnodup : (l.map (·.1)).Nodup) (hmem : (k, v) ∈ l) : l.lookup k = some v := by
  induction l with
  | nil => cases hmem
  | cons e rest ih =>
      obtain ⟨hfresh, hrest⟩ := List.nodup_cons.mp hnodup
      rcases List.mem_cons.mp hmem with rfl | hmem
      · exact List.lookup_cons_self
      · have hne : (k == e.1) = false := by
          rw [beq_eq_false_iff_ne]
          rintro rfl
          exact hfresh (List.mem_map_of_mem (f := (·.1)) hmem)
        rw [List.lookup_cons, hne]
        exact ih hrest hmem

namespace PlanSet

/-! ## Rejection -/

/-- No type with a plan relies on a rejected name without being rejected itself. -/
def Closed (m : Model) (outcomes : List Outcome) (names : List String) : Prop :=
  ∀ o ∈ outcomes, o.plan?.isSome = true → o.cls.name ∉ names →
    ∀ d ∈ dependencies m o.cls, d ∉ names

/-- Considering a type adds its name, or finds nothing to hold against it. -/
theorem consider_names (m : Model) (r : Rejection) (o : Outcome) :
    ((r.consider m o).names = o.cls.name :: r.names ∧ o.cls.name ∉ r.names) ∨
      ((r.consider m o).names = r.names ∧ Closed m [o] r.names) := by
  unfold Rejection.consider
  split
  · rename_i hskip
    refine .inr ⟨rfl, ?_⟩
    intro o' ho' hplan hname
    obtain rfl := List.mem_singleton.mp ho'
    simp only [Bool.or_eq_true, Option.isNone_iff_eq_none, List.contains_eq_mem,
      decide_eq_true_eq] at hskip
    rcases hskip with hnone | hmem
    · rw [hnone] at hplan
      cases hplan
    · exact absurd hmem hname
  · rename_i hconsidered
    split
    · rename_i hnone
      refine .inr ⟨rfl, ?_⟩
      intro o' ho' _ _ d hd hmem
      obtain rfl := List.mem_singleton.mp ho'
      have hclean := List.find?_eq_none.mp hnone d hd
      simp [hmem] at hclean
    · refine .inl ⟨rfl, ?_⟩
      intro hmem
      simp [hmem] at hconsidered

/-- A round adds names of types that were not rejected before; if it adds none the names are
closed. -/
theorem foldl_consider_names (m : Model) (outcomes : List Outcome) (r : Rejection) :
    ∃ added, (outcomes.foldl (Rejection.consider m) r).names = added ++ r.names ∧
      (∀ n ∈ added, n ∉ r.names ∧ n ∈ outcomes.map (·.cls.name)) ∧
      (added = [] → Closed m outcomes r.names) := by
  induction outcomes generalizing r with
  | nil => exact ⟨[], rfl, by simp, fun _ o ho => by cases ho⟩
  | cons o rest ih =>
      obtain ⟨added, hnames, hadded, hclosed⟩ := ih (r.consider m o)
      rw [List.foldl_cons, hnames]
      rcases consider_names m r o with ⟨hcons, hfresh⟩ | ⟨hsame, hhead⟩
      · refine ⟨added ++ [o.cls.name], by simp [hcons], ?_, by simp⟩
        intro n hn
        rcases List.mem_append.mp hn with hn | hn
        · have hold := hadded n hn
          rw [hcons] at hold
          exact ⟨fun hmem => hold.1 (List.mem_cons_of_mem _ hmem), List.mem_cons_of_mem _ hold.2⟩
        · rw [List.mem_singleton.mp hn]
          exact ⟨hfresh, List.mem_cons_self⟩
      · rw [hsame] at hadded hclosed ⊢
        refine ⟨added, rfl, fun n hn => ⟨(hadded n hn).1, List.mem_cons_of_mem _ (hadded n hn).2⟩,
          ?_⟩
        intro hnil o' ho'
        rcases List.mem_cons.mp ho' with rfl | ho'
        · exact hhead o' (List.mem_singleton_self _)
        · exact hclosed hnil o' ho'

/-- The types that are not rejected yet. -/
def spared (outcomes : List Outcome) (names : List String) : Nat :=
  outcomes.countP fun o => !names.contains o.cls.name

/-- A round that adds a name spares fewer types. -/
theorem spared_lt {outcomes : List Outcome} {names added : List String} {n : String}
    (hn : n ∈ added) (hfresh : n ∉ names) (hmem : n ∈ outcomes.map (·.cls.name)) :
    spared outcomes (added ++ names) < spared outcomes names := by
  obtain ⟨o, ho, rfl⟩ := List.mem_map.mp hmem
  obtain ⟨before, after, rfl⟩ := List.append_of_mem ho
  have hmono : ∀ l : List Outcome, spared l (added ++ names) ≤ spared l names := by
    intro l
    refine List.countP_mono_left fun x _ hx => ?_
    simp only [Bool.not_eq_true', List.contains_eq_mem, decide_eq_false_iff_not,
      List.mem_append, not_or] at hx ⊢
    exact hx.2
  have hbefore := hmono before
  have hafter := hmono after
  have hold : (!names.contains o.cls.name) = true := by simp [hfresh]
  have hnew : (!(added ++ names).contains o.cls.name) = false := by simp [hn]
  simp only [spared, List.countP_append, List.countP_cons, hold, hnew] at hbefore hafter ⊢
  simp only [Bool.false_eq_true, if_false, if_true]
  omega

/-- **With fuel for every type that can still be rejected the repetition ends closed.** -/
theorem spread_closed (m : Model) (outcomes : List Outcome) (fuel : Nat) :
    ∀ r : Rejection, spared outcomes r.names < fuel →
      Closed m outcomes (r.spread m outcomes fuel).names ∧
        r.names ⊆ (r.spread m outcomes fuel).names := by
  induction fuel with
  | zero =>
      intro r hfuel
      omega
  | succ fuel ih =>
      intro r hfuel
      obtain ⟨added, hnames, hadded, hclosed⟩ := foldl_consider_names m outcomes r
      rw [Rejection.spread]
      simp only [hnames, List.length_append]
      cases added with
      | nil =>
          rw [if_pos (by simp)]
          exact ⟨hclosed rfl, fun _ h => h⟩
      | cons n added =>
          rw [if_neg (by simp)]
          obtain ⟨hfresh, hmem⟩ := hadded n List.mem_cons_self
          have hlt : spared outcomes (n :: added ++ r.names) < spared outcomes r.names :=
            spared_lt List.mem_cons_self hfresh hmem
          have hnext := ih (outcomes.foldl (Rejection.consider m) r) (by rw [hnames]; omega)
          refine ⟨hnext.1, fun x hx => hnext.2 ?_⟩
          rw [hnames]
          exact List.mem_append_right _ hx

/-! ## Outcomes -/

/-- What became of the type at `i`. -/
def Became (sized : Bool) (m : Model) (i : Nat) (c : Class) (o : Outcome) : Prop :=
  o.cls = c ∧ (∀ p, o.plan? = some p →
    (Plan.check sized m i c).hasErrors = false ∧ Plan.derive sized m c = .ok p)

theorem outcomeOf_became {sized : Bool} {m : Model} {i : Nat} {c : Class} {o : Outcome}
    (h : outcomeOf sized m i c = .ok o) : Became sized m i c o := by
  unfold outcomeOf at h
  cases herr : (Plan.check sized m i c).hasErrors with
  | true =>
      simp only [herr, if_true, Except.ok.injEq] at h
      subst h
      exact ⟨rfl, fun p hp => by cases hp⟩
  | false =>
      simp only [herr, Bool.false_eq_true, if_false] at h
      cases hplan : Plan.derive sized m c with
      | error e =>
          rw [hplan] at h
          cases h
      | ok p =>
          rw [hplan] at h
          cases h
          exact ⟨rfl, fun p' hp' => ⟨herr, hplan.trans (congrArg _ (Option.some.inj hp'))⟩⟩

/-- The outcomes of all types as they were computed, place by place. -/
theorem exists_computed {sized : Bool} {m : Model} {S : PlanSet} (h : derive sized m = .ok S) :
    ∃ outcomes, S = ofOutcomes m outcomes ∧ outcomes.length = m.classes.length ∧
      ∀ (i : Nat) (c : Class), m.classes[i]? = some c →
        ∃ o, outcomes[i]? = some o ∧ outcomeOf sized m i c = .ok o := by
  unfold derive at h
  cases hall : (m.classes.mapIdx fun i c => (i, c)).mapM
      fun x => outcomeOf sized m x.1 x.2 with
  | error e =>
      simp only [hall, bind, Except.bind] at h
      cases h
  | ok outcomes =>
      simp only [hall, bind, Except.bind, pure, Except.pure, Except.ok.injEq] at h
      have hpoint := mapM_ok hall
      refine ⟨outcomes, h.symm, ?_, ?_⟩
      · rw [← hpoint.length_eq, List.length_mapIdx]
      · intro i c hc
        have hpair : (m.classes.mapIdx fun i c => (i, c))[i]? = some (i, c) := by
          rw [List.getElem?_mapIdx, hc]
          rfl
        obtain ⟨o, ho, hout⟩ := Plan.forall₂_getElem? hpoint hpair
        exact ⟨o, ho, hout⟩

/-- The outcomes of all types, place by place. -/
theorem exists_outcomes {sized : Bool} {m : Model} {S : PlanSet} (h : derive sized m = .ok S) :
    ∃ outcomes, S = ofOutcomes m outcomes ∧ outcomes.length = m.classes.length ∧
      ∀ (i : Nat) (c : Class), m.classes[i]? = some c →
        ∃ o, outcomes[i]? = some o ∧ Became sized m i c o := by
  obtain ⟨outcomes, hS, hlen, hat⟩ := exists_computed h
  refine ⟨outcomes, hS, hlen, fun i c hc => ?_⟩
  obtain ⟨o, ho, hout⟩ := hat i c hc
  exact ⟨o, ho, outcomeOf_became hout⟩

/-! ## Linking -/

/-- A plan linked within `plans`. -/
def linkTo (plans : List Plan) (p : Plan) : Plan :=
  { p with parent? := if p.hasParent then position? plans p.parentName else p.parent? }

theorem getElem?_link (plans : List Plan) (q : Nat) :
    (link plans)[q]? = (plans[q]?).map (linkTo plans) := by
  rw [link, List.getElem?_map]
  congr 1
  funext p
  unfold linkTo
  split
  · rfl
  · rfl

/-- Linking keeps the names. -/
theorem map_name_link (plans : List Plan) : (link plans).map (·.name) = plans.map (·.name) := by
  rw [link, List.map_map]
  refine List.map_congr_left fun p _ => ?_
  simp only [Function.comp_apply]
  split <;> rfl

/-- A name that is taken once is found where it is. -/
theorem position?_eq_some {plans : List Plan} (hnodup : (plans.map (·.name)).Nodup) {q : Nat}
    {p : Plan} (hp : plans[q]? = some p) : position? plans p.name = some q := by
  have hkeys : (plans.mapIdx fun i p => (p.name, i)).map (·.1) = plans.map (·.name) := by
    refine List.ext_getElem? fun k => ?_
    rw [List.getElem?_map, List.getElem?_mapIdx, List.getElem?_map, Option.map_map]
    rfl
  refine lookup_of_nodup ?_ ?_
  · rw [List.map_reverse, hkeys]
    exact List.nodup_reverse.mpr hnodup
  · refine List.mem_reverse.mpr (List.mem_iff_getElem?.mpr ⟨q, ?_⟩)
    rw [List.getElem?_mapIdx, hp]
    rfl

/-- The order mentions every position once. -/
theorem parentsFirst_positions (plans : List Plan) :
    (parentsFirst plans).Nodup ∧ ∀ q, q ∈ parentsFirst plans ↔ q < plans.length := by
  unfold parentsFirst
  dsimp only
  split
  · rename_i hlen
    have hplaced := Graph.Deps.order_placed
      ⟨plans.length, fun i => ((plans[i]?.bind (·.parent?)).map ([·])).getD []⟩
    exact ⟨hplaced.nodup, fun q => ⟨fun hq => hplaced.lt_size hq,
      fun hq => Graph.Deps.mem_order_of_length hlen hq⟩⟩
  · exact ⟨List.nodup_range, fun q => List.mem_range⟩

/-! ## Members -/

/-- The accepted plan at `q` is that of the message type at `i`. -/
structure Member (sized : Bool) (m : Model) (S : PlanSet) (q i : Nat) (c : Class) (p : Plan) :
    Prop where
  plan : S.accepted[q]? = some p
  cls : m.classes[i]? = some c
  checked : (Plan.check sized m i c).hasErrors = false
  derived : ∃ p₀, Plan.derive sized m c = .ok p₀ ∧ p = linkTo S.accepted p₀

/-- The plans that are left, before they are linked. -/
def kept (outcomes : List Outcome) (names : List String) : List Plan :=
  (outcomes.filter fun o => !names.contains o.cls.name).filterMap (·.plan?)

/-- The rejected names. -/
def rejectedNames (m : Model) (outcomes : List Outcome) : List String :=
  (Rejection.spread m outcomes (outcomes.length + 1)
    ⟨(outcomes.filter (·.plan?.isNone)).map (·.cls.name),
      .join (outcomes.map (·.report))⟩).names

theorem accepted_ofOutcomes (m : Model) (outcomes : List Outcome) :
    (ofOutcomes m outcomes).accepted = link (kept outcomes (rejectedNames m outcomes)) := rfl

theorem rejectedNames_closed (m : Model) (outcomes : List Outcome) :
    Closed m outcomes (rejectedNames m outcomes) ∧
      ∀ o ∈ outcomes, o.plan? = none → o.cls.name ∈ rejectedNames m outcomes := by
  have hfuel : spared outcomes ((outcomes.filter (·.plan?.isNone)).map (·.cls.name)) <
      outcomes.length + 1 := Nat.lt_succ_of_le List.countP_le_length
  obtain ⟨hclosed, hsub⟩ := spread_closed m outcomes (outcomes.length + 1)
    ⟨(outcomes.filter (·.plan?.isNone)).map (·.cls.name), .join (outcomes.map (·.report))⟩ hfuel
  refine ⟨hclosed, fun o ho hnone => hsub ?_⟩
  exact List.mem_map_of_mem (List.mem_filter.mpr ⟨ho, by simp [hnone]⟩)

section Members

variable {sized : Bool} {m : Model} {outcomes : List Outcome}

/-- The outcomes of a model's types, place by place. -/
def Outcomes (sized : Bool) (m : Model) (outcomes : List Outcome) : Prop :=
  outcomes.length = m.classes.length ∧ ∀ (i : Nat) (c : Class), m.classes[i]? = some c →
    ∃ o, outcomes[i]? = some o ∧ Became sized m i c o

theorem Outcomes.exists_class (h : Outcomes sized m outcomes) {o : Outcome} (ho : o ∈ outcomes) :
    ∃ i c, m.classes[i]? = some c ∧ outcomes[i]? = some o ∧ Became sized m i c o := by
  obtain ⟨i, hi⟩ := List.mem_iff_getElem?.mp ho
  have hlt : i < m.classes.length := h.1 ▸ (List.getElem?_eq_some_iff.mp hi).1
  obtain ⟨o', ho', hbecame⟩ := h.2 i m.classes[i] (List.getElem?_eq_getElem hlt)
  rw [hi] at ho'
  obtain rfl := Option.some.inj ho'
  exact ⟨i, m.classes[i], List.getElem?_eq_getElem hlt, hi, hbecame⟩

/-- Derivation keeps the name of the type. -/
theorem derive_name {c : Class} {p : Plan} (h : Plan.derive sized m c = .ok p) :
    p.name = c.name := by
  obtain ⟨parts, assignments, -, -, rfl⟩ := Plan.derive_parts h
  rfl

/-- Dropping outcomes drops names. -/
theorem map_name_sublist (h : Outcomes sized m outcomes) {l : List Outcome} (hl : l ⊆ outcomes) :
    ((l.filterMap (·.plan?)).map (·.name)).Sublist (l.map (·.cls.name)) := by
  induction l with
  | nil => exact List.Sublist.refl _
  | cons o rest ih =>
      have hrest := ih fun x hx => hl (List.mem_cons_of_mem _ hx)
      obtain ⟨i, c, -, -, hcls, hplan⟩ := h.exists_class (hl List.mem_cons_self)
      cases hp : o.plan? with
      | none =>
          rw [List.filterMap_cons_none hp, List.map_cons]
          exact hrest.cons _
      | some p =>
          rw [List.filterMap_cons_some hp, List.map_cons, List.map_cons,
            derive_name (hplan p hp).2, hcls]
          exact hrest.cons_cons _

theorem map_name_outcomes (h : Outcomes sized m outcomes) :
    outcomes.map (·.cls.name) = m.classNames := by
  refine List.ext_getElem? fun i => ?_
  rw [List.getElem?_map, Model.classNames, List.getElem?_map]
  cases hc : m.classes[i]? with
  | none =>
      have hlen : m.classes.length ≤ i := List.getElem?_eq_none_iff.mp hc
      rw [List.getElem?_eq_none (h.1 ▸ hlen)]
      rfl
  | some c =>
      obtain ⟨o, ho, hcls, -⟩ := h.2 i c hc
      rw [ho, Option.map_some, Option.map_some, hcls]

/-- Unique names of types make unique names of plans. -/
theorem kept_nodup (h : Outcomes sized m outcomes) (hnodup : m.classNames.Nodup)
    (names : List String) : ((kept outcomes names).map (·.name)).Nodup := by
  refine List.Nodup.sublist (map_name_sublist h fun o ho => (List.mem_filter.mp ho).1) ?_
  refine List.Nodup.sublist (List.filter_sublist.map _) ?_
  rw [map_name_outcomes h]
  exact hnodup

theorem mem_kept {names : List String} {p : Plan} :
    p ∈ kept outcomes names ↔
      ∃ o ∈ outcomes, o.cls.name ∉ names ∧ o.plan? = some p := by
  simp [kept, List.mem_filterMap, List.mem_filter, and_assoc]

end Members

section Accepted

variable {sized : Bool} {m : Model} {S : PlanSet}

/-- The names of accepted plans are unique. -/
theorem accepted_nodup (hnodup : m.classNames.Nodup) (h : derive sized m = .ok S) :
    (S.accepted.map (·.name)).Nodup := by
  obtain ⟨outcomes, rfl, houtcomes⟩ := exists_outcomes h
  rw [accepted_ofOutcomes, map_name_link]
  exact kept_nodup houtcomes hnodup _

/-- A plan that is kept is accepted once it is linked. -/
theorem member_of_kept {outcomes : List Outcome} {i : Nat} {c : Class} {o : Outcome} {p : Plan}
    (hc : m.classes[i]? = some c) (ho : Became sized m i c o) (hp : o.plan? = some p) {q : Nat}
    (hq : (kept outcomes (rejectedNames m outcomes))[q]? = some p) :
    Member sized m (ofOutcomes m outcomes) q i c
      (linkTo (ofOutcomes m outcomes).accepted p) := by
  have hlink : linkTo (kept outcomes (rejectedNames m outcomes)) p =
      linkTo (ofOutcomes m outcomes).accepted p := by
    have hpos : ∀ plans n, position? (link plans) n = position? plans n := by
      intro plans n
      have hkeys : ((link plans).mapIdx fun i p => (p.name, i)) =
          plans.mapIdx fun i p => (p.name, i) := by
        refine List.ext_getElem? fun k => ?_
        rw [List.getElem?_mapIdx, List.getElem?_mapIdx, getElem?_link, Option.map_map]
        rfl
      rw [position?, hkeys]
      rfl
    rw [accepted_ofOutcomes, linkTo, linkTo, hpos]
  refine ⟨?_, hc, (ho.2 p hp).1, p, (ho.2 p hp).2, rfl⟩
  rw [accepted_ofOutcomes, getElem?_link, hq, ← accepted_ofOutcomes, Option.map_some, hlink]

/-- **An accepted plan is the linked plan of a type that passed every check.** -/
theorem exists_member (h : derive sized m = .ok S) {q : Nat} {p : Plan}
    (hp : S.accepted[q]? = some p) : ∃ i c, Member sized m S q i c p := by
  obtain ⟨outcomes, rfl, houtcomes⟩ := exists_outcomes h
  have hlinked := hp
  rw [accepted_ofOutcomes, getElem?_link, Option.map_eq_some_iff] at hlinked
  obtain ⟨p₀, hp₀, -⟩ := hlinked
  obtain ⟨o, ho, -, hplan⟩ := mem_kept.mp (List.mem_of_getElem? hp₀)
  obtain ⟨i, c, hc, -, hbecame⟩ := Outcomes.exists_class houtcomes ho
  have hmember := member_of_kept hc hbecame hplan hp₀
  have hsame := hmember.plan
  rw [hp] at hsame
  exact ⟨i, c, (Option.some.inj hsame) ▸ hmember⟩

/-- **The types an accepted type relies on are accepted.** -/
theorem exists_member_of_dependency (hnodup : m.classNames.Nodup) (h : derive sized m = .ok S)
    {q i j : Nat} {c d : Class} {p : Plan} (hp : Member sized m S q i c p)
    (hd : m.classes[j]? = some d) (hdep : d.name ∈ dependencies m c) :
    ∃ q' p', Member sized m S q' j d p' := by
  obtain ⟨outcomes, rfl, houtcomes⟩ := exists_outcomes h
  obtain ⟨hclosed, hunplanned⟩ := rejectedNames_closed m outcomes
  obtain ⟨o, ho, hcls, hplans⟩ := houtcomes.2 i c hp.cls
  obtain ⟨o', ho', hbecame'⟩ := houtcomes.2 j d hd
  obtain ⟨p₀, hderive, hlinked⟩ := hp.derived
  -- The outcome of an accepted type is one that was kept.
  have hkept : o.plan? = some p₀ ∧ o.cls.name ∉ rejectedNames m outcomes := by
    have hplan := hp.plan
    rw [accepted_ofOutcomes, getElem?_link, Option.map_eq_some_iff] at hplan
    obtain ⟨p₁, hp₁, hsame⟩ := hplan
    obtain ⟨o₁, ho₁, hfree, hplan₁⟩ := mem_kept.mp (List.mem_of_getElem? hp₁)
    obtain ⟨i₁, c₁, hc₁, hi₁, hcls₁, hbecame₁⟩ := Outcomes.exists_class houtcomes ho₁
    have hname : c₁.name = c.name := by
      have h₁ := derive_name (hbecame₁ p₁ hplan₁).2
      have h₀ := derive_name hderive
      rw [← h₁, ← h₀]
      calc p₁.name = p.name := by rw [← hsame]; rfl
        _ = p₀.name := by rw [hlinked]; rfl
    obtain rfl : i₁ = i := by
      have hget : m.classNames[i₁]? = m.classNames[i]? := by
        simp [Model.classNames, hc₁, hp.cls, hname]
      refine (List.getElem?_inj ?_ hnodup).mp hget
      simpa [Model.classNames] using (List.getElem?_eq_some_iff.mp hc₁).1
    rw [hi₁] at ho
    obtain rfl := Option.some.inj ho
    have hp₀ := (hplans p₁ hplan₁).2
    rw [hderive] at hp₀
    cases hp₀
    exact ⟨hplan₁, hfree⟩
  have hfree : d.name ∉ rejectedNames m outcomes :=
    hclosed o (List.mem_of_getElem? ho) (by simp [hkept.1]) hkept.2 d.name (hcls ▸ hdep)
  cases hplan' : o'.plan? with
  | none =>
      have hmem := hunplanned o' (List.mem_of_getElem? ho') hplan'
      rw [hbecame'.1] at hmem
      exact absurd hmem hfree
  | some p' =>
      have hmem : p' ∈ kept outcomes (rejectedNames m outcomes) :=
        mem_kept.mpr ⟨o', List.mem_of_getElem? ho', hbecame'.1 ▸ hfree, hplan'⟩
      obtain ⟨q', hq'⟩ := List.mem_iff_getElem?.mp hmem
      exact ⟨q', _, member_of_kept hd hbecame' hplan' hq'⟩

end Accepted

end PlanSet

end WireSchema
