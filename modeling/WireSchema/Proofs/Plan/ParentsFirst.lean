import Mathlib
import WireSchema.Proofs.Graph.Least
import WireSchema.Proofs.Message.Runtime
import WireSchema.Proofs.Plan.Rejected
import WireSchema.Proofs.Plan.Total

/-!
# Parents first

The accepted plans are ordered by their positions among each other, while a reader of a schema
counts types by their declaration.  The two agree: the accepted types, in the order of declaration,
have the accepted plans in order, so a smaller position is an earlier declaration and a parent link
between plans is one between types.  The order of the plans, which is the least one by position, is
then the least one by declaration.

## Main results

* `Member.remaining` — the plan at a position is that of the remaining type there.
* `plans_order` — the plans are those of the remaining types, each once, in the least order that has
  every parent before its children.
* `derive_rejects` — rejected types, their errors and the order of the plans, in one statement.
-/

namespace WireSchema

/-- In a list of types every type stands after its parent. -/
def Model.ParentsFirst (m : Model) (l : List Nat) : Prop :=
  ∀ before i rest, l = before ++ i :: rest → ∀ j, m.parentOf? i = some j → j ∈ before

/-- A map that keeps the order of numbers keeps the order of lists of them. -/
theorem lex_map {f : Nat → Nat} {xs ys : List Nat} (h : List.Lex (· < ·) xs ys)
    (hf : ∀ a ∈ xs, ∀ b ∈ ys, a < b → f a < f b) :
    List.Lex (· < ·) (xs.map f) (ys.map f) := by
  induction h with
  | nil => exact .nil
  | rel hlt => exact .rel (hf _ List.mem_cons_self _ List.mem_cons_self hlt)
  | cons _ ih =>
      exact .cons (ih fun a ha b hb =>
        hf a (List.mem_cons_of_mem _ ha) b (List.mem_cons_of_mem _ hb))

namespace PlanSet

open Resolve (Bound)
open Message (Runtime)

section Remaining

variable {sized : Bool} {m : Model} {S : PlanSet}

/-- The types that are not rejected, in the order of declaration. -/
def remaining (m : Model) (S : PlanSet) : List Nat :=
  (List.range m.classes.length).filter fun i => !S.rejected.contains (m.className i)

theorem mem_remaining {i : Nat} :
    i ∈ remaining m S ↔ ∃ c, m.classes[i]? = some c ∧ c.name ∉ S.rejected := by
  rw [remaining, List.mem_filter, List.mem_range]
  constructor
  · rintro ⟨hi, hfree⟩
    have hc := List.getElem?_eq_getElem hi
    exact ⟨_, hc, by simpa [className_of_getElem? hc] using hfree⟩
  · rintro ⟨c, hc, hfree⟩
    refine ⟨(List.getElem?_eq_some_iff.mp hc).1, ?_⟩
    simpa [className_of_getElem? hc] using hfree

theorem remaining_sorted : (remaining m S).Pairwise (· < ·) :=
  List.pairwise_lt_range.filter _

theorem map_className_range (m : Model) :
    (List.range m.classes.length).map m.className = m.classNames := by
  refine List.ext_getElem? fun i => ?_
  rw [List.getElem?_map, Model.classNames, List.getElem?_map]
  by_cases hi : i < m.classes.length
  · simp [Model.className, hi]
  · rw [List.getElem?_eq_none (by simpa using hi), List.getElem?_eq_none (by simpa using hi)]
    rfl

/-- Outcomes with plans have plans of the same names. -/
theorem map_name_planned {outcomes : List Outcome} (h : Outcomes sized m outcomes)
    {l : List Outcome} (hl : l ⊆ outcomes) (hplan : ∀ o ∈ l, o.plan? ≠ none) :
    (l.filterMap (·.plan?)).map (·.name) = l.map (·.cls.name) := by
  induction l with
  | nil => rfl
  | cons o rest ih =>
      have hrest := ih (fun x hx => hl (List.mem_cons_of_mem _ hx))
        fun x hx => hplan x (List.mem_cons_of_mem _ hx)
      obtain ⟨i, c, -, -, hcls, hbecame⟩ := h.exists_class (hl List.mem_cons_self)
      obtain ⟨p, hp⟩ := Option.ne_none_iff_exists'.mp (hplan o List.mem_cons_self)
      rw [List.filterMap_cons_some hp, List.map_cons, List.map_cons, hrest,
        derive_name (hbecame p hp).2, hcls]

/-- The remaining types have the accepted plans, in order. -/
theorem map_name_accepted (hm : Bound m) (h : derive sized m = .ok S) :
    S.accepted.map (·.name) = (remaining m S).map m.className := by
  obtain ⟨outcomes, rfl, hcomputed⟩ := exists_computed h
  have hbecame : Outcomes sized m outcomes := Computed.became hcomputed
  have hrejected := rejected_eq_filter hm hcomputed
  have hplanned : ∀ o ∈ outcomes.filter fun o => !(rejectedNames m outcomes).contains o.cls.name,
      o.plan? ≠ none := by
    intro o ho hnone
    obtain ⟨hmem, hfree⟩ := List.mem_filter.mp ho
    have hname := (rejectedNames_closed m outcomes).2 o hmem hnone
    simp [hname] at hfree
  calc (link (kept outcomes (rejectedNames m outcomes))).map (·.name)
      = (outcomes.filter fun o => !(rejectedNames m outcomes).contains o.cls.name).map
          (·.cls.name) := by
        rw [map_name_link]
        exact map_name_planned hbecame (fun o ho => (List.mem_filter.mp ho).1) hplanned
    _ = m.classNames.filter fun name => !(rejectedNames m outcomes).contains name := by
        rw [← map_name_outcomes hbecame, List.filter_map]
        rfl
    _ = m.classNames.filter fun name => !(ofOutcomes m outcomes).rejected.contains name := by
        refine List.filter_congr fun name hname => ?_
        rw [hrejected]
        simp [hname]
    _ = (remaining m (ofOutcomes m outcomes)).map m.className := by
        rw [← map_className_range, List.filter_map]
        rfl

/-- The plan at a position is that of the remaining type there. -/
theorem Member.remaining (hm : Bound m) (h : derive sized m = .ok S) {q i : Nat} {c : Class}
    {p : Plan} (hp : Member sized m S q i c p) : (remaining m S)[q]? = some i := by
  have hname : ((PlanSet.remaining m S).map m.className)[q]? = some c.name := by
    rw [← map_name_accepted hm h, List.getElem?_map, hp.plan, Option.map_some,
      (Runtime.derived_of_member hm hp).1.name]
  rw [List.getElem?_map, Option.map_eq_some_iff] at hname
  obtain ⟨k, hk, hsame⟩ := hname
  obtain ⟨d, hd, -⟩ := mem_remaining.mp (List.mem_of_getElem? hk)
  have hki : k = i := by
    refine index_unique hm (List.getElem?_eq_some_iff.mp hd).1
      (List.getElem?_eq_some_iff.mp hp.cls).1 ?_
    rw [hsame, className_of_getElem? hp.cls]
  rw [hk, hki]

/-- The type that the plan at a position is of. -/
def typeAt (m : Model) (S : PlanSet) (q : Nat) : Nat := (PlanSet.remaining m S)[q]?.getD 0

theorem Member.typeAt (hm : Bound m) (h : derive sized m = .ok S) {q i : Nat} {c : Class}
    {p : Plan} (hp : Member sized m S q i c p) : typeAt m S q = i := by
  rw [PlanSet.typeAt, hp.remaining hm h]
  rfl

theorem exists_member_at (h : derive sized m = .ok S) {q : Nat} (hq : q < S.accepted.length) :
    ∃ i c p, Member sized m S q i c p := by
  obtain ⟨i, c, hp⟩ := exists_member h (List.getElem?_eq_getElem hq)
  exact ⟨i, c, _, hp⟩

theorem length_remaining (hm : Bound m) (h : derive sized m = .ok S) :
    (PlanSet.remaining m S).length = S.accepted.length := by
  have hlen := congrArg List.length (map_name_accepted hm h)
  simpa using hlen.symm

/-- A smaller position is an earlier declaration. -/
theorem typeAt_lt (hm : Bound m) (h : derive sized m = .ok S) {a b : Nat} (hab : a < b)
    (hb : b < S.accepted.length) : typeAt m S a < typeAt m S b := by
  have hlen := length_remaining hm h
  have hsorted := List.pairwise_iff_getElem.mp (remaining_sorted (m := m) (S := S)) a b
    (by omega) (by omega) hab
  have ha' : a < (PlanSet.remaining m S).length := by omega
  have hb' : b < (PlanSet.remaining m S).length := by omega
  simpa [typeAt, ha', hb'] using hsorted

theorem typeAt_inj (hm : Bound m) (h : derive sized m = .ok S) {a b : Nat}
    (ha : a < S.accepted.length) (hb : b < S.accepted.length)
    (heq : typeAt m S a = typeAt m S b) : a = b := by
  by_contra hne
  rcases Nat.lt_or_gt_of_ne hne with hlt | hlt
  · have := typeAt_lt hm h hlt hb
    omega
  · have := typeAt_lt hm h hlt ha
    omega

theorem map_typeAt_range (hm : Bound m) (h : derive sized m = .ok S) :
    (List.range S.accepted.length).map (typeAt m S) = PlanSet.remaining m S := by
  have hlen := length_remaining hm h
  refine List.ext_getElem (by simp [hlen]) fun q hq hq' => ?_
  simp [typeAt, hq']

/-- The positions of the parents. -/
def parentLinks (S : PlanSet) : Graph.Deps :=
  ⟨S.accepted.length, fun q => ((S.accepted[q]?.bind (·.parent?)).map ([·])).getD []⟩

/-- A parent link between plans is one between their types. -/
theorem parentLinks_deps (hm : Bound m) (h : derive sized m = .ok S) {q : Nat}
    (hq : q < S.accepted.length) :
    (∀ d ∈ (parentLinks S).deps q, d < S.accepted.length ∧
      m.parentOf? (typeAt m S q) = some (typeAt m S d)) ∧
    ∀ j, m.parentOf? (typeAt m S q) = some j → ∃ d ∈ (parentLinks S).deps q, typeAt m S d = j := by
  obtain ⟨i, c, p, hp⟩ := exists_member_at h hq
  have hlink : (parentLinks S).deps q = p.parent?.toList := by
    simp only [parentLinks, hp.plan, Option.bind_some]
    cases p.parent? <;> rfl
  rw [hp.typeAt hm h, hlink, Model.parentOf?, hp.cls, Option.bind_some]
  by_cases hhas : c.hasParent = true
  · obtain ⟨k, d, q', p', hk, hp', hparent, -⟩ := Runtime.parent_member hm h hp hhas
    have hq' := (List.getElem?_eq_some_iff.mp hp'.plan).1
    simp [hk, hparent, hq', hp'.typeAt hm h]
  · have hnone := (Runtime.derived_of_member hm hp).2
    rw [Runtime.hasParent_of_member hm hp, if_neg hhas] at hnone
    rw [hnone, hm.orphan c (List.mem_of_getElem? hp.cls) (Bool.eq_false_iff.mpr hhas)]
    simp

/-- Parents do not go in a circle, so the plans are in the order of their parent links. -/
theorem order_eq (hm : Bound m) (h : derive sized m = .ok S) :
    S.order = (parentLinks S).order := by
  obtain ⟨rank, hrank⟩ := hm.ranked
  have hfull : (parentLinks S).order.length = (parentLinks S).size := by
    -- What falls along containment falls along parent links.
    refine Graph.Deps.order_length_of_ranked (fun q => rank (typeAt m S q)) fun q hq d hd => ?_
    obtain ⟨hlt, hparent⟩ := (parentLinks_deps hm h hq).1 d hd
    refine ⟨hlt, ?_⟩
    obtain ⟨c, hc, hlink⟩ := Option.bind_eq_some_iff.mp hparent
    exact hrank _ c hc _ (by simp [Resolve.contained, hlink])
  obtain ⟨outcomes, rfl, -⟩ := exists_computed h
  exact if_pos hfull

/-- The plans in order, by their types. -/
theorem map_name_plans (hm : Bound m) (h : derive sized m = .ok S) :
    S.plans.map (·.name) = (S.order.map (typeAt m S)).map m.className := by
  have hat : ∀ q ∈ S.order, S.accepted[q]?.map (·.name) = some (m.className (typeAt m S q)) := by
    intro q hq
    obtain ⟨i, c, p, hp⟩ := exists_member_at h (((Runtime.order_positions h).2 q).mp hq)
    rw [hp.plan, hp.typeAt hm h, className_of_getElem? hp.cls, Option.map_some,
      (Runtime.derived_of_member hm hp).1.name]
  rw [plans, List.map_filterMap, List.filterMap_congr hat, List.map_map]
  exact congrFun List.filterMap_eq_map _

/-- **The plans are those of the remaining types**, each once, and their order is the least one by
declaration that has every parent before its children. -/
theorem plans_order (hm : Bound m) (h : derive sized m = .ok S) :
    ∃ l : List Nat, S.plans.map (·.name) = l.map m.className ∧ l.Nodup ∧
      (∀ i, i ∈ l ↔ ∃ c, m.classes[i]? = some c ∧ c.name ∉ S.rejected) ∧ m.ParentsFirst l ∧
      ∀ l' : List Nat, l'.Perm l → m.ParentsFirst l' → l = l' ∨ List.Lex (· < ·) l l' := by
  obtain ⟨hnodup, hpositions⟩ := Runtime.order_positions h
  have hrange : S.order.Perm (List.range S.accepted.length) :=
    (List.perm_ext_iff_of_nodup hnodup List.nodup_range).mpr fun q => by
      rw [hpositions, List.mem_range]
  have hperm : (S.order.map (typeAt m S)).Perm (PlanSet.remaining m S) := by
    rw [← map_typeAt_range hm h]
    exact hrange.map _
  have hunique : (PlanSet.remaining m S).Nodup := remaining_sorted.imp fun hlt => hlt.ne
  refine ⟨S.order.map (typeAt m S), map_name_plans hm h, hperm.nodup_iff.mpr hunique,
    fun i => hperm.mem_iff.trans mem_remaining, ?_, fun l' hl' hfirst => ?_⟩
  · intro before i rest hsplit j hj
    obtain ⟨front, tail, horder, rfl, htail⟩ := List.map_eq_append_iff.mp hsplit
    obtain ⟨q, back, rfl, rfl, rfl⟩ := List.map_eq_cons_iff.mp htail
    have hq : q < S.accepted.length := (hpositions q).mp (by simp [horder])
    obtain ⟨d, hd, rfl⟩ := (parentLinks_deps hm h hq).2 j hj
    have hfollows := (parentLinks S).order_placed.follows
    rw [order_eq hm h] at horder
    exact List.mem_map_of_mem (hfollows front q back horder d hd)
  · -- Any other order of the types is one of the positions.
    let position (i : Nat) : Nat := (PlanSet.remaining m S).idxOf i
    have hback : ∀ i ∈ l', typeAt m S (position i) = i := by
      intro i hi
      have hmem : i ∈ PlanSet.remaining m S := hperm.mem_iff.mp (hl'.mem_iff.mp hi)
      have hlt := List.idxOf_lt_length_iff.mpr hmem
      simp [typeAt, position, hlt]
    have hpositions' : (l'.map position).Perm (List.range S.accepted.length) := by
      have hmap : (PlanSet.remaining m S).map position = List.range S.accepted.length := by
        refine List.ext_getElem (by simp [length_remaining hm h]) fun q hq hq' => ?_
        rw [List.getElem_map, List.getElem_range]
        exact hunique.idxOf_getElem q (by simpa using hq)
      rw [← hmap]
      exact (hl'.trans hperm).map _
    have hforth : (l'.map position).map (typeAt m S) = l' := by
      rw [List.map_map]
      exact (List.map_congr_left hback).trans (List.map_id l')
    have hfollows : (parentLinks S).Follows (l'.map position) := by
      intro before q rest hsplit d hd
      have hq : q < S.accepted.length :=
        List.mem_range.mp (hpositions'.mem_iff.mp (by simp [hsplit]))
      obtain ⟨hd', hparent⟩ := (parentLinks_deps hm h hq).1 d hd
      have hearlier : typeAt m S d ∈ before.map (typeAt m S) := by
        refine hfirst _ (typeAt m S q) (rest.map (typeAt m S)) ?_ _ hparent
        rw [← hforth, hsplit, List.map_append, List.map_cons]
      obtain ⟨e, he, hsame⟩ := List.mem_map.mp hearlier
      have he' : e < S.accepted.length :=
        List.mem_range.mp (hpositions'.mem_iff.mp (by simp [hsplit, he]))
      exact typeAt_inj hm h he' hd' hsame ▸ he
    rcases Graph.Deps.order_least hpositions' hfollows with heq | hlex
    · left
      rw [order_eq hm h, heq, hforth]
    · right
      rw [order_eq hm h, ← hforth]
      refine lex_map hlex fun a ha b hb hab => typeAt_lt hm h hab ?_
      exact List.mem_range.mp (hpositions'.mem_iff.mp hb)

end Remaining

/-- **Rejection and order of a resolved model.**  The types are parted into rejected ones, which are
those that lead to a type with errors, and those that have plans. -/
theorem derive_rejects {catalog : Catalog} {limit : Int} {raw : Model} (sized : Bool)
    (hresolve : (Resolve.run catalog limit raw).succeeded = true) :
    ∃ S, derive sized (Resolve.run catalog limit raw).model = .ok S ∧
      (∀ (i : Nat) (c : Class), (Resolve.run catalog limit raw).model.classes[i]? = some c →
        (c.name ∈ S.rejected ↔
          ∃ j, Relation.ReflTransGen (Resolve.run catalog limit raw).model.Uses i j ∧
            ∃ d, (Resolve.run catalog limit raw).model.classes[j]? = some d ∧
              (Plan.check sized (Resolve.run catalog limit raw).model j d).hasErrors = true)) ∧
      S.rejected.Sublist (Resolve.run catalog limit raw).model.classNames ∧ S.rejected.Nodup ∧
      (∀ type, (∃ d ∈ S.report.errors, d.type = type) ↔ type ∈ S.rejected) ∧
      S.report.failedTypes = (S.rejected.filter fun type => !type.isEmpty).mergeSort ∧
      ∃ l : List Nat,
        S.plans.map (·.name) = l.map (Resolve.run catalog limit raw).model.className ∧ l.Nodup ∧
        (∀ i, i ∈ l ↔ ∃ c, (Resolve.run catalog limit raw).model.classes[i]? = some c ∧
          c.name ∉ S.rejected) ∧
        (Resolve.run catalog limit raw).model.ParentsFirst l ∧
        ∀ l' : List Nat, l'.Perm l → (Resolve.run catalog limit raw).model.ParentsFirst l' →
          l = l' ∨ List.Lex (· < ·) l l' := by
  have hm := Resolve.run_bound hresolve
  obtain ⟨S, h⟩ := derive_total hm (Resolve.run_defaults hresolve) sized
  obtain ⟨hsub, hnodup⟩ := rejected_sublist hm h
  exact ⟨S, h, fun i c hc => mem_rejected_iff hm h hc, hsub, hnodup, exists_error_iff hm h,
    failedTypes_eq hm h, plans_order hm h⟩

namespace Orchard

/-- A leaf that is declared before its trunk, and fruit with any number of rotten spots, of which
none is possible. -/
def schema : Model where
  classes := [
    { name := "Leaf", parent := "Trunk" },
    { name := "Rot"
      attributes := [{ name := "spots", shape := some (.fixedList 0), type := "unsigned byte" }] },
    { name := "Fruit"
      attributes := [
        { name := "n", shape := some .primitive, type := "unsigned byte", isCount := true,
          counts := "rots" },
        { name := "rots", shape := some .variableList, type := "Rot" }] },
    { name := "Trunk" }]

end Orchard

/-- Fruit is rejected with what rots it, and the trunk comes before its leaf. -/
theorem derive_rejects_fruit : ∃ S,
    derive true (Resolve.run .standard 3 Orchard.schema).model = .ok S ∧
      S.rejected = ["Rot", "Fruit"] ∧ S.report.failedTypes = ["Fruit", "Rot"] ∧
      S.plans.map (·.name) = ["Trunk", "Leaf"] := by
  obtain ⟨hresolve, hcomputed⟩ : (Resolve.run .standard 3 Orchard.schema).succeeded = true ∧
      (derive true (Resolve.run .standard 3 Orchard.schema).model).toOption.map
        (fun S => (S.rejected, S.plans.map (·.name))) =
          some (["Rot", "Fruit"], ["Trunk", "Leaf"]) := by
    decide +kernel
  obtain ⟨S, h, -, -, -, -, hfailed, -⟩ := derive_rejects true hresolve
  rw [h] at hcomputed
  obtain ⟨hrejected, hplans⟩ := Prod.mk.inj (Option.some.inj hcomputed)
  have hsorted : ["Fruit", "Rot"].mergeSort = ["Fruit", "Rot"] :=
    List.mergeSort_of_pairwise (by decide)
  refine ⟨S, h, hrejected, ?_, hplans⟩
  rw [hfailed, hrejected]
  exact (mergeSort_eq_of_perm (.swap "Fruit" "Rot" [])).trans hsorted

/-- A type without a name, and with an attribute that cannot be laid out. -/
def unnamed : Model where
  classes := [
    { name := ""
      attributes := [{ name := "x", shape := some (.fixedList 0), type := "unsigned byte" }] }]

/-- Findings under the empty name are about no type, so a rejected type without a name is not among
the failed types. -/
theorem failedTypes_omits_unnamed : (Resolve.run .standard 3 unnamed).succeeded = true ∧
    ∃ S, derive true (Resolve.run .standard 3 unnamed).model = .ok S ∧
      S.rejected = [""] ∧ S.report.failedTypes = [] ∧
      S.report.failedTypes ≠ S.rejected.mergeSort := by
  obtain ⟨hresolve, hcomputed⟩ : (Resolve.run .standard 3 unnamed).succeeded = true ∧
      (derive true (Resolve.run .standard 3 unnamed).model).toOption.map
        (fun S => (S.rejected, S.report.failedTypes)) = some ([""], []) := by
    decide +kernel
  obtain ⟨S, h⟩ := derive_total (Resolve.run_bound hresolve) (Resolve.run_defaults hresolve) true
  rw [h] at hcomputed
  obtain ⟨hrejected, hfailed⟩ := Prod.mk.inj (Option.some.inj hcomputed)
  refine ⟨hresolve, S, h, hrejected, hfailed, ?_⟩
  rw [hrejected, hfailed, List.mergeSort_singleton]
  simp

end PlanSet

end WireSchema
