import Mathlib
import WireSchema.Proofs.Message.Construct

/-!
# Messages and message types

A message follows a plan, and the plan came from a message type of the model.  What a message holds
then follows the types that its own type names: the parent part the parent's, the messages in a
field the type of the attribute.

## Main results

* `WellTyped.exists_class`, `OfClass.of_name` — the message type of a message.
* `OfClass.parent`, `OfClass.item` — the types of what a message holds.
* `OfClass.child` — every message that a message holds is of a type that its own type uses.
-/

namespace WireSchema

namespace Message

open Plan (Field FieldSpec)
open PlanSet (Member)
open Resolve (Bound)

/-- The message `x`, which is the cell `c`, is of the message type `cls` at `i`, whose plan is
`p`. -/
structure OfClass (sized : Bool) (m : Model) (S : PlanSet) (st : Store)
    (x : Id) (c : Cell) (i : Nat)
    (cls : Class) (p : Plan) : Prop where
  cell : st.cell? x = some c
  typed : CellTyped (.ofSet S) st p c
  member : Member sized m S c.plan i cls p

section OfClass

variable {sized : Bool} {m : Model} {S : PlanSet} {st : Store} {x : Id} {c : Cell} {i : Nat}
  {cls : Class} {p : Plan}

theorem OfClass.plan (h : OfClass sized m S st x c i cls p) :
    (Runtime.ofSet S).plans[c.plan]? = some p :=
  h.typed.plan

/-- A well-typed message is of some message type. -/
theorem WellTyped.exists_class (hderive : PlanSet.derive sized m = .ok S)
    (hx : WellTyped (.ofSet S) st x) : ∃ c i cls p, OfClass sized m S st x c i cls p := by
  obtain ⟨p, c, hc, hcell⟩ := hx.cell
  obtain ⟨i, cls, hmember⟩ := PlanSet.exists_member hderive
    ((Runtime.getElem?_plans_ofSet S c.plan).symm.trans hcell.plan)
  exact ⟨c, i, cls, p, hc, hcell, hmember⟩

/-- A message that follows the plan of a type. -/
theorem OfClass.of_plan (hx : WellTyped (.ofSet S) st x) (hc : st.cell? x = some c)
    (h : Member sized m S c.plan i cls p) : OfClass sized m S st x c i cls p := by
  obtain ⟨p', c', hc', hcell⟩ := hx.cell
  rw [hc] at hc'
  obtain rfl := Option.some.inj hc'
  have hplan := hcell.plan
  rw [Runtime.getElem?_plans_ofSet, h.plan] at hplan
  obtain rfl := Option.some.inj hplan
  exact ⟨hc, hcell, h⟩

/-- A message of a type by its name is of the message type with that name. -/
theorem OfClass.of_name (hm : Bound m) (hderive : PlanSet.derive sized m = .ok S)
    (hx : WellTyped (.ofSet S) st x) (hcls : m.classes[i]? = some cls)
    (htype : OfType (.ofSet S) st x cls.name) : ∃ c p, OfClass sized m S st x c i cls p := by
  obtain ⟨c, i', cls', p, h⟩ := hx.exists_class hderive
  obtain ⟨q, hq, hname⟩ := htype
  obtain ⟨c', hc', hq⟩ := planOf?_eq.mp hq
  rw [h.cell] at hc'
  obtain rfl := Option.some.inj hc'
  rw [h.plan] at hq
  obtain rfl := Option.some.inj hq
  have hsame : cls'.name = cls.name := by
    rw [← (Runtime.derived_of_member hm h.member).1.name, hname]
  have hnames : m.classNames[i']? = m.classNames[i]? := by
    rw [Model.classNames, List.getElem?_map, List.getElem?_map, h.member.cls, hcls, Option.map_some,
      Option.map_some, hsame]
  have hlt : i' < m.classNames.length := by
    rw [Model.classNames, List.length_map]
    exact (List.getElem?_eq_some_iff.mp h.member.cls).1
  obtain rfl := (List.getElem?_inj hlt hm.classes_nodup).mp hnames
  obtain rfl := Option.some.inj (h.member.cls.symm.trans hcls)
  exact ⟨c, p, h⟩

/-- The parent part of a message is of the parent's type. -/
theorem OfClass.parent (hm : Bound m) (hderive : PlanSet.derive sized m = .ok S)
    (hx : WellTyped (.ofSet S) st x) (h : OfClass sized m S st x c i cls p) {q : Id}
    (hq : c.parent? = some q) :
    ∃ j d cls' p', cls.parentClass? = some j ∧ p.hasParent = true ∧
      OfClass sized m S st q d j cls' p' := by
  have htyped := h.typed.parent
  rw [hq] at htyped
  obtain ⟨d, hd, hlink⟩ := htyped
  have hhas : p.hasParent = true := by
    rw [h.typed.hasParent (Runtime.ofSet_sound hm hderive), hq]
    rfl
  obtain ⟨j, cls', q', p', hj, hmember, hlink', -⟩ := Runtime.parent_member hm hderive h.member
    (Runtime.hasParent_of_member hm h.member ▸ hhas)
  rw [hlink] at hlink'
  obtain rfl := Option.some.inj hlink'
  have hchild := hx.child h.cell (Cell.parent_mem_children hq)
  exact ⟨j, d, cls', p', hj, hhas, .of_plan hchild hd hmember⟩

/-- A message in a field is of the attribute's type. -/
theorem OfClass.item (hm : Bound m) (hderive : PlanSet.derive sized m = .ok S)
    (hx : WellTyped (.ofSet S) st x) (h : OfClass sized m S st x c i cls p) {a : Attribute}
    {f : Field} {id : Id} (ha : a ∈ cls.attributes) (hspec : FieldSpec m a f)
    (htyped : ItemTyped (.ofSet S) st f.elem (.message id)) (hid : id ∈ c.children) :
    ∃ j d cls' p', a.class? = some j ∧ OfClass sized m S st id d j cls' p' := by
  cases helem : f.elem with
  | primitive t =>
      rw [helem] at htyped
      exact htyped.elim
  | message type =>
      rw [helem] at htyped
      obtain ⟨j, cls', q', p', hj, hmember, hpos, -⟩ :=
        Runtime.elem_member hm hderive h.member ha hspec helem
      obtain ⟨d, hd, rfl⟩ := OfType.plan_eq (Runtime.ofSet_sound hm hderive) htyped hpos
      exact ⟨j, d, cls', p', hj, .of_plan (hx.child h.cell hid) hd hmember⟩

/-- **What a message holds is of a type that its own type uses.** -/
theorem OfClass.child (hm : Bound m) (hderive : PlanSet.derive sized m = .ok S)
    (hx : WellTyped (.ofSet S) st x) (h : OfClass sized m S st x c i cls p) {id : Id}
    (hid : id ∈ c.children) : ∃ j d cls' p', m.Uses i j ∧
      OfClass sized m S st id d j cls' p' := by
  rcases List.mem_append.mp hid with hparent | hfields
  · have hq : c.parent? = some id := by simpa using hparent
    obtain ⟨j, d, cls', p', hj, -, hof⟩ := h.parent hm hderive hx hq
    exact ⟨j, d, cls', p', ⟨cls, h.member.cls, .inl hj⟩, hof⟩
  · obtain ⟨⟨n, v⟩, hmem, hidv⟩ := List.mem_flatMap.mp hfields
    obtain ⟨f, hf, -, htyped⟩ := h.typed.values n v hmem
    obtain ⟨l, hl⟩ := List.mem_iff_getElem?.mp hf
    obtain ⟨a, ha, hspec⟩ := (Runtime.derived_of_member hm h.member).1.exists_attribute hl
    have hamem := List.mem_of_getElem? ha
    obtain ⟨j, d, cls', p', hj, hof⟩ :=
      h.item hm hderive hx hamem hspec (htyped.item hidv) hid
    exact ⟨j, d, cls', p', ⟨cls, h.member.cls, .inr ⟨a, hamem, hj⟩⟩, hof⟩

end OfClass

end Message

end WireSchema
