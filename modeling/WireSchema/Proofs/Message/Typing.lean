import Mathlib
import WireSchema.Proofs.Message.Paths
import WireSchema.Proofs.Message.Runtime

/-!
# Well-typed messages

A message is well-typed if it and everything below it has the form its plan promises: a value of
exactly the storage type in every stored field, nothing in other places, and a parent part exactly
if the plan has a parent.

Operations change messages in place, so typing is stated for a region of the store: `TypedOn` says
that every message of the region has its form and holds messages of the region only.  A region may
include numbers that are not taken yet; messages that are made later then belong to it.

## Main results

* `CellTyped.mono` — a message keeps its form while others are changed or made.
* `TypedOn.put`, `TypedOn.alloc` — what a write and a new message keep.
* `WellTyped.typedOn`, `TypedOn.wellTyped` — from one message to a region and back.
-/

namespace WireSchema.Message

open Plan (Field)

/-- The message `id` follows the plan of a type. -/
def OfType (rt : Runtime) (st : Store) (id : Id) (type : String) : Prop :=
  ∃ p, rt.planOf? st id = some p ∧ p.name = type

/-- An item has the storage type of an element: the exact kind, or the exact message type. -/
def ItemTyped (rt : Runtime) (st : Store) : Element → Item → Prop
  | .primitive t, .scalar s => s.kind = t.kind
  | .message type, .message id => OfType rt st id type
  | _, _ => False

/-- A value has the storage type of a field.  A fixed list has exactly its length, which is one
that the machine makes. -/
def ValueTyped (rt : Runtime) (st : Store) (f : Field) (v : Value) : Prop :=
  match f.shape, v with
  | .primitive, .single i | .reference, .single i => ItemTyped rt st f.elem i
  | .fixedList n, .list items =>
      (items.length : Int) = n ∧ rt.makes n = true ∧ ∀ i ∈ items, ItemTyped rt st f.elem i
  | .variableList, .list items => ∀ i ∈ items, ItemTyped rt st f.elem i
  | _, _ => False

/-- The parent part of a message: one that follows the parent's plan, or none. -/
def ParentTyped (st : Store) (p : Plan) : Option Id → Prop
  | some q => ∃ d, st.cell? q = some d ∧ p.parent? = some d.plan
  | none => p.parent? = none

/-- A message has the form that the plan `p` promises. -/
structure CellTyped (rt : Runtime) (st : Store) (p : Plan) (c : Cell) : Prop where
  plan : rt.plans[c.plan]? = some p
  parent : ParentTyped st p c.parent?
  stored : ∀ f ∈ p.fields, f.stored = true → ∃ v, c.value? f.name = some v ∧ ValueTyped rt st f v
  values : ∀ n v, (n, v) ∈ c.fields → ∃ f ∈ p.fields, f.name = n ∧ ValueTyped rt st f v

/-- Every message in the region `U` has its form and holds messages of `U` only. -/
def TypedOn (rt : Runtime) (st : Store) (U : Id → Prop) : Prop :=
  ∀ z c, U z → st.cell? z = some c → (∃ p, CellTyped rt st p c) ∧ ∀ w ∈ c.children, U w

/-- The message `x` and everything below it is there and has its form. -/
def WellTyped (rt : Runtime) (st : Store) (x : Id) : Prop :=
  ∀ z, Reach st x z → ∃ p c, st.cell? z = some c ∧ CellTyped rt st p c

/-- Messages were changed or made, but none left its plan or its parent part. -/
structure Grows (s s' : Store) : Prop where
  size_le : s.size ≤ s'.size
  cell : ∀ z c, s.cell? z = some c →
    ∃ c', s'.cell? z = some c' ∧ c'.plan = c.plan ∧ c'.parent? = c.parent?

namespace Grows

theorem refl (s : Store) : Grows s s := ⟨le_rfl, fun _ c hc => ⟨c, hc, rfl, rfl⟩⟩

theorem trans {s s' s'' : Store} (h : Grows s s') (h' : Grows s' s'') : Grows s s'' := by
  refine ⟨h.size_le.trans h'.size_le, fun z c hc => ?_⟩
  obtain ⟨c', hc', hplan, hparent⟩ := h.cell z c hc
  obtain ⟨c'', hc'', hplan', hparent'⟩ := h'.cell z c' hc'
  exact ⟨c'', hc'', hplan'.trans hplan, hparent'.trans hparent⟩

theorem put (s : Store) (id : Id) (field : String) (v : Value) :
    Grows s (s.put id field v) := by
  refine ⟨(Store.size_put s id field v).ge, fun z c hc => ?_⟩
  rw [Store.cell?_put]
  by_cases hz : z = id
  · rw [if_pos hz, hc]
    exact ⟨_, rfl, rfl, rfl⟩
  · rw [if_neg hz]
    exact ⟨c, hc, rfl, rfl⟩

theorem alloc (s : Store) (c : Cell) : Grows s (s.alloc c).2 := by
  refine ⟨by simp, fun z d hd => ⟨d, ?_, rfl, rfl⟩⟩
  rw [Store.cell?_alloc, if_neg (Nat.ne_of_lt (Store.lt_size hd)), hd]

end Grows

section Mono

variable {rt : Runtime} {s s' : Store} {p : Plan} {c : Cell}

theorem planOf?_eq {id : Id} : rt.planOf? s id = some p ↔
    ∃ c, s.cell? id = some c ∧ rt.plans[c.plan]? = some p := by
  simp [Runtime.planOf?, Option.bind_eq_some_iff]

theorem planOf?_of_grows (hgrow : Grows s s') {id : Id} (h : rt.planOf? s id = some p) :
    rt.planOf? s' id = some p := by
  obtain ⟨c, hc, hp⟩ := planOf?_eq.mp h
  obtain ⟨c', hc', hplan, -⟩ := hgrow.cell id c hc
  exact planOf?_eq.mpr ⟨c', hc', hplan ▸ hp⟩

theorem OfType.mono (hgrow : Grows s s') {id : Id} {type : String} (h : OfType rt s id type) :
    OfType rt s' id type := by
  obtain ⟨p, hp, hname⟩ := h
  exact ⟨p, planOf?_of_grows hgrow hp, hname⟩

theorem ItemTyped.mono (hgrow : Grows s s') {e : Element} {i : Item} (h : ItemTyped rt s e i) :
    ItemTyped rt s' e i := by
  cases e with
  | primitive t =>
      cases i with
      | scalar v => exact h
      | message id => exact h.elim
  | message type =>
      cases i with
      | scalar v => exact h.elim
      | message id => exact OfType.mono hgrow h

theorem ValueTyped.mono (hgrow : Grows s s') {f : Field} {v : Value} (h : ValueTyped rt s f v) :
    ValueTyped rt s' f v := by
  unfold ValueTyped at h ⊢
  cases hshape : f.shape with
  | primitive | reference =>
      cases v with
      | single i =>
          rw [hshape] at h
          exact ItemTyped.mono hgrow h
      | list items =>
          rw [hshape] at h
          exact h.elim
  | fixedList n =>
      cases v with
      | single i =>
          rw [hshape] at h
          exact h.elim
      | list items =>
          rw [hshape] at h
          exact ⟨h.1, h.2.1, fun i hi => (h.2.2 i hi).mono hgrow⟩
  | variableList =>
      cases v with
      | single i =>
          rw [hshape] at h
          exact h.elim
      | list items =>
          rw [hshape] at h
          exact fun i hi => ItemTyped.mono hgrow (h i hi)

theorem ParentTyped.mono (hgrow : Grows s s') {q? : Option Id} (h : ParentTyped s p q?) :
    ParentTyped s' p q? := by
  cases q? with
  | none => exact h
  | some q =>
      obtain ⟨d, hd, hplan⟩ := h
      obtain ⟨d', hd', hsame, -⟩ := hgrow.cell q d hd
      exact ⟨d', hd', hsame ▸ hplan⟩

/-- **A message keeps its form while others are changed or made.** -/
theorem CellTyped.mono (hgrow : Grows s s') (h : CellTyped rt s p c) : CellTyped rt s' p c := by
  refine ⟨h.plan, h.parent.mono hgrow, ?_, ?_⟩
  · intro f hf hstored
    obtain ⟨v, hv, htyped⟩ := h.stored f hf hstored
    exact ⟨v, hv, htyped.mono hgrow⟩
  · intro n v hv
    obtain ⟨f, hf, hname, htyped⟩ := h.values n v hv
    exact ⟨f, hf, hname, htyped.mono hgrow⟩

/-- A message has a parent part exactly if its plan has a parent. -/
theorem CellTyped.hasParent (hrt : rt.Sound) (h : CellTyped rt s p c) :
    p.hasParent = c.parent?.isSome := by
  have hparent := h.parent
  cases hq : c.parent? with
  | none =>
      rw [hq] at hparent
      cases hhas : p.hasParent with
      | false => rfl
      | true =>
          obtain ⟨j, -, hj, -⟩ := hrt.parent h.plan hhas
          rw [show p.parent? = none from hparent] at hj
          cases hj
  | some q =>
      rw [hq] at hparent
      obtain ⟨d, -, hlink⟩ := hparent
      cases hhas : p.hasParent with
      | true => rfl
      | false =>
          rw [hrt.orphan h.plan hhas] at hlink
          cases hlink

/-- A value under the name of a field has the storage type of the field. -/
theorem CellTyped.value (h : CellTyped rt s p c) (hp : p.Sound) {f : Field} {v : Value}
    (hf : f ∈ p.fields) (hv : c.value? f.name = some v) : ValueTyped rt s f v := by
  obtain ⟨g, hg, hname, htyped⟩ := h.values f.name v (mem_of_value? hv)
  exact hp.field_unique hg hf hname ▸ htyped

end Mono

/-! ## The value of a field of each shape -/

section Shapes

variable {rt : Runtime} {s : Store} {f : Field} {v : Value}

theorem ValueTyped.number {t : Primitive} (h : ValueTyped rt s f v) (hshape : f.shape = .primitive)
    (helem : f.elem = .primitive t) : ∃ n, v = .single (.scalar n) ∧ n.kind = t.kind := by
  unfold ValueTyped at h
  rw [hshape] at h
  cases v with
  | list items => exact h.elim
  | single i =>
      rw [helem] at h
      cases i with
      | scalar n => exact ⟨n, rfl, h⟩
      | message id => exact h.elim

theorem ValueTyped.message {type : String} (h : ValueTyped rt s f v)
    (hshape : f.shape = .reference) (helem : f.elem = .message type) :
    ∃ id, v = .single (.message id) ∧ OfType rt s id type := by
  unfold ValueTyped at h
  rw [hshape] at h
  cases v with
  | list items => exact h.elim
  | single i =>
      rw [helem] at h
      cases i with
      | scalar n => exact h.elim
      | message id => exact ⟨id, rfl, h⟩

theorem ValueTyped.fixedList {n : Int} (h : ValueTyped rt s f v) (hshape : f.shape = .fixedList n) :
    ∃ items, v = .list items ∧ (items.length : Int) = n ∧ rt.makes n = true ∧
      ∀ i ∈ items, ItemTyped rt s f.elem i := by
  unfold ValueTyped at h
  rw [hshape] at h
  cases v with
  | single i => exact h.elim
  | list items => exact ⟨items, rfl, h⟩

theorem ValueTyped.variableList (h : ValueTyped rt s f v) (hshape : f.shape = .variableList) :
    ∃ items, v = .list items ∧ ∀ i ∈ items, ItemTyped rt s f.elem i := by
  unfold ValueTyped at h
  rw [hshape] at h
  cases v with
  | single i => exact h.elim
  | list items => exact ⟨items, rfl, h⟩

/-- Items of a message type are messages. -/
theorem ItemTyped.exists_message {type : String} {i : Item} (h : ItemTyped rt s (.message type) i) :
    ∃ id, i = .message id ∧ OfType rt s id type := by
  cases i with
  | scalar n => exact h.elim
  | message id => exact ⟨id, rfl, h⟩

/-- Items of a primitive type are numbers. -/
theorem ItemTyped.exists_scalar {t : Primitive} {i : Item} (h : ItemTyped rt s (.primitive t) i) :
    ∃ n, i = .scalar n ∧ n.kind = t.kind := by
  cases i with
  | scalar n => exact ⟨n, rfl, h⟩
  | message id => exact h.elim

end Shapes

/-! ## Regions -/

section Regions

variable {rt : Runtime} {s : Store} {U : Id → Prop} {z : Id} {p : Plan} {c : Cell}

theorem CellTyped.put (hnodup : (p.fields.map (·.name)).Nodup) (h : CellTyped rt s p c)
    {f : Field} {v : Value} (hf : f ∈ p.fields) (hv : ValueTyped rt s f v) :
    CellTyped rt s p (c.put f.name v) := by
  refine ⟨h.plan, h.parent, ?_, ?_⟩
  · intro g hg hstored
    by_cases hname : g.name = f.name
    · obtain rfl := List.inj_on_of_nodup_map hnodup hg hf hname
      exact ⟨v, Cell.value?_put_self c _ v, hv⟩
    · rw [Cell.value?_put_ne c hname]
      exact h.stored g hg hstored
  · intro n w hmem
    rcases mem_putField hmem with heq | hmem
    · obtain ⟨rfl, rfl⟩ := Prod.mk.inj heq
      exact ⟨f, hf, rfl, hv⟩
    · exact h.values n w hmem

theorem mem_children_put {field : String} {v : Value} {w : Id}
    (h : w ∈ (c.put field v).children) : w ∈ c.children ∨ w ∈ v.ids := by
  rcases List.mem_append.mp h with hparent | hfields
  · exact .inl (List.mem_append_left _ hparent)
  · obtain ⟨⟨n, u⟩, hmem, hid⟩ := List.mem_flatMap.mp hfields
    rcases mem_putField hmem with heq | hmem
    · obtain ⟨-, rfl⟩ := Prod.mk.inj heq
      exact .inr hid
    · exact .inl (List.mem_append_right _ (List.mem_flatMap.mpr ⟨(n, u), hmem, hid⟩))

/-- A write of a well-typed value keeps a region typed. -/
theorem TypedOn.put (h : TypedOn rt s U) (hz : U z) (hc : s.cell? z = some c)
    (hcell : CellTyped rt s p c) (hnodup : (p.fields.map (·.name)).Nodup) {f : Field} {v : Value}
    (hf : f ∈ p.fields) (hv : ValueTyped rt s f v) (hids : ∀ id ∈ v.ids, U id) :
    TypedOn rt (s.put z f.name v) U := by
  have hgrow := Grows.put s z f.name v
  intro y d hy hd
  rw [Store.cell?_put] at hd
  by_cases hyz : y = z
  · rw [if_pos hyz, hyz, hc] at hd
    obtain rfl := Option.some.inj hd
    refine ⟨⟨p, (hcell.put hnodup hf hv).mono hgrow⟩, fun w hw => ?_⟩
    rcases mem_children_put hw with hold | hnew
    · exact (h z c hz hc).2 w hold
    · exact hids w hnew
  · rw [if_neg hyz] at hd
    obtain ⟨⟨q, hq⟩, hchildren⟩ := h y d hy hd
    exact ⟨⟨q, hq.mono hgrow⟩, hchildren⟩

/-- A new well-typed message keeps a region typed. -/
theorem TypedOn.alloc (h : TypedOn rt s U) (hcell : CellTyped rt s p c)
    (hids : ∀ id ∈ c.children, U id) : TypedOn rt (s.alloc c).2 U := by
  have hgrow := Grows.alloc s c
  intro y d hy hd
  rw [Store.cell?_alloc] at hd
  by_cases hnew : y = s.size
  · rw [if_pos hnew] at hd
    obtain rfl := Option.some.inj hd
    exact ⟨⟨p, hcell.mono hgrow⟩, hids⟩
  · rw [if_neg hnew] at hd
    obtain ⟨⟨q, hq⟩, hchildren⟩ := h y d hy hd
    exact ⟨⟨q, hq.mono hgrow⟩, hchildren⟩

/-- The message of an item that has its storage type is there. -/
theorem ItemTyped.cell {e : Element} {i : Item} {id : Id} (h : ItemTyped rt s e i)
    (hid : id ∈ i.ids) : ∃ d, s.cell? id = some d := by
  cases i with
  | scalar n => cases hid
  | message id' =>
      obtain rfl := List.mem_singleton.mp hid
      cases e with
      | primitive t => exact h.elim
      | message type =>
          obtain ⟨p, hp, -⟩ := h
          obtain ⟨d, hd, -⟩ := planOf?_eq.mp hp
          exact ⟨d, hd⟩

/-- A message in a value is one of its items. -/
theorem ValueTyped.item {f : Field} {v : Value} {id : Id} (h : ValueTyped rt s f v)
    (hid : id ∈ v.ids) : ItemTyped rt s f.elem (.message id) := by
  have hitem : ∀ i : Item, id ∈ i.ids → ItemTyped rt s f.elem i →
      ItemTyped rt s f.elem (.message id) := by
    intro i hi htyped
    cases i with
    | scalar n => cases hi
    | message id' => exact List.mem_singleton.mp hi ▸ htyped
  unfold ValueTyped at h
  cases v with
  | single i =>
      cases hshape : f.shape with
      | primitive | reference =>
          rw [hshape] at h
          exact hitem i hid h
      | fixedList n | variableList =>
          rw [hshape] at h
          exact h.elim
  | list items =>
      obtain ⟨i, hi, hid⟩ := List.mem_flatMap.mp hid
      cases hshape : f.shape with
      | primitive | reference =>
          rw [hshape] at h
          exact h.elim
      | fixedList n =>
          rw [hshape] at h
          exact hitem i hid (h.2.2 i hi)
      | variableList =>
          rw [hshape] at h
          exact hitem i hid (h i hi)

theorem ValueTyped.cell {f : Field} {v : Value} {id : Id} (h : ValueTyped rt s f v)
    (hid : id ∈ v.ids) : ∃ d, s.cell? id = some d :=
  (h.item hid).cell (List.mem_singleton_self id)

/-- Everything that a message of its form holds is there. -/
theorem CellTyped.child (h : CellTyped rt s p c) {w : Id} (hw : w ∈ c.children) :
    ∃ d, s.cell? w = some d := by
  rcases List.mem_append.mp hw with hparent | hfields
  · have hq : c.parent? = some w := by simpa using hparent
    have htyped := h.parent
    rw [hq] at htyped
    obtain ⟨d, hd, -⟩ := htyped
    exact ⟨d, hd⟩
  · obtain ⟨⟨n, v⟩, hmem, hid⟩ := List.mem_flatMap.mp hfields
    obtain ⟨f, -, -, htyped⟩ := h.values n v hmem
    exact htyped.cell hid

/-- A message of a typed region is well-typed. -/
theorem TypedOn.wellTyped (h : TypedOn rt s U) (hz : U z) (hc : s.cell? z = some c) :
    WellTyped rt s z := by
  have hpath : ∀ (path : List Nat) (x y : Id) (d : Cell), U x → s.cell? x = some d →
      s.follow x path = some y → ∃ p c, s.cell? y = some c ∧ CellTyped rt s p c := by
    intro path
    induction path with
    | nil =>
        intro x y d hx hd hy
        obtain rfl := Option.some.inj hy
        obtain ⟨⟨p, hp⟩, -⟩ := h x d hx hd
        exact ⟨p, d, hd, hp⟩
    | cons i path ih =>
        intro x y d hx hd hy
        rw [follow_cons hd, Option.bind_eq_some_iff] at hy
        obtain ⟨w, hw, hrest⟩ := hy
        obtain ⟨⟨p, hp⟩, hchildren⟩ := h x d hx hd
        obtain ⟨e, he⟩ := hp.child (List.mem_of_getElem? hw)
        exact ih w y e (hchildren w (List.mem_of_getElem? hw)) he hrest
  rintro y ⟨path, hy⟩
  exact hpath path z y c hz hc hy

theorem WellTyped.complete (h : WellTyped rt s z) : Complete s z := by
  intro w hw
  obtain ⟨-, c, hc, -⟩ := h w hw
  exact Store.lt_size hc

/-- A well-typed message with all numbers that are not taken is a typed region. -/
theorem WellTyped.typedOn (h : WellTyped rt s z) :
    TypedOn rt s fun w => Reach s z w ∨ s.size ≤ w := by
  intro y c hy hc
  rcases hy with hreach | hfree
  · obtain ⟨p, d, hd, hcell⟩ := h y hreach
    rw [hc] at hd
    obtain rfl := Option.some.inj hd
    exact ⟨⟨p, hcell⟩, fun w hw => .inl (hreach.trans (Reach.child hc hw))⟩
  · exact absurd (Store.lt_size hc) (Nat.not_lt.mpr hfree)

theorem WellTyped.child (h : WellTyped rt s z) (hc : s.cell? z = some c) {w : Id}
    (hw : w ∈ c.children) : WellTyped rt s w :=
  fun y hy => h y (Reach.head hc hw hy)

theorem WellTyped.cell (h : WellTyped rt s z) :
    ∃ p c, s.cell? z = some c ∧ CellTyped rt s p c :=
  h z (Reach.refl s z)

/-- Any store is typed where nothing is yet. -/
theorem typedOn_free (rt : Runtime) (s : Store) : TypedOn rt s fun w => s.size ≤ w :=
  fun _ _ hfree hc => absurd (Store.lt_size hc) (Nat.not_lt.mpr hfree)

end Regions

end WireSchema.Message
