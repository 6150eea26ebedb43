import Mathlib
import WireSchema.Proofs.Codec.Fresh

/-!
# The layout of a message type

`layout` writes a message straight from the model: the parent's layout first, then the serialized
attributes in the order of their declaration.  No plan takes part in it.  Encoding by plans writes
the same bytes.

## Main results

* `layoutDepth_of_shows` — what a message shows is its layout.
* `encode_layout` — encoding adds the layout, and the layout of a parent part comes first in it.
-/

namespace WireSchema.Message

open Plan (Field FieldSpec DecodeStep)
open Resolve (Bound)

/-! ## The layout -/

/-- An element of an attribute: a number at the width of its type, most significant byte first, or
a message as `inner` lays it out. -/
def itemLayout (inner : Nat → Id → Option (List UInt8)) (a : Attribute) (i : Item) :
    Option (List UInt8) :=
  match a.primitive?, a.class?, i with
  | some t, _, .scalar s => some (Wire.bigEndian t.wireBytes s.pattern)
  | none, some j, .message id => inner j id
  | _, _, _ => none

/-- An attribute of a message: a count as the length of its list, anything else as what the message
holds in it. -/
def attributeLayout (m : Model) (inner : Nat → Id → Option (List UInt8)) (c : Cell)
    (a : Attribute) : Option (List UInt8) :=
  if a.isCount then do
    let t ← a.primitive?
    let list ← a.countedList?.bind m.attribute?
    return Wire.bigEndian t.wireBytes (c.list list.name).length
  else
    match a.shape, c.value? a.name with
    | some .primitive, some (.single i) | some .reference, some (.single i) => itemLayout inner a i
    | some (.fixedList _), some (.list items) | some .variableList, some (.list items) =>
        (items.mapM (itemLayout inner a)).map List.flatten
    | _, _ => none

/-- The layout of a message of the type at `i` that nests at most `depth` deep. -/
def layoutDepth (m : Model) (st : Store) : (depth : Nat) → (i : Nat) → Id → Option (List UInt8)
  | 0, _, _ => none
  | depth + 1, i, x => do
      let cls ← m.classes[i]?
      let c ← st.cell? x
      let parent ← match cls.parentClass? with
        | some j => c.parent?.bind (layoutDepth m st depth j)
        | none => some []
      let own ← (cls.attributes.filter (·.serialize)).mapM
        (attributeLayout m (layoutDepth m st depth) c)
      return parent ++ own.flatten

/-- The layout of a message of the type at `i`. -/
def layout (m : Model) (st : Store) (i : Nat) (x : Id) : Option (List UInt8) :=
  layoutDepth m st (st.size + 1) i x

/-! ## Encoding writes the layout -/

theorem Content.allBytes_eq (parts : List Content) :
    Content.allBytes parts = (parts.map Content.bytes).flatten := by
  induction parts with
  | nil => rfl
  | cons ct parts ih => rw [allBytes_cons, List.map_cons, List.flatten_cons, ih]

section Layout

variable {sized : Bool} {m : Model} {S : PlanSet} {st : Store} {x : Id} {c : Cell} {i : Nat}
  {cls : Class} {p : Plan} {inner : Nat → Id → Option (List UInt8)} {shown : Id → Content → Prop}

/-- Whatever the message shows of those it holds is laid out by `inner`. -/
def InnerLaidOut (sized : Bool) (m : Model) (S : PlanSet) (st : Store) (c : Cell)
    (inner : Nat → Id → Option (List UInt8)) (shown : Id → Content → Prop) : Prop :=
  ∀ {id : Id} {d : Cell} {j : Nat} {cls : Class} {p : Plan} {ct : Content}, id ∈ c.children →
    OfClass sized m S st id d j cls p → shown id ct → inner j id = some ct.bytes

theorem itemLayout_of_shows (hm : Bound m) (hderive : PlanSet.derive sized m = .ok S)
    (hx : WellTyped (.ofSet S) st x) (hof : OfClass sized m S st x c i cls p)
    (hinner : InnerLaidOut sized m S st c inner shown) {a : Attribute} {f : Field}
    (ha : a ∈ cls.attributes) (hspec : FieldSpec m a f) {v : Item} {ct : Content}
    (htyped : ItemTyped (.ofSet S) st f.elem v) (hheld : ∀ id ∈ v.ids, id ∈ c.children)
    (h : ItemShows shown f.elem v ct) : itemLayout inner a v = some ct.bytes := by
  cases v with
  | scalar s =>
      cases hprim : a.primitive? with
      | none =>
          rw [hspec.elem, Plan.elementOf, hprim] at h
          cases hclass : a.class? with
          | none =>
              rw [hclass] at h
              exact h.elim
          | some j =>
              rw [hclass] at h
              exact h.elim
      | some t =>
          rw [hspec.elem, Plan.elementOf, hprim] at h
          obtain ⟨rfl, hkind⟩ := h
          simp [itemLayout, hprim, Wire.scalarBytes, Primitive.wireBytes, hkind]
  | message id =>
      have hid := hheld id (List.mem_singleton_self id)
      obtain ⟨j, d, cls', p', hj, hchild⟩ := hof.item hm hderive hx ha hspec htyped hid
      cases hprim : a.primitive? with
      | some t =>
          rw [hspec.elem, Plan.elementOf, hprim] at h
          exact h.elim
      | none =>
          rw [hspec.elem, Plan.elementOf, hprim, hj] at h
          simp only [itemLayout, hprim, hj]
          exact hinner hid hchild h

/-- A list is laid out item by item. -/
theorem mapM_itemLayout {e : Element} {a : Attribute} {items : List Item} {parts : List Content}
    (hitem : ∀ v ct, v ∈ items → ItemShows shown e v ct → itemLayout inner a v = some ct.bytes)
    (h : List.Forall₂ (ItemShows shown e) items parts) :
    items.mapM (itemLayout inner a) = some (parts.map Content.bytes) := by
  induction h with
  | nil => rfl
  | cons hhead _ ih =>
      rw [List.mapM_cons, hitem _ _ List.mem_cons_self hhead,
        ih fun v ct hv => hitem v ct (List.mem_cons_of_mem _ hv)]
      rfl

/-- **What a message shows of a field is the layout of the attribute.** -/
theorem attributeLayout_of_shows (hm : Bound m) (hderive : PlanSet.derive sized m = .ok S)
    (hx : WellTyped (.ofSet S) st x) (hof : OfClass sized m S st x c i cls p)
    (hinner : InnerLaidOut sized m S st c inner shown) {a : Attribute} {f : Field}
    (ha : a ∈ cls.attributes) (hf : f ∈ p.fields) (hspec : FieldSpec m a f) {discard : Bool}
    {ct : Content} (h : StepShows true shown c (f.step discard) ct) :
    attributeLayout m inner c a = some ct.bytes := by
  have hd := (Runtime.derived_of_member hm hof.member).1
  have hp := hd.sound hm hof.member.cls hof.member.checked
  -- The lists and single values of a stored field go through its items.
  have hitem : ∀ {v : Value}, c.value? f.name = some v → ∀ {i : Item} {ct : Content},
      i.ids ⊆ v.ids → ItemTyped (.ofSet S) st f.elem i → ItemShows shown f.elem i ct →
      itemLayout inner a i = some ct.bytes := by
    intro v hv i ct hids hityped hshow
    refine itemLayout_of_shows hm hderive hx hof hinner ha hspec hityped ?_ hshow
    exact fun id hid => Cell.ids_subset_children hv (hids hid)
  have hlist : ∀ {items : List Item}, c.value? f.name = some (.list items) →
      (∀ i ∈ items, ItemTyped (.ofSet S) st f.elem i) → ∀ {parts : List Content},
      List.Forall₂ (ItemShows shown f.elem) (c.list f.name) parts →
      (items.mapM (itemLayout inner a)).map List.flatten = some (Content.group parts).bytes := by
    intro items hv hityped parts hshow
    rw [list_of_value? hv] at hshow
    rw [mapM_itemLayout (fun i ct hi => hitem hv (fun id hid => List.mem_flatMap.mpr ⟨i, hi, hid⟩)
      (hityped i hi)) hshow, Option.map_some, Content.bytes_group, Content.allBytes_eq]
  have hcount : a.isCount = !f.stored := by simp [hspec.stored]
  cases hp.field f hf with
  | count t l hshape helem hunstored hint =>
      rw [Field.step_count hshape helem hunstored] at h
      obtain ⟨s, rfl, hshow⟩ := h
      obtain ⟨rfl, hfits⟩ := hshow (.inl rfl)
      rw [hunstored] at hcount
      obtain ⟨k, hk⟩ := List.mem_iff_getElem?.mp ha
      obtain ⟨n, b, t', hlink, hb, -, -, ht, -⟩ :=
        Plan.exists_counted hm hof.member.cls hof.member.checked hk hcount
      obtain rfl : t = t' := by
        rw [hspec.elem, Plan.elementOf, ht] at helem
        exact (Element.primitive.inj helem).symm
      have hname := hspec.countOf_eq hof.member.cls hcount hlink hb
      rw [hname] at hfits
      simp [attributeLayout, hcount, ht, hlink, Plan.attribute?_own hof.member.cls, hb, hname,
        Wire.scalarBytes_ofWord hint hfits, Primitive.wireBytes]
  | number t hshape helem hstored =>
      rw [Field.step_number hshape helem hstored] at h
      obtain ⟨i, hi, hshow⟩ := h
      obtain ⟨v, hv, htyped⟩ := hof.typed.stored f hf hstored
      obtain ⟨s, rfl, hkind⟩ := htyped.number hshape helem
      cases hv.symm.trans hi
      rw [helem] at hitem
      rw [attributeLayout, hcount, hstored, if_neg (by simp), hspec.shape, hshape, ← hspec.name, hv]
      exact hitem hv (List.Subset.refl _) hkind hshow
  | reference type hshape helem hstored =>
      simp only [Field.step_reference hshape, helem] at h
      obtain ⟨id, hid, hshow⟩ := h
      obtain ⟨v, hv, htyped⟩ := hof.typed.stored f hf hstored
      obtain ⟨id', rfl, htype⟩ := htyped.message hshape helem
      cases hv.symm.trans hid
      rw [helem] at hitem
      rw [attributeLayout, hcount, hstored, if_neg (by simp), hspec.shape, hshape, ← hspec.name, hv]
      exact hitem hv (List.Subset.refl _) htype hshow
  | fixedList n hshape _ _ hstored =>
      rw [Field.step_fixedList hshape] at h
      obtain ⟨parts, rfl, hshow⟩ := h
      obtain ⟨v, hv, htyped⟩ := hof.typed.stored f hf hstored
      obtain ⟨items, rfl, -, -, hitems⟩ := htyped.fixedList hshape
      rw [attributeLayout, hcount, hstored, if_neg (by simp), hspec.shape, hshape, ← hspec.name, hv]
      exact hlist hv hitems hshow
  | variableList k hshape hstored =>
      rw [Field.step_variableList hshape] at h
      obtain ⟨parts, rfl, hshow⟩ := h
      obtain ⟨v, hv, htyped⟩ := hof.typed.stored f hf hstored
      obtain ⟨items, rfl, hitems⟩ := htyped.variableList hshape
      rw [attributeLayout, hcount, hstored, if_neg (by simp), hspec.shape, hshape, ← hspec.name, hv]
      exact hlist hv hitems hshow

/-- The serialized attributes of a type are laid out field by field, in order. -/
theorem mapM_attributeLayout {attrs : List Attribute} {fields : List Field} {discard : Field → Bool}
    {parts : List Content} (hspecs : List.Forall₂ (FieldSpec m) attrs fields)
    (hattr : ∀ a f ct, a ∈ attrs → f ∈ fields → FieldSpec m a f →
      StepShows true shown c (f.step (discard f)) ct →
      attributeLayout m inner c a = some ct.bytes)
    (h : List.Forall₂ (StepShows true shown c)
      ((fields.filter (·.serialized)).map fun f => f.step (discard f)) parts) :
    (attrs.filter (·.serialize)).mapM (attributeLayout m inner c) =
      some (parts.map Content.bytes) := by
  induction hspecs generalizing parts with
  | nil =>
      cases h
      rfl
  | @cons a f attrs fields hspec _ ih =>
      have hrest : ∀ b g ct, b ∈ attrs → g ∈ fields → FieldSpec m b g →
          StepShows true shown c (g.step (discard g)) ct →
          attributeLayout m inner c b = some ct.bytes := fun b g ct hb hg =>
        hattr b g ct (List.mem_cons_of_mem _ hb) (List.mem_cons_of_mem _ hg)
      cases hser : a.serialize with
      | false =>
          rw [List.filter_cons_of_neg (by simpa using hspec.serialized.trans hser)] at h
          rw [List.filter_cons_of_neg (by simp [hser])]
          exact ih hrest h
      | true =>
          rw [List.filter_cons_of_pos (by simpa using hspec.serialized.trans hser),
            List.map_cons] at h
          cases h with
          | cons hhead htail =>
              rw [List.filter_cons_of_pos hser, List.mapM_cons,
                hattr a f _ List.mem_cons_self List.mem_cons_self hspec hhead, ih hrest htail]
              rfl

/-- **What a message shows is its layout.** -/
theorem layoutDepth_of_shows (hm : Bound m) (hderive : PlanSet.derive sized m = .ok S) (n : Nat) :
    ∀ {x : Id} {c : Cell} {i : Nat} {cls : Class} {p : Plan} {ct : Content},
      WellTyped (.ofSet S) st x → OfClass sized m S st x c i cls p →
      Shows true (.ofSet S) st n x ct → layoutDepth m st n i x = some ct.bytes := by
  induction n with
  | zero =>
      intro x c i cls p ct _ _ h
      exact h.elim
  | succ n ih =>
      intro x c i cls p ct hx hof h
      have hd := (Runtime.derived_of_member hm hof.member).1
      have hp := hd.sound hm hof.member.cls hof.member.checked
      obtain ⟨k, parts, hk, rfl, hsteps⟩ := h.steps hof.cell hof.plan
      obtain rfl := Nat.succ.inj hk
      have hinner : InnerLaidOut sized m S st c (layoutDepth m st n)
          (Shows true (.ofSet S) st n) := by
        intro id d j cls' p' ct hid hchild hshow
        exact ih (hx.child hof.cell hid) hchild hshow
      have hattrs : ∀ {parts : List Content}, List.Forall₂ (StepShows true _ c)
          ((p.fields.filter (·.serialized)).map fun f => f.step (p.discardsCount f)) parts →
          (cls.attributes.filter (·.serialize)).mapM (attributeLayout m (layoutDepth m st n) c) =
            some (parts.map Content.bytes) := fun hown =>
        mapM_attributeLayout hd.fields (fun a f ct ha hf hspec hshow =>
          attributeLayout_of_shows hm hderive hx hof hinner ha hf hspec hshow) hown
      have hhas := Runtime.hasParent_of_member hm hof.member
      rw [hp.decode, Plan.parentSteps, hhas] at hsteps
      cases hparent : cls.hasParent with
      | false =>
          rw [hparent, if_neg (by simp), List.nil_append] at hsteps
          have hnone := hm.orphan cls (List.mem_of_getElem? hof.member.cls) hparent
          simp [layoutDepth, hof.member.cls, hof.cell, hnone, hattrs hsteps, Content.allBytes_eq]
      | true =>
          rw [hparent, if_pos rfl, List.singleton_append] at hsteps
          obtain ⟨ct, rest, ⟨q, hq, hshow⟩, hown, rfl⟩ := List.forall₂_cons_left_iff.mp hsteps
          obtain ⟨j, d, cls', p', hj, -, hpart⟩ := hof.parent hm hderive hx hq
          have hlayout := hinner (Cell.parent_mem_children hq) hpart hshow
          simp [layoutDepth, hof.member.cls, hof.cell, hj, hq, hlayout, hattrs hown,
            Content.allBytes_eq]

end Layout

/-! ## Parent parts come first -/

section Parts

variable {rt : Runtime} {st : Store}

/-- What a message shows starts with what its parent part shows. -/
theorem Shows.parent_first (hrt : rt.Sound) {strict : Bool} {n : Nat} {x q : Id} {ct : Content}
    {c : Cell} (hx : WellTyped rt st x) (hc : st.cell? x = some c) (hq : c.parent? = some q)
    (h : Shows strict rt st n x ct) :
    ∃ k ct', Shows strict rt st k q ct' ∧ ct'.bytes <+: ct.bytes := by
  obtain ⟨p, d, hd, hcell⟩ := hx.cell
  obtain rfl := Option.some.inj (hc.symm.trans hd)
  have hhas : p.hasParent = true := by
    rw [hcell.hasParent hrt, hq]
    rfl
  obtain ⟨k, parts, -, rfl, hsteps⟩ := h.steps hc hcell.plan
  rw [(hrt.plan hcell.plan).decode, Plan.parentSteps, hhas, if_pos rfl, List.singleton_append]
    at hsteps
  obtain ⟨ct', rest, ⟨q', hq', hshow⟩, -, rfl⟩ := List.forall₂_cons_left_iff.mp hsteps
  obtain rfl := Option.some.inj (hq.symm.trans hq')
  refine ⟨k, ct', hshow, ?_⟩
  rw [Content.bytes_group, Content.allBytes_cons]
  exact List.prefix_append _ _

/-- **The bytes of every parent part come first.** -/
theorem Shows.parts_first (hrt : rt.Sound) (fuel : Nat) : ∀ {n : Nat} {x : Id} {ct : Content},
    WellTyped rt st x → Acyclic st x → Shows true rt st n x ct → ∀ q ∈ st.partsFrom fuel x,
      ∃ d, marshal rt st q = .ok d ∧ d <+: ct.bytes := by
  induction fuel with
  | zero =>
      intro n x ct _ _ _ q hq
      cases hq
  | succ fuel ih =>
      intro n x ct hx hacyclic h q hq
      obtain ⟨p, c, hc, hcell⟩ := hx.cell
      rw [Store.partsFrom, Store.parent?, hc, Option.bind_some] at hq
      rcases List.mem_cons.mp hq with rfl | hq
      · exact ⟨ct.bytes, marshal_of_shows hrt hx hacyclic h, List.prefix_rfl⟩
      · cases hlink : c.parent? with
        | none =>
            rw [hlink] at hq
            cases hq
        | some q' =>
            rw [hlink] at hq
            have hmem := Cell.parent_mem_children hlink
            obtain ⟨k, ct', hshow, hfirst⟩ := h.parent_first hrt hx hc hlink
            obtain ⟨d, hd, hprefix⟩ := ih (hx.child hc hmem) (hacyclic.child hc hmem) hshow q hq
            exact ⟨d, hd, hprefix.trans hfirst⟩

end Parts

/-- **Plans implement the layout of their types.**  Encoding a message adds the layout of its type
to what was written before.  The bytes of the message are its layout too, and the bytes of each of
its parent parts are the first of them. -/
theorem encode_layout {catalog : Catalog} {limit : Int} {raw : Model} {sized : Bool} {S : PlanSet}
    (hresolve : (Resolve.run catalog limit raw).succeeded = true)
    (hderive : PlanSet.derive sized (Resolve.run catalog limit raw).model = .ok S) {i : Nat}
    {cls : Class} (hcls : (Resolve.run catalog limit raw).model.classes[i]? = some cls)
    {st : Store} {x : Id} (hx : WellTyped (.ofSet S) st x)
    (htype : OfType (.ofSet S) st x cls.name) (hacyclic : Acyclic st x) {w w' : Wire.Writer}
    (hencode : encode (.ofSet S) st x w = (.ok (), w')) :
    ∃ bytes, layout (Resolve.run catalog limit raw).model st i x = some bytes ∧
      w'.bytes = w.bytes ++ bytes ∧ marshal (.ofSet S) st x = .ok bytes ∧
      ∀ q ∈ st.parts x, ∃ d, marshal (.ofSet S) st q = .ok d ∧ d <+: bytes := by
  have hm := Resolve.run_bound hresolve
  have hrt := Runtime.ofSet_sound hm hderive
  obtain ⟨c, p, hof⟩ := OfClass.of_name hm hderive hx hcls htype
  obtain ⟨ct, hshows, hbytes⟩ := shows_of_encode hrt _ x w w' hencode
  refine ⟨ct.bytes, layoutDepth_of_shows hm hderive _ hx hof hshows, hbytes,
    marshal_of_shows hrt hx hacyclic hshows, ?_⟩
  exact hshows.parts_first hrt _ hx hacyclic

/-- The layout of the node with one node in it. -/
theorem encode_layout_node : layout Sample.model Sample.store 1 1 = some Sample.bytes ∧
    ∀ q ∈ Sample.store.parts 1,
      ∃ d, marshal Sample.runtime Sample.store q = .ok d ∧ d <+: Sample.bytes := by
  obtain ⟨bytes, hlayout, -, hbytes, hparts⟩ := encode_layout Sample.resolves Sample.derives
    Sample.node_at.1 Sample.fresh.typed (Sample.node_at.2 ▸ Sample.fresh.ofType)
    Sample.fresh.unshared.acyclic Sample.encodes
  obtain rfl : Sample.bytes = bytes := Except.ok.inj (Sample.marshals.symm.trans hbytes)
  exact ⟨hlayout, hparts⟩

end WireSchema.Message
