import Mathlib
import WireSchema.Proofs.Codec.Construction
import WireSchema.Proofs.Resolve.Targets

/-!
# What new messages hold

A new message holds, in each number that its type or an ancestor declares, the literal of the last
initial value that is bound to the number, where the initial values of the declaring type come first
and those of the constructed type last; without one it holds the default, and else zero.  Messages
in it are new messages of their types themselves.  `DefaultMessage` says this about the model,
through the parent parts of a message.

A name is looked up in the same way when an initial value is bound and when a field is read: the
type itself first, then its ancestors, nearest first.  So what is read back under a setter is the
last value set through it.

## Main results

* `lastAssigned_eq` — the last assignment of a plan is the last initial value of the types.
* `Constructed.defaultMessage` — a constructed message in terms of the model.
* `DefaultMessage.getField_eq` — what is read under a name.
* `DefaultMessage.getField_lastSet` — what is read under a setter.
* `new_initial` — what new messages of accepted types hold, and what is read under their setters.
-/

namespace WireSchema

/-! ## What an attribute starts with -/

/-- The initial values of the message type at `i`. -/
def Model.initialValues (m : Model) (i : Nat) : List InitialValue :=
  ((m.classes[i]?).map (·.initialValues)).getD []

/-- The last of some initial values that is bound to the attribute at `r`. -/
def lastValue (values : List InitialValue) (r : AttrRef) : Option InitialValue :=
  (values.filter (·.target? = some r)).getLast?

/-- The last of some initial values whose setter names, from the message type at `i`, the attribute
that the setter `s` names. -/
def Model.lastSet (m : Model) (i : Nat) (values : List InitialValue) (s : String) :
    Option InitialValue :=
  (values.filter fun v => m.lookupAttribute i (Naming.setterField v.setter) =
    m.lookupAttribute i (Naming.setterField s)).getLast?

/-- The literal that the attribute `a` at `r` starts with: that of the last initial value, else its
default. -/
def startLiteral (values : List InitialValue) (r : AttrRef) (a : Attribute) : Option String :=
  ((lastValue values r).map (·.value)).or a.default?

/-- The number `s` is what a literal of a type stands for, or zero if there is none. -/
def StartsAs (t : Primitive) (s : Scalar) : Option String → Prop
  | some literal => t.parse literal = .ok s
  | none => s = t.zero

namespace Message

open Plan (Field FieldSpec Assignment AssignmentSpec)
open PlanSet (Member)
open Resolve (Bound)

/-- The message `y` is of the type at `i` and holds what its type gives a new message, where
`values` are the initial values of its type and of those that extend it, down to the constructed
type. -/
inductive DefaultMessage (m : Model) (rt : Runtime) (st : Store) :
    Nat → List InitialValue → Id → Prop where
  | mk {i : Nat} {values : List InitialValue} {y : Id} {cls : Class} {c : Cell}
      (type : m.classes[i]? = some cls) (cell : st.cell? y = some c)
      (ofType : OfType rt st y cls.name)
      (orphan : cls.parentClass? = none → c.parent? = none)
      (linked : ∀ j, cls.parentClass? = some j → ∃ q, c.parent? = some q)
      (parent : ∀ j q, cls.parentClass? = some j → c.parent? = some q →
        DefaultMessage m rt st j (m.initialValues j ++ values) q)
      (number : ∀ k a, cls.attributes[k]? = some a → a.shape = some .primitive →
        a.isCount = false → ∃ t s, a.primitive? = some t ∧
          c.value? a.name = some (.single (.scalar s)) ∧
          StartsAs t s (startLiteral values ⟨i, k⟩ a))
      (reference : ∀ a ∈ cls.attributes, a.shape = some .reference → ∃ j z, a.class? = some j ∧
        c.value? a.name = some (.single (.message z)))
      (fixedList : ∀ a ∈ cls.attributes, ∀ n, a.shape = some (.fixedList n) → ∃ items,
        c.value? a.name = some (.list items) ∧ (items.length : Int) = n ∧
          ((∃ t, a.primitive? = some t ∧ ∀ x ∈ items, x = .scalar t.zero) ∨
            ∃ j, a.class? = some j ∧ ∀ x ∈ items, ∃ z, x = .message z))
      (variableList : ∀ a ∈ cls.attributes, a.shape = some .variableList →
        c.value? a.name = some (.list []))
      (held : ∀ a ∈ cls.attributes, ∀ j v z, a.class? = some j → c.value? a.name = some v →
        z ∈ v.ids → DefaultMessage m rt st j (m.initialValues j) z) :
      DefaultMessage m rt st i values y

/-! ## Assignments and initial values -/

theorem forall₂_getLast? {α β : Type} {R : α → β → Prop} {xs : List α} {ys : List β}
    (h : List.Forall₂ R xs ys) : (xs.getLast? = none ∧ ys.getLast? = none) ∨
      ∃ x y, xs.getLast? = some x ∧ ys.getLast? = some y ∧ R x y := by
  rw [List.getLast?_eq_getElem?, List.getLast?_eq_getElem?, ← h.length_eq]
  cases hx : xs[xs.length - 1]? with
  | none =>
      refine .inl ⟨rfl, ?_⟩
      rw [List.getElem?_eq_none_iff] at hx ⊢
      rwa [← h.length_eq]
  | some x =>
      obtain ⟨y, hy, hxy⟩ := Plan.forall₂_getElem? h hx
      exact .inr ⟨x, y, rfl, hy, hxy⟩

section Values

variable {m : Model} {i k : Nat} {cls : Class} {a : Attribute}

/-- An assignment names the attribute that its initial value is bound to, and no other. -/
theorem target_iff (hm : Bound m) (hcls : m.classes[i]? = some cls)
    (ha : cls.attributes[k]? = some a) {v : InitialValue} {x : Assignment}
    (h : AssignmentSpec m v x) :
    v.target? = some ⟨i, k⟩ ↔ x.owner = cls.name ∧ x.field = a.name := by
  obtain ⟨⟨j, l⟩, b, t, htarget, hb, -, hfield, howner, -⟩ := h
  obtain ⟨d, hd, hmem⟩ := Option.bind_eq_some_iff.mp hb
  have hname : m.className j = d.name := by simp [Model.className, hd]
  rw [htarget, hfield, howner, hname]
  constructor
  · intro hsame
    cases hsame
    obtain rfl := Option.some.inj (hcls.symm.trans hd)
    obtain rfl := Option.some.inj (ha.symm.trans hmem)
    exact ⟨rfl, rfl⟩
  · rintro ⟨hclass, hattr⟩
    have hnames : m.classNames[j]? = m.classNames[i]? := by
      rw [Model.classNames, List.getElem?_map, List.getElem?_map, hd, hcls, Option.map_some,
        Option.map_some, hclass]
    have hlt : j < m.classNames.length := by
      rw [Model.classNames, List.length_map]
      exact (List.getElem?_eq_some_iff.mp hd).1
    obtain rfl := (List.getElem?_inj hlt hm.classes_nodup).mp hnames
    obtain rfl := Option.some.inj (hcls.symm.trans hd)
    have hattrs : (cls.attributes.map (·.name))[l]? = (cls.attributes.map (·.name))[k]? := by
      rw [List.getElem?_map, List.getElem?_map, ha, hmem, Option.map_some, Option.map_some, hattr]
    have hlt' : l < (cls.attributes.map (·.name)).length := by
      rw [List.length_map]
      exact (List.getElem?_eq_some_iff.mp hmem).1
    obtain rfl := (List.getElem?_inj hlt'
      (hm.attributes_nodup cls (List.mem_of_getElem? hcls))).mp hattrs
    rfl

/-- **The last assignment to a field is the last initial value bound to its attribute.** -/
theorem lastAssigned_eq (hm : Bound m) (hcls : m.classes[i]? = some cls)
    (ha : cls.attributes[k]? = some a) {t : Primitive} (htype : a.primitive? = some t)
    {values : List InitialValue} {as : List Assignment}
    (h : List.Forall₂ (AssignmentSpec m) values as) :
    (lastValue values ⟨i, k⟩ = none ∧ lastAssigned as cls.name a.name = none) ∨
      ∃ v s, lastValue values ⟨i, k⟩ = some v ∧ lastAssigned as cls.name a.name = some s ∧
        t.parse v.value = .ok s := by
  have hfiltered : List.Forall₂ (AssignmentSpec m)
      (values.filter (·.target? = some ⟨i, k⟩))
      (as.filter fun x => x.owner == cls.name && x.field == a.name) := by
    induction h with
    | nil => exact .nil
    | @cons v x values as hvx _ ih =>
        have hiff := target_iff hm hcls ha hvx
        by_cases hv : v.target? = some ⟨i, k⟩
        · have hx := hiff.mp hv
          rw [List.filter_cons_of_pos (by simpa using hv),
            List.filter_cons_of_pos (by simpa using hx)]
          exact .cons hvx ih
        · have hx := fun hx => hv (hiff.mpr hx)
          rw [List.filter_cons_of_neg (by simpa using hv),
            List.filter_cons_of_neg (by simpa using hx)]
          exact ih
  rcases forall₂_getLast? hfiltered with ⟨hv, hx⟩ | ⟨v, x, hv, hx, hspec⟩
  · exact .inl ⟨hv, by rw [lastAssigned, hx, Option.map_none]⟩
  · refine .inr ⟨v, x.value, hv, by rw [lastAssigned, hx, Option.map_some], ?_⟩
    have htarget : v.target? = some ⟨i, k⟩ := by
      simpa using (List.mem_filter.mp (List.mem_of_getLast? hv)).2
    obtain ⟨r, b, t', hr, hb, htype', -, -, hparse⟩ := hspec
    obtain rfl := Option.some.inj (htarget.symm.trans hr)
    rw [Plan.attribute?_own hcls, ha] at hb
    obtain rfl := Option.some.inj hb
    obtain rfl := Option.some.inj (htype.symm.trans htype')
    exact hparse

/-- The number that a field holds after some assignments is the one that its attribute starts
with. -/
theorem startsAs_assigned (hm : Bound m) (hcls : m.classes[i]? = some cls)
    (ha : cls.attributes[k]? = some a) (hprim : a.isPrimitive = true) (hcount : a.isCount = false)
    {t : Primitive} (htype : a.primitive? = some t) {f : Field} (hspec : FieldSpec m a f)
    {values : List InitialValue} {as : List Assignment}
    (h : List.Forall₂ (AssignmentSpec m) values as) :
    StartsAs t ((lastAssigned as cls.name a.name).getD (f.default?.getD t.zero))
      (startLiteral values ⟨i, k⟩ a) := by
  unfold startLiteral
  rcases lastAssigned_eq hm hcls ha htype h with ⟨hv, hx⟩ | ⟨v, s, hv, hx, hparse⟩
  · rw [hv, hx, Option.map_none, Option.none_or, Option.getD_none]
    cases hdef : f.default? with
    | none =>
        rw [hspec.plain hdef hprim hcount (by rw [htype]; rfl)]
        rfl
    | some s =>
        obtain ⟨t', literal, htype', hliteral, hparse⟩ := hspec.default s hdef
        obtain rfl := Option.some.inj (htype.symm.trans htype')
        rw [hliteral]
        exact hparse
  · rw [hv, hx]
    exact hparse

end Values

/-! ## New messages -/

section Transfer

variable {sized : Bool} {m : Model} {S : PlanSet} {st : Store} {y : Id}

/-- Only single numbers are counts. -/
theorem uncounted_of_shape (hm : Bound m) {cls : Class} (hcls : cls ∈ m.classes) {a : Attribute}
    (ha : a ∈ cls.attributes) (hshape : a.isPrimitive = false) : a.isCount = false := by
  by_contra hcount
  have hcountable := hm.countable cls hcls a ha (by simpa using hcount)
  simp [Resolve.isCountable, hshape] at hcountable

/-- The assignments of an accepted type are its initial values. -/
theorem assignments_of_member (hm : Bound m) {q i : Nat} {cls : Class} {p : Plan}
    (hp : Member sized m S q i cls p) :
    List.Forall₂ (AssignmentSpec m) (m.initialValues i) p.assignments := by
  rw [Model.initialValues, hp.cls]
  exact (Runtime.derived_of_member hm hp).1.assignments

/-- The fields of a message of a plan hold what was assigned to them. -/
def HoldsAssigned (p : Plan) (c : Cell) (done : List Assignment) : Prop :=
  ∀ f ∈ p.fields, f.stored = true → ∃ v, c.value? f.name = some v ∧
    Field.Holds (lastAssigned done p.name f.name) f v

section Held

variable {c : Cell} {i : Nat} {cls : Class} {p : Plan} {done : List Assignment} {a : Attribute}

/-- What an attribute holds is what was assigned to it, if it has a field. -/
theorem OfClass.holds (hm : Bound m) (hof : OfClass sized m S st y c i cls p)
    (hown : HoldsAssigned p c done) (ha : a ∈ cls.attributes) (hcount : a.isCount = false) :
    ∃ f v, FieldSpec m a f ∧ c.value? a.name = some v ∧ ValueTyped (.ofSet S) st f v ∧
      Field.Holds (lastAssigned done cls.name a.name) f v := by
  have hd := (Runtime.derived_of_member hm hof.member).1
  obtain ⟨k, hk⟩ := List.mem_iff_getElem?.mp ha
  obtain ⟨f, hf, hspec⟩ := hd.exists_field hk
  have hstored := (hspec.stored_of hcount).1
  obtain ⟨v, hv, hholds⟩ := hown f (List.mem_of_getElem? hf) hstored
  obtain ⟨w, hw, htyped⟩ := hof.typed.stored f (List.mem_of_getElem? hf) hstored
  obtain rfl := Option.some.inj (hv.symm.trans hw)
  rw [hd.name, hspec.name] at hholds
  exact ⟨f, v, hspec, hspec.name ▸ hv, htyped, hholds⟩

/-- The same for what is no single number. -/
theorem OfClass.holds_other (hm : Bound m) (hof : OfClass sized m S st y c i cls p)
    (hown : HoldsAssigned p c done) (ha : a ∈ cls.attributes) {shape : Shape}
    (hshape : a.shape = some shape) (hne : shape ≠ .primitive) :
    ∃ f v, FieldSpec m a f ∧ f.shape = shape ∧ c.value? a.name = some v ∧
      ValueTyped (.ofSet S) st f v ∧
      Field.Holds (lastAssigned done cls.name a.name) f v := by
  have hcount := uncounted_of_shape hm (List.mem_of_getElem? hof.member.cls) ha
    (by simp [Attribute.isPrimitive, hshape, hne])
  obtain ⟨f, v, hspec, hv, htyped, hholds⟩ := hof.holds hm hown ha hcount
  exact ⟨f, v, hspec, Option.some.inj (hspec.shape.symm.trans hshape), hv, htyped, hholds⟩

theorem OfClass.holds_number (hm : Bound m) (hof : OfClass sized m S st y c i cls p)
    (hown : HoldsAssigned p c done)
    {values : List InitialValue} (hvalues : List.Forall₂ (AssignmentSpec m) values done) {k : Nat}
    (ha : cls.attributes[k]? = some a) (hshape : a.shape = some .primitive)
    (hcount : a.isCount = false) :
    ∃ t s, a.primitive? = some t ∧ c.value? a.name = some (.single (.scalar s)) ∧
      StartsAs t s (startLiteral values ⟨i, k⟩ a) := by
  have hcls := hof.member.cls
  obtain ⟨f, v, hspec, hv, -, hholds⟩ := hof.holds hm hown (List.mem_of_getElem? ha) hcount
  have hprim : a.isPrimitive = true := by simp [Attribute.isPrimitive, hshape]
  have hattr : m.attribute? ⟨i, k⟩ = some a := (Plan.attribute?_own hcls k).trans ha
  obtain ⟨t, htype⟩ := Option.isSome_iff_exists.mp (hm.typed hattr hprim)
  have hfshape : f.shape = .primitive := Option.some.inj (hspec.shape.symm.trans hshape)
  have helem : f.elem = .primitive t := by rw [hspec.elem, Plan.elementOf, htype]
  simp only [Field.Holds, hfshape, helem] at hholds
  exact ⟨t, _, htype, hholds ▸ hv, startsAs_assigned hm hcls ha hprim hcount htype hspec hvalues⟩

theorem OfClass.holds_reference (hm : Bound m) (hof : OfClass sized m S st y c i cls p)
    (hown : HoldsAssigned p c done) (ha : a ∈ cls.attributes) (hshape : a.shape = some .reference) :
    ∃ j z, a.class? = some j ∧ c.value? a.name = some (.single (.message z)) := by
  obtain ⟨f, v, hspec, hfshape, hv, htyped, -⟩ := hof.holds_other hm hown ha hshape (by simp)
  have htype := hm.types cls (List.mem_of_getElem? hof.member.cls) a ha
  rw [Resolve.TypeBound, hshape] at htype
  obtain ⟨hnone, j, hj, -⟩ := htype
  have helem : f.elem = .message (m.className j) := by
    rw [hspec.elem, Plan.elementOf, hnone, hj]
  obtain ⟨z, rfl, -⟩ := htyped.message hfshape helem
  exact ⟨j, z, hj, hv⟩

theorem OfClass.holds_fixedList (hm : Bound m) (hof : OfClass sized m S st y c i cls p)
    (hown : HoldsAssigned p c done) (ha : a ∈ cls.attributes) {n : Int}
    (hshape : a.shape = some (.fixedList n)) :
    ∃ items, c.value? a.name = some (.list items) ∧ (items.length : Int) = n ∧
      ((∃ t, a.primitive? = some t ∧ ∀ x ∈ items, x = .scalar t.zero) ∨
        ∃ j, a.class? = some j ∧ ∀ x ∈ items, ∃ z, x = .message z) := by
  obtain ⟨f, v, hspec, hfshape, hv, htyped, hholds⟩ := hof.holds_other hm hown ha hshape (by simp)
  obtain ⟨items, rfl, hlen, -, hitems⟩ := htyped.fixedList hfshape
  refine ⟨items, hv, hlen, ?_⟩
  have htype := hm.types cls (List.mem_of_getElem? hof.member.cls) a ha
  rw [Resolve.TypeBound, hshape] at htype
  rcases htype with ⟨hsome, -⟩ | ⟨hnone, j, hj, -⟩
  · obtain ⟨t, ht⟩ := Option.isSome_iff_exists.mp hsome
    have helem : f.elem = .primitive t := by rw [hspec.elem, Plan.elementOf, ht]
    simp only [Field.Holds, hfshape, helem] at hholds
    obtain ⟨items', heq, hzero⟩ := hholds
    obtain rfl := Value.list.inj heq
    exact .inl ⟨t, ht, hzero⟩
  · have helem : f.elem = .message (m.className j) := by
      rw [hspec.elem, Plan.elementOf, hnone, hj]
    refine .inr ⟨j, hj, fun x hx => ?_⟩
    obtain ⟨z, rfl, -⟩ := (helem ▸ hitems x hx).exists_message
    exact ⟨z, rfl⟩

theorem OfClass.holds_variableList (hm : Bound m) (hof : OfClass sized m S st y c i cls p)
    (hown : HoldsAssigned p c done) (ha : a ∈ cls.attributes)
    (hshape : a.shape = some .variableList) :
    c.value? a.name = some (.list []) := by
  obtain ⟨f, v, -, hfshape, hv, -, hholds⟩ := hof.holds_other hm hown ha hshape (by simp)
  simp only [Field.Holds, hfshape] at hholds
  exact hholds ▸ hv

end Held

/-- **A constructed message in terms of the model.** -/
theorem Constructed.defaultMessage (hm : Bound m) (hderive : PlanSet.derive sized m = .ok S)
    {done : List Assignment} (h : Constructed (.ofSet S) st done y) :
    ∀ {c : Cell} {i : Nat} {cls : Class} {p : Plan} {values : List InitialValue},
      WellTyped (.ofSet S) st y → OfClass sized m S st y c i cls p →
      List.Forall₂ (AssignmentSpec m) values done →
      DefaultMessage m (.ofSet S) st i values y := by
  have hrt := Runtime.ofSet_sound hm hderive
  induction h with
  | @mk done y c p cell plan own parent items ihparent ihitems =>
      intro c' i cls p' values hy hof hvalues
      obtain rfl := Option.some.inj (cell.symm.trans hof.cell)
      obtain rfl := Option.some.inj (plan.symm.trans hof.plan)
      have hcls := hof.member.cls
      have hd := (Runtime.derived_of_member hm hof.member).1
      refine .mk hcls cell ⟨p, planOf?_eq.mpr ⟨c, cell, plan⟩, hd.name⟩ ?_ ?_ ?_
        (fun k a ha => hof.holds_number hm own hvalues ha)
        (fun a ha => hof.holds_reference hm own ha) (fun a ha n => hof.holds_fixedList hm own ha)
        (fun a ha => hof.holds_variableList hm own ha) ?_
      · intro hnone
        by_contra hsome
        obtain ⟨q, hq⟩ := Option.ne_none_iff_exists'.mp hsome
        obtain ⟨j, d, cls', p', hj, -⟩ := hof.parent hm hderive hy hq
        rw [hnone] at hj
        cases hj
      · intro j hj
        have hhas : cls.hasParent = true := by
          by_contra hno
          rw [hm.orphan cls (List.mem_of_getElem? hcls) (by simpa using hno)] at hj
          cases hj
        have hpart := hof.typed.hasParent hrt
        rw [Runtime.hasParent_of_member hm hof.member, hhas] at hpart
        exact Option.isSome_iff_exists.mp hpart.symm
      · intro j q hj hq
        obtain ⟨j', d, cls', p', hj', -, hofq⟩ := hof.parent hm hderive hy hq
        obtain rfl := Option.some.inj (hj.symm.trans hj')
        exact ihparent q p' hq (planOf?_eq.mpr ⟨d, hofq.cell, hofq.plan⟩)
          (hy.child cell (Cell.parent_mem_children hq)) hofq
          (List.rel_append (assignments_of_member hm hofq.member) hvalues)
      · intro a ha j v z hj hv hz
        obtain ⟨k, hk⟩ := List.mem_iff_getElem?.mp ha
        obtain ⟨f, hf, hspec⟩ := hd.exists_field hk
        have htyped := hof.typed.value (hrt.plan plan) (List.mem_of_getElem? hf)
          (hspec.name ▸ hv)
        have hid := Cell.ids_subset_children hv hz
        obtain ⟨j', d, cls', p', hj', hofz⟩ := hof.item hm hderive hy ha hspec (htyped.item hz) hid
        obtain rfl := Option.some.inj (hj.symm.trans hj')
        exact ihitems z p' (List.mem_flatMap.mpr ⟨(a.name, v), mem_of_value? hv, hz⟩)
          (planOf?_eq.mpr ⟨d, hofz.cell, hofz.plan⟩) (hy.child cell hid) hofz
          (assignments_of_member hm hofz.member)

end Transfer

/-! ## What is read under a name -/

section Get

variable {sized : Bool} {m : Model} {S : PlanSet} {st : Store} {rt : Runtime} {y : Id} {i : Nat}
  {cls : Class} {c : Cell} {p : Plan} {values : List InitialValue}

theorem DefaultMessage.parent_part (h : DefaultMessage m rt st i values y)
    (hcls : m.classes[i]? = some cls) (hc : st.cell? y = some c) {j : Nat}
    (hj : cls.parentClass? = some j) :
    ∃ q, c.parent? = some q ∧ DefaultMessage m rt st j (m.initialValues j ++ values) q := by
  obtain ⟨hcls', hc', -, -, hlinked, hparent, -⟩ := h
  obtain rfl := Option.some.inj (hcls.symm.trans hcls')
  obtain rfl := Option.some.inj (hc.symm.trans hc')
  obtain ⟨q, hq⟩ := hlinked j hj
  exact ⟨q, hq, hparent j q hj hq⟩

theorem DefaultMessage.exists_number (h : DefaultMessage m rt st i values y)
    (hcls : m.classes[i]? = some cls) (hc : st.cell? y = some c) {k : Nat} {a : Attribute}
    (ha : cls.attributes[k]? = some a) (hshape : a.shape = some .primitive)
    (hcount : a.isCount = false) : ∃ t s, a.primitive? = some t ∧
      c.value? a.name = some (.single (.scalar s)) ∧
      StartsAs t s (startLiteral values ⟨i, k⟩ a) := by
  obtain ⟨hcls', hc', -, -, -, -, hnumber, -⟩ := h
  obtain rfl := Option.some.inj (hcls.symm.trans hcls')
  obtain rfl := Option.some.inj (hc.symm.trans hc')
  exact hnumber k a ha hshape hcount

/-- A field of a plan is found where the attribute of its name is. -/
theorem field?_of_member (hm : Bound m) {q : Nat} (hp : Member sized m S q i cls p)
    (name : String) : p.field? name = (cls.attributeIndex? name).bind (p.fields[·]?) := by
  have hd := (Runtime.derived_of_member hm hp).1
  cases hindex : cls.attributeIndex? name with
  | none =>
      refine List.find?_eq_none.mpr fun f hf => ?_
      obtain ⟨k, hk⟩ := List.mem_iff_getElem?.mp hf
      obtain ⟨a, ha, hspec⟩ := hd.exists_attribute hk
      have hne := List.findIdx?_eq_none_iff.mp hindex a (List.mem_of_getElem? ha)
      simpa [hspec.name] using hne
  | some k =>
      obtain ⟨hlt, hname, -⟩ := List.findIdx?_eq_some_iff_getElem.mp hindex
      obtain ⟨f, hf, hspec⟩ := hd.exists_field (List.getElem?_eq_getElem hlt)
      have hfname : f.name = name := by
        rw [hspec.name]
        simpa using hname
      rw [Option.bind_some, hf, ← hfname]
      exact field?_eq_some (hd.nodup hm hp.cls) (List.mem_of_getElem? hf)

/-- **Parts are searched as types are.**  The part that has a field is that of the nearest type that
has the attribute. -/
theorem DefaultMessage.exists_owner (hm : Bound m) (hderive : PlanSet.derive sized m = .ok S)
    {name : String} {r : AttrRef} (fuel : Nat) :
    ∀ {seen : List Nat} {n i : Nat} {y : Id} {c : Cell} {cls : Class} {p : Plan}
      {values : List InitialValue}, WellTyped (.ofSet S) st y →
      OfClass sized m S st y c i cls p → DefaultMessage m (.ofSet S) st i values y →
      Shallow st n y →
      ((m.chainFrom fuel seen i).findSome? fun j =>
        (m.classes[j]?.bind (·.attributeIndex? name)).map fun k => (⟨j, k⟩ : AttrRef)) = some r →
      ∃ part d cls' p' f earlier,
        ((st.partsFrom n y).findSome? fun part =>
          (((Runtime.ofSet S).planOf? st part).bind (·.field? name)).map (part, ·)) =
            some (part, f) ∧
        OfClass sized m S st part d r.cls cls' p' ∧ p'.fields[r.attr]? = some f ∧
        DefaultMessage m (.ofSet S) st r.cls (earlier ++ values) part := by
  induction fuel with
  | zero =>
      intro seen n i y c cls p values _ _ _ _ hr
      cases hr
  | succ fuel ih =>
      intro seen n i y c cls p values hy hof h hshallow hr
      obtain ⟨n, rfl⟩ : ∃ k, n = k + 1 :=
        ⟨n - 1, by have := hshallow [] y rfl; simp only [List.length_nil] at this; omega⟩
      have hplan : (Runtime.ofSet S).planOf? st y = some p :=
        planOf?_eq.mpr ⟨c, hof.cell, hof.plan⟩
      have hfield := field?_of_member hm hof.member name
      rw [Model.chainFrom] at hr
      split at hr
      · cases hr
      · rw [List.findSome?_cons, hof.member.cls, Option.bind_some] at hr
        rw [Store.partsFrom, List.findSome?_cons, hplan, Option.bind_some, hfield]
        cases hindex : cls.attributeIndex? name with
        | some k =>
            rw [hindex] at hr
            obtain rfl := Option.some.inj hr
            obtain ⟨hlt, -⟩ := List.findIdx?_eq_some_iff_getElem.mp hindex
            obtain ⟨f, hf, -⟩ := (Runtime.derived_of_member hm hof.member).1.exists_field
              (List.getElem?_eq_getElem hlt)
            exact ⟨y, c, cls, p, f, [], by rw [Option.bind_some, hf]; rfl, hof, hf, h⟩
        | none =>
            rw [hindex] at hr
            simp only [Option.map_none, Model.parentOf?, hof.member.cls, Option.bind_some] at hr
            cases hlink : cls.parentClass? with
            | none =>
                rw [hlink] at hr
                cases hr
            | some j =>
                rw [hlink] at hr
                obtain ⟨q, hq, hdefault⟩ := h.parent_part hof.member.cls hof.cell hlink
                obtain ⟨j', d, cls', p', hj', -, hofq⟩ := hof.parent hm hderive hy hq
                obtain rfl := Option.some.inj (hlink.symm.trans hj')
                have hchild := Cell.parent_mem_children hq
                obtain ⟨part, e, cls'', p'', f, earlier, hfound, hpart, hf, hstart⟩ :=
                  ih (hy.child hof.cell hchild) hofq hdefault (hshallow.child hof.cell hchild) hr
                refine ⟨part, e, cls'', p'', f, earlier ++ m.initialValues j, ?_, hpart, hf, ?_⟩
                · rw [Option.bind_none, Option.map_none]
                  simp only [Store.parent?, hof.cell, Option.bind_some, hq]
                  exact hfound
                · rwa [List.append_assoc]

/-- **What is read under a name** is what the attribute of that name starts with. -/
theorem DefaultMessage.getField_eq (hm : Bound m) (hderive : PlanSet.derive sized m = .ok S)
    (h : DefaultMessage m (.ofSet S) st i values y) (hy : WellTyped (.ofSet S) st y)
    (hof : OfClass sized m S st y c i cls p) (hacyclic : Acyclic st y) {name : String}
    {r : AttrRef} (hr : m.lookupAttribute i name = some r) {a : Attribute}
    (ha : m.attribute? r = some a) (hshape : a.shape = some .primitive)
    (hcount : a.isCount = false) :
    ∃ earlier t s, a.primitive? = some t ∧
      getField (.ofSet S) st y name = .ok (.single (.scalar s)) ∧
      StartsAs t s (startLiteral (earlier ++ values) r a) := by
  obtain ⟨part, d, cls', p', f, earlier, hfound, hpart, hf, hstart⟩ :=
    h.exists_owner hm hderive _ hy hof (hacyclic.shallow hy.complete) hr
  rw [Model.attribute?, hpart.member.cls, Option.bind_some] at ha
  obtain ⟨cls'', a', hcls'', ha', rfl⟩ := Model.attribute?_lookup hr
  obtain rfl := Option.some.inj (hpart.member.cls.symm.trans hcls'')
  obtain rfl := Option.some.inj (ha.symm.trans ha')
  obtain ⟨t, s, htype, hv, hs⟩ := hstart.exists_number hcls'' hpart.cell ha hshape hcount
  refine ⟨earlier, t, s, htype, ?_, hs⟩
  have hspec : FieldSpec m a f := by
    obtain ⟨g, hg, hspec⟩ := (Runtime.derived_of_member hm hpart.member).1.exists_field ha
    rwa [Option.some.inj (hf.symm.trans hg)]
  have hisCount : f.isCount = false := by simp [Field.isCount, (hspec.stored_of hcount).2]
  have howner : owner? (.ofSet S) st y a.name = some (part, f) := hfound
  have hcell : st.cell part = .ok d := by rw [Store.cell, hpart.cell]
  simp [getField, howner, hcell, hisCount, hv, bind, Except.bind, pure, Except.pure]

/-- A later initial value counts more than those before it. -/
theorem lastValue_append {values : List InitialValue} {r : AttrRef} {u : InitialValue}
    (h : lastValue values r = some u) (earlier : List InitialValue) :
    lastValue (earlier ++ values) r = some u := by
  rw [lastValue] at h ⊢
  rw [List.filter_append, List.getLast?_append, h, Option.some_or]

/-- The setters that name an attribute are those of the initial values bound to it. -/
theorem lastSet_eq (htargets : ∀ v ∈ values, ∃ r, v.target? = some r ∧
      m.lookupAttribute i (Naming.setterField v.setter) = some r) {s : String} {r : AttrRef}
    (hr : m.lookupAttribute i (Naming.setterField s) = some r) :
    m.lastSet i values s = lastValue values r := by
  refine congrArg List.getLast? (List.filter_congr fun v hv => ?_)
  obtain ⟨r', htarget, hlookup⟩ := htargets v hv
  rw [htarget, hlookup, hr]

/-- What is read under a setter is the last value set through it. -/
theorem DefaultMessage.getField_lastSet (hm : Bound m) (hderive : PlanSet.derive sized m = .ok S)
    (h : DefaultMessage m (.ofSet S) st i cls.initialValues y) (hy : WellTyped (.ofSet S) st y)
    (hof : OfClass sized m S st y c i cls p) (hacyclic : Acyclic st y)
    (htargets : ∀ v ∈ cls.initialValues, ∃ r, v.target? = some r ∧
      m.lookupAttribute i (Naming.setterField v.setter) = some r) {s : String} {u : InitialValue}
    (hu : m.lastSet i cls.initialValues s = some u) :
    ∃ r a t w, m.lookupAttribute i (Naming.setterField s) = some r ∧ m.attribute? r = some a ∧
      a.primitive? = some t ∧ t.parse u.value = .ok w ∧
      getField (.ofSet S) st y (Naming.setterField s) = .ok (.single (.scalar w)) := by
  obtain ⟨hmem, hsame⟩ := List.mem_filter.mp (List.mem_of_getLast? hu)
  obtain ⟨r, htarget, hlookup⟩ := htargets u hmem
  have hr : m.lookupAttribute i (Naming.setterField s) = some r :=
    (of_decide_eq_true hsame).symm.trans hlookup
  obtain ⟨-, a, -, -, ha, hcount, hprim, -⟩ := hm.values i cls hof.member.cls u hmem r htarget
  have hshape : a.shape = some .primitive := by simpa [Attribute.isPrimitive] using hprim
  obtain ⟨earlier, t, w, htype, hget, hstarts⟩ :=
    h.getField_eq hm hderive hy hof hacyclic hr ha hshape hcount
  rw [startLiteral, lastValue_append (lastSet_eq htargets hr ▸ hu)] at hstarts
  exact ⟨r, a, t, w, hr, ha, htype, hstarts, hget⟩

end Get

/-! ## New messages of accepted types -/

/-- **Construction is last-writer-wins.**  In a resolved model every initial value is bound to what
its setter names.  A new message of an accepted type is made unless it would contain a list too long
to be made.  All of it is new and nothing in it is shared; it and what it contains hold what their
types give new messages, where of the initial values of a type and of the types that extend it the
last one counts.  And what is read under a setter is what the type set through it last. -/
theorem new_initial {catalog : Catalog} {limit : Int} {raw : Model} (sized : Bool)
    (hresolve : (Resolve.run catalog limit raw).succeeded = true) :
    (∀ (i : Nat) (c : Class), (Resolve.run catalog limit raw).model.classes[i]? = some c →
      ∀ v ∈ c.initialValues, v.target?.isSome = true ∧
        v.target? = (Resolve.run catalog limit raw).model.lookupAttribute i
          (Naming.setterField v.setter)) ∧
    ∃ S, PlanSet.derive sized (Resolve.run catalog limit raw).model = .ok S ∧
      ∀ p ∈ S.accepted, ∃ i c,
        (Resolve.run catalog limit raw).model.classes[i]? = some c ∧ c.name = p.name ∧
        ∀ st : Store,
          ((∃ y st', new (.ofSet S) p.name st = (.ok y, st')) ↔
            ∀ j, Relation.ReflTransGen (Resolve.run catalog limit raw).model.Contains i j →
              (Resolve.run catalog limit raw).model.ListsMakeable j) ∧
          ∀ y st', new (.ofSet S) p.name st = (.ok y, st') →
            DefaultMessage (Resolve.run catalog limit raw).model (.ofSet S) st' i
              c.initialValues y ∧
            Unshared st' y ∧ (∀ z, Reach st' y z → st.size ≤ z) ∧
            ∀ s u,
              (Resolve.run catalog limit raw).model.lastSet i c.initialValues s = some u →
              ∃ r a t w,
                (Resolve.run catalog limit raw).model.lookupAttribute i (Naming.setterField s) =
                  some r ∧
                (Resolve.run catalog limit raw).model.attribute? r = some a ∧
                a.primitive? = some t ∧ t.parse u.value = .ok w ∧
                getField (.ofSet S) st' y (Naming.setterField s) = .ok (.single (.scalar w)) := by
  have hm := Resolve.run_bound hresolve
  have htargets := fun i c hc v hv => Resolve.run_targets hresolve (i := i) (c := c) hc (v := v) hv
  obtain ⟨S, hderive⟩ := PlanSet.derive_total hm (Resolve.run_defaults hresolve) sized
  have hrt := Runtime.ofSet_sound hm hderive
  refine ⟨fun i c hc v hv => ?_, S, hderive, fun p hp => ?_⟩
  · obtain ⟨r, hr, hfound⟩ := htargets i c hc v hv
    exact ⟨by rw [hr]; rfl, hr.trans hfound.symm⟩
  obtain ⟨q, hq⟩ := List.mem_iff_getElem?.mp hp
  obtain ⟨i, c, hmember⟩ := PlanSet.exists_member hderive hq
  have hname := (Runtime.derived_of_member hm hmember).1.name
  refine ⟨i, c, hmember.cls, hname.symm, fun st =>
    ⟨new_succeeds_iff hm hderive hmember st, fun y st' hnew => ?_⟩⟩
  have hfresh := new_fresh hrt hnew
  obtain ⟨-, -, hmade, hisNew, -⟩ := new_constructed hrt hnew
  obtain ⟨d, p', hof⟩ :=
    OfClass.of_name hm hderive hfresh.typed hmember.cls (hname ▸ hfresh.ofType)
  have hvalues : List.Forall₂ (AssignmentSpec (Resolve.run catalog limit raw).model)
      c.initialValues p'.assignments :=
    (Runtime.derived_of_member hm hof.member).1.assignments
  have hdefault := (hisNew p' (planOf?_eq.mpr ⟨d, hof.cell, hof.plan⟩)).defaultMessage hm hderive
    hfresh.typed hof hvalues
  exact ⟨hdefault, hfresh.unshared,
    fun z hz => (hmade.below y (List.mem_singleton_self y) z hz).1, fun s u hu =>
    hdefault.getField_lastSet hm hderive hfresh.typed hof hfresh.unshared.acyclic
      (fun v hv => htargets i c hmember.cls v hv) hu⟩

/-- A type whose initial values set a number of its parent, which the parent sets too. -/
def layered : Model where
  classes := [
    { name := "Base"
      attributes := [
        { name := "id", shape := some .primitive, type := "unsigned short", default? := some "1" },
        { name := "flag", shape := some .primitive, type := "byte" }]
      initialValues := [{ setter := "setFlag", value := "2" }] },
    { name := "Leaf"
      parent := "Base"
      attributes :=
        [{ name := "n", shape := some .primitive, type := "byte", default? := some "5" }]
      initialValues := [
        { setter := "setFlag", value := "3" },
        { setter := "setN", value := "4" },
        { setter := "setFlag", value := "9" }] }]

/-- The model that the types resolve to. -/
def layeredModel : Model := (Resolve.run .standard 3 layered).model

/-- A new leaf has the last of the three numbers that its flag is given. -/
theorem new_initial_layered : (Resolve.run .standard 3 layered).succeeded = true ∧
    ∃ S y st', PlanSet.derive true layeredModel = .ok S ∧
      new (.ofSet S) "Leaf" .empty = (.ok y, st') ∧
      DefaultMessage layeredModel (.ofSet S) st' 1 (layeredModel.initialValues 1) y ∧
      getField (.ofSet S) st' y "flag" = .ok (.single (.scalar (.ofPattern .int8 9))) := by
  have hresolve : (Resolve.run .standard 3 layered).succeeded = true := by decide +kernel
  obtain ⟨-, S, hderive, hnew⟩ := new_initial true hresolve
  rw [← layeredModel] at hderive hnew
  obtain ⟨hnames, hplans, hlists, hfield, hlast, hparse⟩ :
      layeredModel.classNames = ["Base", "Leaf"] ∧
      (PlanSet.derive true layeredModel).toOption.map (·.accepted.map (·.name)) =
        some ["Base", "Leaf"] ∧
      (∀ c ∈ layeredModel.classes, ∀ a ∈ c.attributes, a.fixedLength? = none) ∧
      Naming.setterField "setFlag" = "flag" ∧
      (layeredModel.lastSet 1 (layeredModel.initialValues 1) "setFlag").map (·.value) = some "9" ∧
      (((layeredModel.lookupAttribute 1 "flag").bind layeredModel.attribute?).bind
        (·.primitive?)).map (fun t => (t.parse "9").toOption) =
          some (some (.ofPattern .int8 9)) := by
    decide +kernel
  rw [hderive] at hplans
  have haccepted : S.accepted.map (·.name) = ["Base", "Leaf"] := Option.some.inj hplans
  obtain ⟨p, hp, hname⟩ : ∃ p ∈ S.accepted, p.name = "Leaf" :=
    List.mem_map.mp (haccepted ▸ by simp)
  obtain ⟨i, c, hc, hcname, hall⟩ := hnew p hp
  have hindex : layeredModel.classNames[i]? = some "Leaf" := by
    rw [Model.classNames, List.getElem?_map, hc, Option.map_some, hcname, hname]
  obtain rfl : i = 1 := by
    have hnodup : layeredModel.classNames.Nodup := hnames ▸ by decide
    refine (List.getElem?_inj (List.getElem?_eq_some_iff.mp hindex).1 hnodup).mp ?_
    rw [hindex, hnames]
    rfl
  have hvalues : layeredModel.initialValues 1 = c.initialValues := by
    rw [Model.initialValues, hc]
    rfl
  obtain ⟨hiff, hmade⟩ := hall .empty
  rw [hname] at hiff hmade
  obtain ⟨y, st', hy⟩ := hiff.mpr fun j _ d hd a ha n hshape => by
    have hnone := hlists d (List.mem_of_getElem? hd) a ha
    rw [Attribute.fixedLength?, hshape] at hnone
    cases hnone
  obtain ⟨hdefault, -, -, hread⟩ := hmade y st' hy
  rw [hvalues] at hlast
  obtain ⟨u, hu, huvalue⟩ := Option.map_eq_some_iff.mp hlast
  obtain ⟨r, a, t, w, hr, ha, ht, hw, hget⟩ := hread "setFlag" u hu
  rw [hfield] at hr hget
  rw [hr, Option.bind_some, ha, Option.bind_some, ht, Option.map_some, ← huvalue, hw] at hparse
  refine ⟨hresolve, S, y, st', hderive, hy, hvalues ▸ hdefault, ?_⟩
  rw [hget, Option.some.inj (Option.some.inj hparse : Except.toOption (.ok w) = some _)]

end Message

end WireSchema
