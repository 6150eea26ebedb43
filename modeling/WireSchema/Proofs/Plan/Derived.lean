import Mathlib
import WireSchema.Plan.Check
import WireSchema.Proofs.Except
import WireSchema.Proofs.Plan.Parts
import WireSchema.Proofs.Reports

/-!
# Plans that pass every check

`Sound` is what a plan promises to whoever runs it, said about the plan alone: what a field of each
shape looks like, that counts and lists name each other, that the count of a serialized list comes
before it, and that steps, first values and text accessors are those of the fields.

`Derived` ties a plan to the message type it came from, attribute by attribute.

## Main results

* `derive_derived` — a plan is tied to its type as `Derived` says.
* `Derived.sound` — the plan of a type that passed `check` is `Sound`.
-/

namespace WireSchema.Plan

open Resolve (Bound CountLinks)

theorem forall₂_getElem? {α β : Type} {R : α → β → Prop} {xs : List α} {ys : List β}
    (h : List.Forall₂ R xs ys) {k : Nat} {x : α} (hx : xs[k]? = some x) :
    ∃ y, ys[k]? = some y ∧ R x y := by
  induction h generalizing k with
  | nil => simp at hx
  | cons hxy _ ih =>
      cases k with
      | zero =>
          obtain rfl := Option.some.inj hx
          exact ⟨_, rfl, hxy⟩
      | succ k => exact ih hx

/-! ## The promises of a plan -/

/-- The first steps of a plan: the parent's whole layout, if there is one. -/
def parentSteps (p : Plan) : List DecodeStep :=
  if p.hasParent then [.parent p.parentName] else []

/-- Whether the list of a count field stays off the wire. -/
def discardsCount (p : Plan) (f : Field) : Bool :=
  p.fields.any fun l => l.name == f.countOf && !l.serialized

/-- What a field of each shape looks like in the plan `p`. -/
inductive Field.Sound (p : Plan) (f : Field) : Prop where
  | number (t : Primitive) (shape : f.shape = .primitive) (elem : f.elem = .primitive t)
      (stored : f.stored = true) (countOf : f.countOf = "")
      (default : ∀ s, f.default? = some s → s.kind = t.kind)
  | count (t : Primitive) (l : Field) (shape : f.shape = .primitive) (elem : f.elem = .primitive t)
      (stored : f.stored = false) (integer : t.kind.isInteger = true) (mem : l ∈ p.fields)
      (listName : l.name = f.countOf) (listShape : l.shape = .variableList)
      (back : l.countField = f.name)
  | reference (type : String) (shape : f.shape = .reference) (elem : f.elem = .message type)
      (stored : f.stored = true) (countOf : f.countOf = "")
  | fixedList (n : Int) (shape : f.shape = .fixedList n) (length : f.length = n) (pos : 0 < n)
      (stored : f.stored = true) (countOf : f.countOf = "")
  | variableList (k : Field) (shape : f.shape = .variableList) (stored : f.stored = true)
      (countOf : f.countOf = "") (mem : k ∈ p.fields) (countName : k.name = f.countField)
      (unstored : k.stored = false) (back : k.countOf = f.name)

/-- What a plan promises about itself. -/
structure Sound (p : Plan) : Prop where
  nodup : (p.fields.map (·.name)).Nodup
  field : ∀ f ∈ p.fields, f.Sound p
  /-- The count of a list on the wire was read when the list comes up. -/
  counted : ∀ pre f post, p.fields = pre ++ f :: post → f.serialized = true →
    f.shape = .variableList →
    ∃ k ∈ pre, k.serialized = true ∧ k.name = f.countField ∧ k.stored = false ∧ k.countOf = f.name
  decode : p.decode = p.parentSteps ++
    (p.fields.filter (·.serialized)).map fun f => f.step (p.discardsCount f)
  encode : p.encode = p.decode.map DecodeStep.write
  defaults : p.defaults = (p.fields.filter (·.stored)).map fun f => ⟨f.name, f.elem, f.rule⟩
  accessor : ∀ x ∈ p.accessors, ∃ f ∈ p.fields, f.name = x.field ∧ f.shape = .fixedList x.length ∧
    f.elem = .primitive x.type

/-- Two fields of one name are one field. -/
theorem Sound.field_unique {p : Plan} (hp : p.Sound) {f g : Field} (hf : f ∈ p.fields)
    (hg : g ∈ p.fields) (hname : f.name = g.name) : f = g :=
  List.inj_on_of_nodup_map hp.nodup hf hg hname

/-- The step of a count keeps it exactly if the list of the count is on the wire. -/
theorem Sound.discardsCount_eq {p : Plan} (hp : p.Sound) {k l : Field} (hl : l ∈ p.fields)
    (hname : l.name = k.countOf) : p.discardsCount k = !l.serialized := by
  rw [discardsCount, Bool.eq_iff_iff, List.any_eq_true]
  constructor
  · rintro ⟨g, hg, hmatch⟩
    simp only [Bool.and_eq_true, beq_iff_eq] at hmatch
    exact hp.field_unique hg hl (hmatch.1.trans hname.symm) ▸ hmatch.2
  · intro hser
    exact ⟨l, hl, by simp [hname, hser]⟩

/-- An assignment sets the primitive attribute that an initial value is bound to, to the number that
its literal stands for. -/
def AssignmentSpec (m : Model) (v : InitialValue) (a : Assignment) : Prop :=
  ∃ r attr t, v.target? = some r ∧ m.attribute? r = some attr ∧ attr.primitive? = some t ∧
    a.field = attr.name ∧ a.owner = m.className r.cls ∧ t.parse v.value = .ok a.value

/-- A plan and the message type it was derived from. -/
structure Derived (m : Model) (c : Class) (p : Plan) : Prop where
  name : p.name = c.name
  parentName : p.parentName = if c.hasParent then c.parent else ""
  fields : List.Forall₂ (FieldSpec m) c.attributes p.fields
  decode : ∃ parts, List.Forall₂ (PartSpec m) c.attributes parts ∧
    p.fields = parts.map (·.field) ∧ p.decode = p.parentSteps ++ parts.flatMap (·.decode) ∧
    p.defaults = parts.flatMap (·.defaults) ∧ p.accessors = parts.flatMap (·.accessors)
  encode : p.encode = p.decode.map DecodeStep.write
  assignments : List.Forall₂ (AssignmentSpec m) c.initialValues p.assignments

theorem assignmentOf_spec {m : Model} {owner : String} {v : InitialValue} {a : Assignment}
    (h : assignmentOf m owner v = .ok a) : AssignmentSpec m v a := by
  unfold assignmentOf at h
  cases htarget : v.target? with
  | none =>
      rw [htarget] at h
      cases h
  | some r =>
      cases hattr : m.attribute? r with
      | none =>
          simp only [htarget, hattr, Option.bind_none] at h
          cases h
      | some attr =>
          cases htype : attr.primitive? with
          | none =>
              simp only [htarget, hattr, Option.bind_some, htype] at h
              cases h
          | some t =>
              simp only [htarget, hattr, Option.bind_some, htype] at h
              cases hparse : t.parse v.value with
              | error e =>
                  rw [hparse] at h
                  cases h
              | ok s =>
                  rw [hparse] at h
                  cases h
                  refine ⟨r, attr, t, htarget, hattr, htype, ?_, rfl, hparse⟩
                  simp [attributeName, hattr]

/-- Writing undoes reading part by part, so it does for the whole. -/
theorem flatMap_encode {m : Model} {attrs : List Attribute} {parts : List Part}
    (h : List.Forall₂ (PartSpec m) attrs parts) :
    parts.flatMap (·.encode) = (parts.flatMap (·.decode)).map DecodeStep.write := by
  induction h with
  | nil => rfl
  | cons hpart _ ih => rw [List.flatMap_cons, List.flatMap_cons, List.map_append, ih, hpart.encode]

/-- A name that is no parent's is the empty one, and only that. -/
theorem hasParent_parentName (c : Class) :
    (!(if c.hasParent then c.parent else "").isEmpty) = c.hasParent := by
  cases hparent : c.hasParent with
  | false => rfl
  | true =>
      simp only [if_true, Bool.not_eq_true']
      cases hempty : c.parent.isEmpty with
      | false => rfl
      | true =>
          -- The empty name counts as no parent.
          rw [String.isEmpty_iff] at hempty
          simp [Class.hasParent, Naming.isRoot, hempty] at hparent

/-- A derived plan is put together from the parts of its type. -/
theorem derive_parts {m : Model} {sized : Bool} {c : Class} {p : Plan}
    (h : derive sized m c = .ok p) : ∃ parts assignments,
      c.attributes.mapM (partOf m c.name) = .ok parts ∧
      c.initialValues.mapM (assignmentOf m c.name) = .ok assignments ∧
      p = {
        name := c.name
        parentName := if c.hasParent then c.parent else ""
        comment := c.comment
        fields := parts.map (·.field)
        encode := (if c.hasParent then [.parent c.parent] else []) ++ parts.flatMap (·.encode)
        decode := (if c.hasParent then [.parent c.parent] else []) ++ parts.flatMap (·.decode)
        size? := if sized then
            some ⟨if c.hasParent then c.parent else "", parts.flatMap (·.terms)⟩
          else none
        comparisons := parts.flatMap (·.comparisons)
        defaults := parts.flatMap (·.defaults)
        assignments
        accessors := parts.flatMap (·.accessors) } := by
  unfold derive at h
  cases hparts : c.attributes.mapM (partOf m c.name) with
  | error e =>
      rw [hparts] at h
      cases h
  | ok parts =>
      cases hvalues : c.initialValues.mapM (assignmentOf m c.name) with
      | error e =>
          rw [hparts, hvalues] at h
          cases h
      | ok assignments =>
          rw [hparts, hvalues] at h
          cases h
          exact ⟨parts, assignments, rfl, rfl, rfl⟩

theorem derive_derived {m : Model} {sized : Bool} {c : Class} {p : Plan}
    (hbound : ∀ a ∈ c.attributes, Resolve.TypeBound m a)
    (hcount : ∀ a ∈ c.attributes, a.isCount = true → a.isPrimitive = true)
    (h : derive sized m c = .ok p) : Derived m c p ∧ p.parent? = none := by
  obtain ⟨parts, assignments, hparts, hvalues, rfl⟩ := derive_parts h
  have hspec : List.Forall₂ (PartSpec m) c.attributes parts :=
    ((List.forall₂_and_left _ _).mpr ⟨fun _ ha => ha, mapM_ok hparts⟩).imp
      fun a part ⟨ha, hpart⟩ => partOf_spec (hbound a ha) (hcount a ha) hpart
  refine ⟨⟨rfl, rfl, ?_, ⟨parts, hspec, rfl, ?_, rfl, rfl⟩, ?_, ?_⟩, rfl⟩
  · exact List.forall₂_map_right_iff.mpr (hspec.imp fun _ _ hpart => hpart.field)
  · simp only [parentSteps, hasParent, hasParent_parentName]
    cases c.hasParent <;> rfl
  · simp only [List.map_append, flatMap_encode hspec]
    cases c.hasParent <;> rfl
  · exact (mapM_ok hvalues).imp fun _ _ hvalue => assignmentOf_spec hvalue

/-! ## What the checks leave -/

section Checked

variable {m : Model} {sized : Bool} {i : Nat} {c : Class}

theorem attribute?_own (hc : m.classes[i]? = some c) (k : Nat) :
    m.attribute? ⟨i, k⟩ = c.attributes[k]? := by
  simp [Model.attribute?, hc]

theorem check_shape (hcheck : (check sized m i c).hasErrors = false) {a : Attribute}
    (ha : a ∈ c.attributes) : (checkShape sized m c.name a).hasErrors = false := by
  simp only [check, Report.hasErrors_append, Report.hasErrors_join, Bool.or_eq_false_iff,
    List.any_eq_false, List.mem_map, forall_exists_index, and_imp,
    forall_apply_eq_imp_iff₂] at hcheck
  exact Bool.eq_false_iff.mpr (hcheck.1.1.2 a ha)

theorem check_count (hcheck : (check sized m i c).hasErrors = false) {k : Nat} {a : Attribute}
    (ha : c.attributes[k]? = some a) :
    (a.isVariableList = true → (checkList m c.name ⟨i, k⟩ a).hasErrors = false) ∧
      (a.isVariableList = false → a.isCount = true →
        (checkCount c.name c.attributes ⟨i, k⟩ a).hasErrors = false) := by
  have hcounts : (checkCounts m i c).hasErrors = false := by
    simp only [check, Report.hasErrors_append, Bool.or_eq_false_iff] at hcheck
    exact hcheck.1.2
  simp only [checkCounts, Report.hasErrors_join, List.any_eq_false] at hcounts
  have hmem := hcounts _ (List.mem_iff_getElem?.mpr ⟨k, by rw [List.getElem?_mapIdx, ha]; rfl⟩)
  constructor
  · intro hvar
    simp only [hvar, if_true] at hmem
    exact Bool.eq_false_iff.mpr hmem
  · intro hvar hcount
    simp only [hvar, hcount, Bool.false_eq_true, if_false, if_true] at hmem
    exact Bool.eq_false_iff.mpr hmem

/-- A fixed list that passed has a positive length. -/
theorem fixedList_pos (hcheck : (check sized m i c).hasErrors = false) {a : Attribute} {n : Int}
    (ha : a ∈ c.attributes) (hshape : a.shape = some (.fixedList n)) : 0 < n := by
  have herr := check_shape hcheck ha
  rw [checkShape, hshape] at herr
  simp only [checkFixedList, Report.hasErrors_append, Bool.or_eq_false_iff] at herr
  by_contra hneg
  rw [if_pos (by omega)] at herr
  cases herr.1.2

/-- The count field of a variable list of a type. -/
theorem exists_count (hm : Bound m) (hc : m.classes[i]? = some c) {k : Nat} {a : Attribute}
    (ha : c.attributes[k]? = some a) (hvar : a.isVariableList = true) :
    ∃ j b, a.countField? = some ⟨i, j⟩ ∧ c.attributes[j]? = some b ∧ b.isCount = true ∧
      b.countedList? = some ⟨i, k⟩ := by
  have hcls := List.mem_of_getElem? hc
  obtain ⟨⟨j, l⟩, hr⟩ :=
    Option.isSome_iff_exists.mp (hm.counted c hcls a (List.mem_of_getElem? ha) hvar)
  obtain ⟨-, hj, b, hb, hback⟩ := (hm.links i c hc).list k a _ ha hr
  obtain rfl : j = i := hj
  exact ⟨l, b, hr, hb, ((hm.links j c hc).count l b _ hb hback).1, hback⟩

/-- The list of a count field that passed, and the type of the count. -/
theorem exists_counted (hm : Bound m) (hc : m.classes[i]? = some c)
    (hcheck : (check sized m i c).hasErrors = false) {k : Nat} {a : Attribute}
    (ha : c.attributes[k]? = some a) (hcount : a.isCount = true) :
    ∃ l b t, a.countedList? = some ⟨i, l⟩ ∧ c.attributes[l]? = some b ∧
      b.isVariableList = true ∧ b.countField? = some ⟨i, k⟩ ∧ a.primitive? = some t ∧
      t.kind.isInteger = true := by
  have hmem := List.mem_of_getElem? ha
  have hcls := List.mem_of_getElem? hc
  have hcountable := hm.countable c hcls a hmem hcount
  simp only [Resolve.isCountable, Bool.and_eq_true] at hcountable
  have hshape : a.shape = some .primitive := by simpa [Attribute.isPrimitive] using hcountable.1
  have hnotList : a.isVariableList = false := by simp [Attribute.isVariableList, hshape]
  have herr := (check_count hcheck ha).2 hnotList hcount
  have htype := hm.types c hcls a hmem
  rw [Resolve.TypeBound, hshape] at htype
  obtain ⟨t, ht⟩ := Option.isSome_iff_exists.mp htype.1
  cases hlink : a.countedList? with
  | none => simp [checkCount, hlink] at herr
  | some r =>
      obtain ⟨j, l⟩ := r
      obtain ⟨-, -, hj, b, hb, hback⟩ := (hm.links i c hc).count k a _ ha hlink
      obtain rfl : j = i := hj
      refine ⟨l, b, t, rfl, hb, ((hm.links j c hc).list l b _ hb hback).1, hback, ht, ?_⟩
      simpa [ht] using hcountable.2

/-- The count of a serialized list that passed is serialized and comes first. -/
theorem count_before (hm : Bound m) (hc : m.classes[i]? = some c)
    (hcheck : (check sized m i c).hasErrors = false) {k : Nat} {a : Attribute}
    (ha : c.attributes[k]? = some a) (hvar : a.isVariableList = true) (hser : a.serialize = true) :
    ∃ j b, j < k ∧ a.countField? = some ⟨i, j⟩ ∧ c.attributes[j]? = some b ∧ b.isCount = true ∧
      b.countedList? = some ⟨i, k⟩ ∧ b.serialize = true := by
  obtain ⟨j, b, hlink, hb, hcount, hback⟩ := exists_count hm hc ha hvar
  have herr := (check_count hcheck ha).1 hvar
  simp only [checkList, hlink, attribute?_own hc, hb, hback, ne_eq, not_true_eq_false, or_self,
    if_false, hser, Bool.not_true, Bool.false_eq_true] at herr
  have hbser : b.serialize = true := by
    by_contra hneg
    rw [Bool.not_eq_true] at hneg
    simp [hneg] at herr
  have hle : ¬ k < j := by
    intro hlt
    simp [hbser, hlt] at herr
  have hne : j ≠ k := by
    rintro rfl
    rw [ha] at hb
    obtain rfl := Option.some.inj hb
    have hprim := hm.countable c (List.mem_of_getElem? hc) a (List.mem_of_getElem? ha) hcount
    simp only [Resolve.isCountable, Bool.and_eq_true, Attribute.isPrimitive, beq_iff_eq] at hprim
    simp [Attribute.isVariableList, hprim.1] at hvar
  exact ⟨j, b, by omega, hlink, hb, hcount, hback, hbser⟩

/-! ## Soundness -/

/-- The field of an attribute of a type. -/
theorem Derived.exists_field {p : Plan} (h : Derived m c p) {k : Nat} {a : Attribute}
    (ha : c.attributes[k]? = some a) : ∃ f, p.fields[k]? = some f ∧ FieldSpec m a f :=
  forall₂_getElem? h.fields ha

/-- The attribute of a field of a plan. -/
theorem Derived.exists_attribute {p : Plan} (h : Derived m c p) {k : Nat} {f : Field}
    (hf : p.fields[k]? = some f) : ∃ a, c.attributes[k]? = some a ∧ FieldSpec m a f :=
  forall₂_getElem? (R := fun f a => FieldSpec m a f) h.fields.flip hf

theorem Derived.nodup {p : Plan} (hm : Bound m) (hc : m.classes[i]? = some c)
    (h : Derived m c p) : (p.fields.map (·.name)).Nodup := by
  have hnames : p.fields.map (·.name) = c.attributes.map (·.name) := by
    have heq : List.Forall₂ (fun (a : Attribute) (f : Field) => a.name = f.name) c.attributes
        p.fields := h.fields.imp fun _ _ hspec => hspec.name.symm
    exact (List.forall₂_eq_eq_eq ▸ List.forall₂_map_left_iff.mpr
      (List.forall₂_map_right_iff.mpr heq) : c.attributes.map (·.name) = _).symm
  rw [hnames]
  exact hm.attributes_nodup c (List.mem_of_getElem? hc)

theorem FieldSpec.stored_of {a : Attribute} {f : Field} (hspec : FieldSpec m a f)
    (hcount : a.isCount = false) : f.stored = true ∧ f.countOf = "" := by
  rw [hspec.stored, hspec.countOf, hcount]
  exact ⟨rfl, rfl⟩

/-- The field of a list that a count field is bound to. -/
theorem FieldSpec.countOf_eq {a b : Attribute} {f : Field} {l : Nat} (hspec : FieldSpec m a f)
    (hc : m.classes[i]? = some c) (hcount : a.isCount = true)
    (hlink : a.countedList? = some ⟨i, l⟩) (hb : c.attributes[l]? = some b) :
    f.countOf = b.name := by
  simp [hspec.countOf, hcount, hlink, attributeName, attribute?_own hc, hb]

/-- The count field that a list is bound to. -/
theorem FieldSpec.countField_eq {a b : Attribute} {f : Field} {j : Nat} (hspec : FieldSpec m a f)
    (hc : m.classes[i]? = some c) (hvar : a.isVariableList = true)
    (hlink : a.countField? = some ⟨i, j⟩) (hb : c.attributes[j]? = some b) :
    f.countField = b.name := by
  simp [hspec.countField, hvar, hlink, attributeName, attribute?_own hc, hb]

theorem Derived.field_sound {p : Plan} (hm : Bound m) (hc : m.classes[i]? = some c)
    (hcheck : (check sized m i c).hasErrors = false) (h : Derived m c p) {f : Field}
    (hf : f ∈ p.fields) : f.Sound p := by
  obtain ⟨k, hk⟩ := List.mem_iff_getElem?.mp hf
  obtain ⟨a, ha, hspec⟩ := h.exists_attribute hk
  have hmem := List.mem_of_getElem? ha
  have hcls := List.mem_of_getElem? hc
  have htype := hm.types c hcls a hmem
  have hprim : a.isCount = true → a.shape = some .primitive := by
    intro hcount
    simpa [Attribute.isPrimitive] using hm.count_isPrimitive hcls hmem hcount
  have hnocount : f.shape ≠ .primitive → a.isCount = false := by
    intro hne
    by_contra hcount
    have hshape := hprim (by simpa using hcount)
    rw [hspec.shape] at hshape
    exact hne (Option.some.inj hshape)
  unfold Resolve.TypeBound at htype
  rw [hspec.shape] at htype
  cases hshape : f.shape with
  | primitive =>
      rw [hshape] at htype
      obtain ⟨t, ht⟩ := Option.isSome_iff_exists.mp htype.1
      have helem : f.elem = .primitive t := by rw [hspec.elem, elementOf, ht]
      cases hcount : a.isCount with
      | false =>
          obtain ⟨hstored, hof⟩ := hspec.stored_of hcount
          refine .number t hshape helem hstored hof ?_
          intro s hs
          obtain ⟨t', literal, ht', -, hparse⟩ := hspec.default s hs
          rw [ht] at ht'
          exact (Option.some.inj ht') ▸ Primitive.parse_kind hparse
      | true =>
          obtain ⟨l, b, t', hlink, hb, hvar, hback, ht', hint⟩ :=
            exists_counted hm hc hcheck ha hcount
          obtain rfl : t = t' := by rw [ht] at ht'; exact Option.some.inj ht'
          obtain ⟨g, hg, hgspec⟩ := h.exists_field hb
          refine .count t g hshape helem (by rw [hspec.stored, hcount]; rfl) hint
            (List.mem_of_getElem? hg) ?_ ?_ ?_
          · rw [hgspec.name, hspec.countOf_eq hc hcount hlink hb]
          · have hgshape := hgspec.shape
            simp only [Attribute.isVariableList, beq_iff_eq] at hvar
            rw [hvar] at hgshape
            exact (Option.some.inj hgshape).symm
          · rw [hgspec.countField_eq hc hvar hback ha, hspec.name]
  | reference =>
      rw [hshape] at htype
      obtain ⟨hnone, j, hj, -⟩ := htype
      obtain ⟨hstored, hof⟩ := hspec.stored_of (hnocount (by simp [hshape]))
      exact .reference (m.className j) hshape (by rw [hspec.elem, elementOf, hnone, hj]) hstored hof
  | fixedList n =>
      obtain ⟨hstored, hof⟩ := hspec.stored_of (hnocount (by simp [hshape]))
      have hash : a.shape = some (.fixedList n) := by rw [hspec.shape, hshape]
      refine .fixedList n hshape ?_ (fixedList_pos hcheck hmem hash) hstored hof
      simp [hspec.length, Attribute.listLength, Attribute.fixedLength?, hash]
  | variableList =>
      obtain ⟨hstored, hof⟩ := hspec.stored_of (hnocount (by simp [hshape]))
      have hvar : a.isVariableList = true := by
        simp [Attribute.isVariableList, hspec.shape, hshape]
      obtain ⟨j, b, hlink, hb, hcount, hback⟩ := exists_count hm hc ha hvar
      obtain ⟨g, hg, hgspec⟩ := h.exists_field hb
      refine .variableList g hshape hstored hof (List.mem_of_getElem? hg) ?_ ?_ ?_
      · rw [hgspec.name, hspec.countField_eq hc hvar hlink hb]
      · rw [hgspec.stored, hcount]
        rfl
      · rw [hgspec.countOf_eq hc hcount hback ha, hspec.name]

theorem Derived.counted {p : Plan} (hm : Bound m) (hc : m.classes[i]? = some c)
    (hcheck : (check sized m i c).hasErrors = false) (h : Derived m c p) {pre post : List Field}
    {f : Field} (hsplit : p.fields = pre ++ f :: post) (hser : f.serialized = true)
    (hshape : f.shape = .variableList) :
    ∃ k ∈ pre, k.serialized = true ∧ k.name = f.countField ∧ k.stored = false ∧
      k.countOf = f.name := by
  have hk : p.fields[pre.length]? = some f := by simp [hsplit]
  obtain ⟨a, ha, hspec⟩ := h.exists_attribute hk
  have hvar : a.isVariableList = true := by simp [Attribute.isVariableList, hspec.shape, hshape]
  obtain ⟨j, b, hlt, hlink, hb, hcount, hback, hbser⟩ :=
    count_before hm hc hcheck ha hvar (by rw [← hspec.serialized, hser])
  obtain ⟨g, hg, hgspec⟩ := h.exists_field hb
  refine ⟨g, ?_, ?_, ?_, ?_, ?_⟩
  · rw [hsplit, List.getElem?_append_left hlt] at hg
    exact List.mem_of_getElem? hg
  · rw [hgspec.serialized, hbser]
  · rw [hgspec.name, hspec.countField_eq hc hvar hlink hb]
  · rw [hgspec.stored, hcount]
    rfl
  · rw [hgspec.countOf_eq hc hcount hback ha, hspec.name]

/-- Only the step of a count looks at whether it is discarded. -/
theorem Field.step_stored {f : Field} (hstored : f.stored = true) (d d' : Bool) :
    f.step d = f.step d' := by
  unfold Field.step
  cases f.shape with
  | primitive =>
      cases f.elem with
      | primitive t => simp [hstored]
      | message name => rfl
  | reference | fixedList n | variableList => rfl

theorem Derived.discardsCount_eq {p : Plan} (hm : Bound m) (hc : m.classes[i]? = some c)
    (hcheck : (check sized m i c).hasErrors = false) (h : Derived m c p) {k : Nat}
    {a : Attribute} {f : Field} (ha : c.attributes[k]? = some a) (hspec : FieldSpec m a f)
    (hcount : a.isCount = true) : p.discardsCount f = discards m a := by
  obtain ⟨l, b, t, hlink, hb, -, -, -, -⟩ := exists_counted hm hc hcheck ha hcount
  obtain ⟨g, hg, hgspec⟩ := h.exists_field hb
  have hname : g.name = f.countOf := by rw [hgspec.name, hspec.countOf_eq hc hcount hlink hb]
  have hdiscard : discards m a = !g.serialized := by
    simp [discards, hlink, attribute?_own hc, hb, hgspec.serialized]
  rw [hdiscard, discardsCount, Bool.eq_iff_iff, List.any_eq_true]
  constructor
  · rintro ⟨g', hg', hmatch⟩
    simp only [Bool.and_eq_true, beq_iff_eq] at hmatch
    -- The name is taken only once.
    have hsame : g' = g := by
      refine List.inj_on_of_nodup_map (h.nodup hm hc) hg' (List.mem_of_getElem? hg) ?_
      rw [hmatch.1, hname]
    exact hsame ▸ hmatch.2
  · intro hser
    exact ⟨g, List.mem_of_getElem? hg, by simp [hname, hser]⟩

/-- The steps of parts are the steps of their fields. -/
theorem flatMap_decode {attrs : List Attribute} {parts : List Part} {discard : Field → Bool}
    (h : List.Forall₂ (PartSpec m) attrs parts)
    (hdiscard : List.Forall₂ (fun (a : Attribute) (part : Part) =>
      part.field.step (discards m a) = part.field.step (discard part.field)) attrs parts) :
    parts.flatMap (·.decode) =
      ((parts.map (·.field)).filter (·.serialized)).map fun f => f.step (discard f) := by
  induction h with
  | nil => rfl
  | cons hpart _ ih =>
      obtain ⟨hhead, htail⟩ := List.forall₂_cons.mp hdiscard
      rw [List.flatMap_cons, hpart.decode, ih htail, List.map_cons, List.filter_cons]
      split
      · rw [hhead, List.map_cons]
        rfl
      · rfl

theorem flatMap_defaults {attrs : List Attribute} {parts : List Part}
    (h : List.Forall₂ (PartSpec m) attrs parts) :
    parts.flatMap (·.defaults) =
      ((parts.map (·.field)).filter (·.stored)).map fun f => ⟨f.name, f.elem, f.rule⟩ := by
  induction h with
  | nil => rfl
  | cons hpart _ ih =>
      rw [List.flatMap_cons, hpart.defaults, ih, List.map_cons, List.filter_cons]
      split <;> rfl

/-- **A plan that passed every check keeps what plans promise.** -/
theorem Derived.sound {p : Plan} (hm : Bound m) (hc : m.classes[i]? = some c)
    (hcheck : (check sized m i c).hasErrors = false) (h : Derived m c p) : p.Sound := by
  obtain ⟨parts, hparts, hfields, hdecode, hdefaults, haccessors⟩ := h.decode
  refine ⟨h.nodup hm hc, fun f hf => h.field_sound hm hc hcheck hf,
    fun pre f post hsplit hser hshape => h.counted hm hc hcheck hsplit hser hshape, ?_, h.encode,
    ?_, ?_⟩
  · rw [hdecode, hfields]
    congr 1
    refine flatMap_decode hparts (List.forall₂_iff_get.mpr ⟨hparts.length_eq, ?_⟩)
    intro k hk hk'
    have hpart := (List.forall₂_iff_get.mp hparts).2 k hk hk'
    have ha : c.attributes[k]? = some (c.attributes.get ⟨k, hk⟩) := by simp
    generalize c.attributes.get ⟨k, hk⟩ = a at hpart ha ⊢
    generalize parts.get ⟨k, hk'⟩ = part at hpart ⊢
    cases hcount : a.isCount with
    | false => exact Field.step_stored (hpart.field.stored_of hcount).1 _ _
    | true => rw [← h.discardsCount_eq hm hc hcheck ha hpart.field hcount]
  · rw [hdefaults, hfields]
    exact flatMap_defaults hparts
  · intro x hx
    rw [haccessors] at hx
    obtain ⟨part, hpart, hxpart⟩ := List.mem_flatMap.mp hx
    obtain ⟨k, hk⟩ := List.mem_iff_getElem?.mp hpart
    obtain ⟨a, -, hspec⟩ :=
      forall₂_getElem? (R := fun part a => PartSpec m a part) hparts.flip hk
    obtain ⟨hname, hshape, helem⟩ := hspec.accessors x hxpart
    exact ⟨part.field, hfields ▸ List.mem_map_of_mem hpart, hname.symm, hshape, helem⟩

end Checked

end WireSchema.Plan
