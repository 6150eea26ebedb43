import Mathlib
import WireSchema.Proofs.Plan.Total
import WireSchema.Proofs.Plan.Types

/-!
# The lists of a plan keep in step

A plan lists the attributes of its type several times over: as steps that write, as steps that read,
as terms of a size, as comparisons and as first values.  Whoever runs a plan goes through one of
these lists and trusts that it says the same as the others.  This module says what each entry is in
terms of the attribute alone, and that each list has exactly the entries of the attributes it is
about, in the order of their declaration.

* `StepSpec`, `TermSpec`, `ComparisonSpec` and `DefaultSpec` are the entries of one attribute.
* `Mirrors` relates a step that writes to the one that reads the same.
* `InStep` is what holds of a whole plan.

## Main results

* `derive_inStep` — a type of a resolved model that passed the checks has a plan, and its lists are
  in step, whether or not the plan has a size.
-/

namespace WireSchema

namespace Number

/-- Words added up one after another. -/
def wordSum (words : List Int) : Int := words.foldl (fun sum word => wrap (sum + word)) 0

/-- A sum may wrap around on the way, in the end it has wrapped around as a whole. -/
theorem foldl_wrap (words : List Int) (sum : Int) :
    words.foldl (fun sum word => wrap (sum + word)) (wrap sum) = wrap (sum + words.sum) := by
  induction words generalizing sum with
  | nil => simp
  | cons word words ih =>
      have hearly : wrap (wrap sum + word) = wrap (sum + word) := Int.bmod_add_bmod
      rw [List.foldl_cons, hearly, ih, List.sum_cons, Int.add_assoc]

theorem wordSum_eq (words : List Int) : wordSum words = wrap words.sum := by
  have hzero : wrap 0 = 0 := by decide
  rw [wordSum, ← hzero, foldl_wrap, Int.zero_add]

end Number

namespace Plan

open Resolve (Bound DefaultBound)

/-! ## The entries of one attribute -/

/-- A step that writes and the step that reads the same: they are of one kind and agree in field,
list, element, type and length. -/
inductive Mirrors : EncodeStep → DecodeStep → Prop where
  | parent (name : String) : Mirrors (.parent name) (.parent name)
  | primitive (field : String) (type : Primitive) :
      Mirrors (.primitive field type) (.primitive field type)
  | count (field list : String) (type : Primitive) (discard : Bool) :
      Mirrors (.count field list type) (.count field list type discard)
  | reference (field cls : String) : Mirrors (.reference field cls) (.reference field cls)
  | fixedList (field : String) (length : Int) (elem : Element) :
      Mirrors (.fixedList field length elem) (.fixedList field length elem)
  | variableList (field : String) (elem : Element) (countField : String) :
      Mirrors (.variableList field elem) (.variableList field elem countField)

/-- The step that reads an attribute. -/
inductive StepSpec (m : Model) (a : Attribute) : DecodeStep → Prop where
  | number (t : Primitive) (shape : a.shape = some .primitive) (stored : a.isCount = false)
      (type : a.primitive? = some t) : StepSpec m a (.primitive a.name t)
  /-- A count is discarded if its list is not on the wire. -/
  | count (t : Primitive) (r : AttrRef) (list : Attribute) (shape : a.shape = some .primitive)
      (unstored : a.isCount = true) (type : a.primitive? = some t)
      (counts : a.countedList? = some r) (bound : m.attribute? r = some list) :
      StepSpec m a (.count a.name list.name t (!list.serialize))
  | reference (i : Nat) (shape : a.shape = some .reference) (type : a.class? = some i) :
      StepSpec m a (.reference a.name (m.className i))
  | fixedList (n : Int) (shape : a.shape = some (.fixedList n)) :
      StepSpec m a (.fixedList a.name n (elementOf m a))
  | variableList (r : AttrRef) (count : Attribute) (shape : a.shape = some .variableList)
      (counted : a.countField? = some r) (bound : m.attribute? r = some count) :
      StepSpec m a (.variableList a.name (elementOf m a) count.name)

/-- The term of an attribute in the size of its type. -/
inductive TermSpec (m : Model) (a : Attribute) : SizeTerm → Prop where
  | number (t : Primitive) (shape : a.shape = some .primitive) (type : a.primitive? = some t) :
      TermSpec m a ⟨a.name, .static t.wireBytes 0⟩
  | reference (i : Nat) (shape : a.shape = some .reference) (type : a.class? = some i) :
      TermSpec m a ⟨a.name, .reference (m.className i)⟩
  | fixedNumbers (n : Int) (t : Primitive) (shape : a.shape = some (.fixedList n))
      (elem : elementOf m a = .primitive t) :
      TermSpec m a ⟨a.name, .static (Number.wrap (n * t.wireBytes)) n⟩
  | fixedMessages (n : Int) (name : String) (shape : a.shape = some (.fixedList n))
      (elem : elementOf m a = .message name) : TermSpec m a ⟨a.name, .elementSum name n⟩
  | numbers (t : Primitive) (shape : a.shape = some .variableList)
      (elem : elementOf m a = .primitive t) : TermSpec m a ⟨a.name, .countTimesWidth t.wireBytes⟩
  | messages (name : String) (shape : a.shape = some .variableList)
      (elem : elementOf m a = .message name) : TermSpec m a ⟨a.name, .elementSum name 0⟩

/-- The comparison of an attribute. -/
inductive ComparisonSpec (m : Model) (a : Attribute) : Comparison → Prop where
  | number (shape : a.shape = some .primitive) :
      ComparisonSpec m a ⟨a.name, elementOf m a, .value⟩
  | reference (shape : a.shape = some .reference) :
      ComparisonSpec m a ⟨a.name, elementOf m a, .reference⟩
  | fixedList (n : Int) (shape : a.shape = some (.fixedList n)) :
      ComparisonSpec m a ⟨a.name, elementOf m a, .fixedList n⟩
  | variableList (shape : a.shape = some .variableList) :
      ComparisonSpec m a ⟨a.name, elementOf m a, .variableList⟩

/-- The first value of an attribute. -/
inductive DefaultSpec (m : Model) (a : Attribute) : FieldDefault → Prop where
  | given (t : Primitive) (literal : String) (s : Scalar) (shape : a.shape = some .primitive)
      (type : a.primitive? = some t) (default : a.default? = some literal)
      (value : t.parse literal = .ok s) : DefaultSpec m a ⟨a.name, elementOf m a, .value s true⟩
  | zero (t : Primitive) (shape : a.shape = some .primitive) (type : a.primitive? = some t)
      (plain : a.default? = none) : DefaultSpec m a ⟨a.name, elementOf m a, .value t.zero false⟩
  | reference (shape : a.shape = some .reference) :
      DefaultSpec m a ⟨a.name, elementOf m a, .construct⟩
  | fixedList (n : Int) (shape : a.shape = some (.fixedList n)) :
      DefaultSpec m a ⟨a.name, elementOf m a, .zeroList n⟩
  | variableList (shape : a.shape = some .variableList) :
      DefaultSpec m a ⟨a.name, elementOf m a, .emptyList⟩

/-- The numbers of bytes that a size knows beforehand. -/
def SizeExpression.staticBytes (s : SizeExpression) : List Int :=
  (s.terms.filter (·.rule.isStatic)).map (·.rule.bytes)

/-- The size of a type, made up of the terms of its serialized attributes. -/
structure SizeSpec (m : Model) (c : Class) (s : SizeExpression) : Prop where
  parent : s.parent = if c.hasParent then c.parent else ""
  terms : List.Forall₂ (TermSpec m) (c.attributes.filter (·.serialize)) s.terms
  fixed : s.fixed = Number.wordSum s.staticBytes
  /-- A sum that fits a word is exact. -/
  exact : -0x8000000000000000 ≤ s.staticBytes.sum → s.staticBytes.sum < 0x8000000000000000 →
    s.fixed = s.staticBytes.sum

/-- The lists of a plan are in step with the attributes of its type, and so with each other. -/
structure InStep (sized : Bool) (m : Model) (c : Class) (p : Plan) : Prop where
  mirrored : List.Forall₂ Mirrors p.encode p.decode
  steps : ∃ steps, p.decode = (if c.hasParent then [.parent c.parent] else []) ++ steps ∧
    List.Forall₂ (StepSpec m) (c.attributes.filter (·.serialize)) steps
  fields : List.Forall₂ (FieldSpec m) c.attributes p.fields
  comparisons :
    List.Forall₂ (ComparisonSpec m) (c.attributes.filter fun a => !a.isCount) p.comparisons
  defaults : List.Forall₂ (DefaultSpec m) (c.attributes.filter fun a => !a.isCount) p.defaults
  unsized : sized = false → p.size? = none
  size : sized = true → ∃ s, p.size? = some s ∧ SizeSpec m c s

theorem mirrors_write (step : DecodeStep) : Mirrors step.write step := by
  cases step <;> constructor

/-! ## Entries of fields -/

section Entries

variable {m : Model} {sized : Bool} {i : Nat} {c : Class}

/-- A field of each shape is compared as its attribute is. -/
theorem FieldSpec.comparison {a : Attribute} {f : Field} (hspec : FieldSpec m a f) :
    ComparisonSpec m a ⟨f.name, f.elem, f.compareRule⟩ := by
  have hshape := hspec.shape
  rw [hspec.name, hspec.elem]
  unfold Field.compareRule
  cases hf : f.shape with
  | primitive => exact .number (hf ▸ hshape)
  | reference => exact .reference (hf ▸ hshape)
  | fixedList n => exact .fixedList n (hf ▸ hshape)
  | variableList => exact .variableList (hf ▸ hshape)

/-- The first value of a stored field. -/
theorem FieldSpec.firstValue {a : Attribute} {f : Field} (hspec : FieldSpec m a f)
    (hbound : Resolve.TypeBound m a) (hstored : a.isCount = false) :
    DefaultSpec m a ⟨f.name, f.elem, f.rule⟩ := by
  have hshape := hspec.shape
  unfold Resolve.TypeBound at hbound
  rw [hshape] at hbound
  rw [hspec.name]
  unfold Field.rule
  cases hf : f.shape with
  | primitive =>
      rw [hf] at hshape hbound
      obtain ⟨t, ht⟩ := Option.isSome_iff_exists.mp hbound.1
      have helem : f.elem = .primitive t := by rw [hspec.elem, elementOf, ht]
      cases hdefault : f.default? with
      | some s =>
          obtain ⟨t', literal, ht', hliteral, hparse⟩ := hspec.default s hdefault
          rw [hspec.elem]
          exact .given t' literal s hshape ht' hliteral hparse
      | none =>
          have hprim : a.isPrimitive = true := by simp [Attribute.isPrimitive, hshape]
          have hplain := hspec.plain hdefault hprim hstored hbound.1
          simp only [helem]
          rw [← helem, hspec.elem]
          exact .zero t hshape ht hplain
  | reference =>
      rw [hspec.elem]
      exact .reference (hf ▸ hshape)
  | fixedList n =>
      rw [hspec.elem]
      exact .fixedList n (hf ▸ hshape)
  | variableList =>
      rw [hspec.elem]
      exact .variableList (hf ▸ hshape)

/-- What a field adds to a size is what its attribute does. -/
theorem FieldSpec.term {a : Attribute} {f : Field} (hspec : FieldSpec m a f)
    (hbound : Resolve.TypeBound m a) : TermSpec m a ⟨f.name, f.sizeRule⟩ := by
  have hshape := hspec.shape
  have helem := hspec.elem
  unfold Resolve.TypeBound at hbound
  rw [hshape] at hbound
  rw [hspec.name]
  unfold Field.sizeRule
  cases hf : f.shape with
  | primitive =>
      rw [hf] at hshape hbound
      obtain ⟨t, ht⟩ := Option.isSome_iff_exists.mp hbound.1
      have hprim : f.elem = .primitive t := by rw [helem, elementOf, ht]
      rw [hprim]
      exact .number t hshape ht
  | reference =>
      rw [hf] at hshape hbound
      obtain ⟨hnone, j, hj, -⟩ := hbound
      have hmessage : f.elem = .message (m.className j) := by rw [helem, elementOf, hnone, hj]
      rw [hmessage]
      exact .reference j hshape hj
  | fixedList n =>
      rw [hf] at hshape
      cases he : f.elem with
      | primitive t => exact .fixedNumbers n t hshape (helem ▸ he)
      | message name => exact .fixedMessages n name hshape (helem ▸ he)
  | variableList =>
      rw [hf] at hshape
      cases he : f.elem with
      | primitive t => exact .numbers t hshape (helem ▸ he)
      | message name => exact .messages name hshape (helem ▸ he)

/-- The step of a field of a plan that passed the checks. -/
theorem Derived.step {p : Plan} (hm : Bound m) (hc : m.classes[i]? = some c)
    (hcheck : (check sized m i c).hasErrors = false) (h : Derived m c p) {a : Attribute}
    {f : Field} (ha : a ∈ c.attributes) (hspec : FieldSpec m a f) :
    StepSpec m a (f.step (p.discardsCount f)) := by
  obtain ⟨k, hk⟩ := List.mem_iff_getElem?.mp ha
  have hshape := hspec.shape
  have helem := hspec.elem
  have hbound := hm.types c (List.mem_of_getElem? hc) a ha
  unfold Resolve.TypeBound at hbound
  rw [hshape] at hbound
  unfold Field.step
  rw [hspec.name]
  cases hf : f.shape with
  | primitive =>
      rw [hf] at hshape hbound
      obtain ⟨t, ht⟩ := Option.isSome_iff_exists.mp hbound.1
      have hprim : f.elem = .primitive t := by rw [helem, elementOf, ht]
      simp only [hprim, hspec.stored]
      cases hcount : a.isCount with
      | false => exact .number t hshape hcount ht
      | true =>
          obtain ⟨l, list, -, hlink, hl, -, -, -, -⟩ := exists_counted hm hc hcheck hk hcount
          have hat : m.attribute? ⟨i, l⟩ = some list := by rw [attribute?_own hc, hl]
          have hdiscard : discards m a = !list.serialize := by simp [discards, hlink, hat]
          rw [h.discardsCount_eq hm hc hcheck hk hspec hcount, hdiscard,
            hspec.countOf_eq hc hcount hlink hl]
          exact .count t ⟨i, l⟩ list hshape hcount ht hlink hat
  | reference =>
      rw [hf] at hshape hbound
      obtain ⟨hnone, j, hj, -⟩ := hbound
      have hname : f.elem.name = m.className j := by rw [helem, elementOf, hnone, hj]; rfl
      rw [hname]
      exact .reference j hshape hj
  | fixedList n =>
      rw [helem]
      exact .fixedList n (hf ▸ hshape)
  | variableList =>
      rw [hf] at hshape
      have hvar : a.isVariableList = true := by simp [Attribute.isVariableList, hshape]
      obtain ⟨j, count, hlink, hj, -, -⟩ := exists_count hm hc hk hvar
      rw [helem, hspec.countField_eq hc hvar hlink hj]
      exact .variableList ⟨i, j⟩ count hshape hlink (by rw [attribute?_own hc, hj])

end Entries

/-! ## Whole lists -/

section Lists

variable {m : Model} {sized : Bool} {i : Nat} {c : Class} {p : Plan}

/-- A list with an item for each field of some sort has an item for each attribute of that sort. -/
theorem forall₂_items {α : Type} {Q : Attribute → α → Prop} {keep : Attribute → Bool}
    {keepField : Field → Bool} {item : Field → α} {attrs : List Attribute} {fields : List Field}
    (h : List.Forall₂ (FieldSpec m) attrs fields)
    (hkeep : ∀ a f, FieldSpec m a f → keep a = keepField f)
    (hitem : ∀ a ∈ attrs, keep a = true → ∀ f, FieldSpec m a f → Q a (item f)) :
    List.Forall₂ Q (attrs.filter keep) ((fields.filter keepField).map item) := by
  have hkept : List.Forall₂ (FieldSpec m) (attrs.filter keep) (fields.filter keepField) := by
    refine List.rel_filter (fun a f hspec => ?_) h
    exact Bool.eq_iff_iff.mp (hkeep a f hspec)
  have hmem : ∀ a ∈ attrs.filter keep, a ∈ attrs ∧ keep a = true :=
    fun a ha => List.mem_filter.mp ha
  refine List.forall₂_map_right_iff.mpr ?_
  exact ((List.forall₂_and_left _ _).mpr ⟨hmem, hkept⟩).imp
    fun a f ⟨⟨ha, hk⟩, hspec⟩ => hitem a ha hk f hspec

/-- The static parts of a size come to the sum of its static terms. -/
theorem SizeExpression.fixed_eq_wrap (s : SizeExpression) :
    s.fixed = Number.wrap s.staticBytes.sum := by
  rw [SizeExpression.fixed, staticBytes, List.sum_eq_foldr, List.foldr_map]

/-- Whether a plan is asked for its size does not decide whether there is one. -/
theorem derive_any_size {checked : Bool} (h : derive checked m c = .ok p) (sized : Bool) :
    ∃ q, derive sized m c = .ok q := by
  obtain ⟨parts, assignments, hparts, hvalues, -⟩ := derive_parts h
  exact ⟨_, by rw [derive, hparts, hvalues]; rfl⟩

/-- The size of the plan of a bound type. -/
theorem Derived.size (h : Derived m c p)
    (hbound : ∀ a ∈ c.attributes, Resolve.TypeBound m a) : SizeSpec m c p.fieldSizes where
  parent := h.parentName
  terms := forall₂_items h.fields (fun _ _ hspec => hspec.serialized.symm)
    fun a ha _ _ hspec => hspec.term (hbound a ha)
  fixed := by rw [SizeExpression.fixed_eq_wrap, Number.wordSum_eq]
  exact low high := by rw [SizeExpression.fixed_eq_wrap, Number.wrap_of_inRange low high]

/-- The lists of a plan that passed the checks are in step. -/
theorem Derived.inStep {checked : Bool} (hm : Bound m) (hc : m.classes[i]? = some c)
    (hcheck : (check checked m i c).hasErrors = false) (hderive : derive sized m c = .ok p)
    (h : Derived m c p) : InStep sized m c p := by
  have hcls := List.mem_of_getElem? hc
  have hprim : ∀ a ∈ c.attributes, a.isCount = true → a.isPrimitive = true :=
    fun _ => hm.count_isPrimitive hcls
  have hstored : ∀ a f, FieldSpec m a f → (!a.isCount) = f.stored :=
    fun _ _ hspec => hspec.stored.symm
  have hsound := h.sound hm hc hcheck
  have hparent : p.parentSteps = if c.hasParent then [.parent c.parent] else [] := by
    simp only [parentSteps, hasParent, h.parentName, hasParent_parentName]
    cases c.hasParent <;> rfl
  refine ⟨?_, ⟨_, hparent ▸ hsound.decode, ?_⟩, h.fields, ?_, ?_, ?_, ?_⟩
  · rw [h.encode]
    exact List.forall₂_map_left_iff.mpr (List.forall₂_same.mpr fun step _ => mirrors_write step)
  · exact forall₂_items h.fields (fun _ _ hspec => hspec.serialized.symm)
      fun a ha _ f hspec => h.step hm hc hcheck ha hspec
  · rw [derive_comparisons hprim hderive]
    exact forall₂_items h.fields hstored fun _ _ _ _ hspec => hspec.comparison
  · rw [hsound.defaults]
    refine forall₂_items h.fields hstored fun a ha hkept f hspec => ?_
    exact hspec.firstValue (hm.types c hcls a ha) (by simpa using hkept)
  · rintro rfl
    obtain ⟨-, -, -, -, rfl⟩ := derive_parts hderive
    rfl
  · rintro rfl
    exact ⟨p.fieldSizes, derive_size (hm.types c hcls) hderive, h.size (hm.types c hcls)⟩

end Lists

/-! ## Plans of a resolved model -/

/-- **The lists of a plan keep in step.**  Every type of a resolved model that passes the checks,
whatever they were asked to check, has a plan with a size and one without.  In both, what is written
is what is read: the parent first, if there is one, then each serialized attribute.  Every attribute
has its field, every attribute that is not a count its comparison and its first value, and in the
size every serialized attribute its term. -/
theorem derive_inStep {catalog : Catalog} {limit : Int} {raw : Model}
    (hresolve : (Resolve.run catalog limit raw).succeeded = true) {i : Nat} {c : Class}
    (hc : (Resolve.run catalog limit raw).model.classes[i]? = some c) {checked : Bool}
    (hcheck : (check checked (Resolve.run catalog limit raw).model i c).hasErrors = false)
    (sized : Bool) :
    ∃ p, derive sized (Resolve.run catalog limit raw).model c = .ok p ∧
      InStep sized (Resolve.run catalog limit raw).model c p := by
  have hm := Resolve.run_bound hresolve
  have hcls := List.mem_of_getElem? hc
  obtain ⟨p₀, hp₀⟩ := derive_total hm (Resolve.run_defaults hresolve) hc hcheck
  obtain ⟨p, hp⟩ := derive_any_size hp₀ sized
  have hprim : ∀ a ∈ c.attributes, a.isCount = true → a.isPrimitive = true :=
    fun _ => hm.count_isPrimitive hcls
  obtain ⟨hderived, -⟩ := derive_derived (hm.types c hcls) hprim hp
  exact ⟨p, hp, hderived.inStep hm hc hcheck hp⟩

namespace Survey

/-- A type with an attribute of each kind, one of them not serialized, and a parent. -/
def schema : Model where
  classes := [
    { name := "Base"
      attributes := [{ name := "id", shape := some .primitive, type := "unsigned short" }] },
    { name := "Point"
      attributes := [{ name := "x", shape := some .primitive, type := "byte" }] },
    { name := "Survey"
      parent := "Base"
      attributes := [
        { name := "mode", shape := some .primitive, type := "byte", default? := some "3" },
        { name := "note", shape := some .primitive, type := "unsigned int", serialize := false },
        { name := "origin", shape := some .reference, type := "Point" },
        { name := "marks", shape := some (.fixedList 4), type := "unsigned byte" },
        { name := "n", shape := some .primitive, type := "unsigned byte", isCount := true,
          counts := "points" },
        { name := "points", shape := some .variableList, type := "Point" }] }]

/-- The schema with its names bound. -/
def model : Model := (Resolve.run .standard 3 schema).model

/-- The type with its names bound. -/
def survey : Class := (model.classes[2]?).getD { name := "" }

theorem accepted : (Resolve.run .standard 3 schema).succeeded = true ∧
    model.classes[2]? = some survey ∧ (check true model 2 survey).hasErrors = false := by
  decide +kernel

end Survey

/-- The survey has its plans, and the checks for plans with sizes will do for those without. -/
theorem derive_inStep_survey :
    (Resolve.run .standard 3 Survey.schema).succeeded = true ∧
      Survey.model.classes[2]? = some Survey.survey ∧
      (check true Survey.model 2 Survey.survey).hasErrors = false ∧
      (∃ p, derive true Survey.model Survey.survey = .ok p ∧
        InStep true Survey.model Survey.survey p) ∧
      ∃ p, derive false Survey.model Survey.survey = .ok p ∧
        InStep false Survey.model Survey.survey p := by
  obtain ⟨hresolve, hc, hcheck⟩ := Survey.accepted
  exact ⟨hresolve, hc, hcheck, derive_inStep hresolve hc hcheck true,
    derive_inStep hresolve hc hcheck false⟩

end Plan

end WireSchema
