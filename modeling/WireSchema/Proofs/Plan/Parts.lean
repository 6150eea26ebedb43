import Mathlib
import WireSchema.Plan.Derive
import WireSchema.Proofs.Resolve.Bound

/-!
# What an attribute contributes to a plan

A plan keeps the fields of a type beside lists that were derived from the same attributes: the
steps that write and read, the first values, the text accessors.  This module says how each of these
lists is determined by the fields alone, so that later modules can argue about fields.

* `Field.step` is the step that reads a field, `DecodeStep.write` the step that writes the same.
* `Field.rule` is how a stored field gets its first value.

## Main results

* `partOf_spec` — what `partOf` returns, in these terms.
* `parse_kind` — a literal of a type is a number of the type's kind.
-/

namespace WireSchema

/-- A literal of a type is a number of the type's kind. -/
theorem Primitive.parse_kind {t : Primitive} {literal : String} {s : Scalar}
    (h : t.parse literal = .ok s) : s.kind = t.kind := by
  unfold Primitive.parse at h
  cases hformat : t.kind.format? with
  | some f =>
      simp only [hformat] at h
      split at h
      · cases h
      · split at h
        · cases h
          rfl
        · cases h
  | none =>
      simp only [hformat] at h
      split at h <;> split at h <;> first | cases h; rfl | cases h

namespace Plan

/-- The step that writes what a step reads. -/
def DecodeStep.write : DecodeStep → EncodeStep
  | .parent name => .parent name
  | .primitive f t => .primitive f t
  | .count f list t _ => .count f list t
  | .reference f cls => .reference f cls
  | .fixedList f n e => .fixedList f n e
  | .variableList f e _ => .variableList f e

namespace Field

/-- The step that reads a field; a count may be read to be discarded. -/
def step (discard : Bool) (f : Field) : DecodeStep :=
  match f.shape with
  | .primitive =>
      match f.elem with
      | .primitive t =>
          if f.stored then .primitive f.name t else .count f.name f.countOf t discard
      | .message name => .reference f.name name
  | .reference => .reference f.name f.elem.name
  | .fixedList n => .fixedList f.name n f.elem
  | .variableList => .variableList f.name f.elem f.countField

section Step

variable {f : Field} {t : Primitive} {discard : Bool}

theorem step_number (hshape : f.shape = .primitive) (helem : f.elem = .primitive t)
    (hstored : f.stored = true) : f.step discard = .primitive f.name t := by
  simp [step, hshape, helem, hstored]

theorem step_count (hshape : f.shape = .primitive) (helem : f.elem = .primitive t)
    (hunstored : f.stored = false) : f.step discard = .count f.name f.countOf t discard := by
  simp [step, hshape, helem, hunstored]

theorem step_reference (hshape : f.shape = .reference) :
    f.step discard = .reference f.name f.elem.name := by
  simp [step, hshape]

theorem step_fixedList {n : Int} (hshape : f.shape = .fixedList n) :
    f.step discard = .fixedList f.name n f.elem := by
  simp [step, hshape]

theorem step_variableList (hshape : f.shape = .variableList) :
    f.step discard = .variableList f.name f.elem f.countField := by
  simp [step, hshape]

end Step

/-- Only a count field has a count step. -/
theorem step_eq_count {g : Field} {f list : String} {t : Primitive} {discard discard' : Bool}
    (h : g.step discard = .count f list t discard') :
    g.name = f ∧ g.countOf = list ∧ g.stored = false ∧ discard = discard' := by
  unfold step at h
  split at h
  · split at h
    · cases hstored : g.stored with
      | true => simp [hstored] at h
      | false =>
          simp only [hstored, Bool.false_eq_true, if_false] at h
          cases h
          exact ⟨rfl, rfl, rfl, rfl⟩
    · cases h
  all_goals cases h

/-- Only a variable list has the step of one. -/
theorem step_eq_variableList {g : Field} {f count : String} {e : Element} {discard : Bool}
    (h : g.step discard = .variableList f e count) :
    g.shape = .variableList ∧ g.name = f ∧ g.elem = e ∧ g.countField = count := by
  unfold step at h
  split at h
  · split at h
    · split at h <;> cases h
    · cases h
  · cases h
  · cases h
  · cases h
    exact ⟨‹_›, rfl, rfl, rfl⟩

/-- How a stored field gets its first value. -/
def rule (f : Field) : DefaultRule :=
  match f.shape with
  | .primitive =>
      match f.default?, f.elem with
      | some s, _ => .value s true
      | none, .primitive t => .value t.zero false
      | none, .message _ => .construct
  | .reference => .construct
  | .fixedList n => .zeroList n
  | .variableList => .emptyList

end Field

/-- Whether the list of a count field stays off the wire, so that the count is read in vain. -/
def discards (m : Model) (a : Attribute) : Bool :=
  !((a.countedList?.bind m.attribute?).map (·.serialize)).getD true

/-- The storage of an attribute. -/
structure FieldSpec (m : Model) (a : Attribute) (f : Field) : Prop where
  name : f.name = a.name
  shape : a.shape = some f.shape
  elem : f.elem = elementOf m a
  length : f.length = a.listLength
  stored : f.stored = !a.isCount
  serialized : f.serialized = a.serialize
  countOf : f.countOf = if a.isCount then (a.countedList?.map (attributeName m)).getD "" else ""
  countField : f.countField =
    if a.isVariableList then (a.countField?.map (attributeName m)).getD "" else ""
  default : ∀ s, f.default? = some s → ∃ t literal, a.primitive? = some t ∧
    a.default? = some literal ∧ t.parse literal = .ok s
  /-- A number without a default was given none. -/
  plain : f.default? = none → a.isPrimitive = true → a.isCount = false →
    a.primitive?.isSome = true → a.default? = none

/-- The contribution of an attribute, in terms of its field. -/
structure PartSpec (m : Model) (a : Attribute) (part : Part) : Prop where
  field : FieldSpec m a part.field
  decode : part.decode =
    if part.field.serialized then [part.field.step (discards m a)] else []
  encode : part.encode = part.decode.map DecodeStep.write
  defaults : part.defaults =
    if part.field.stored then [⟨part.field.name, part.field.elem, part.field.rule⟩] else []
  accessors : ∀ x ∈ part.accessors, x.field = part.field.name ∧
    part.field.shape = .fixedList x.length ∧ part.field.elem = .primitive x.type

/-- The default of a single number is what its literal stands for; nothing else has one. -/
theorem defaultOf_spec {qualified : String} {a : Attribute} {d : Option Scalar}
    (h : defaultOf qualified a = .ok d) :
    (∀ s, d = some s → ∃ t literal, a.primitive? = some t ∧ a.default? = some literal ∧
      t.parse literal = .ok s) ∧
    (d = none → a.isPrimitive = true → a.isCount = false → a.primitive?.isSome = true →
      a.default? = none) := by
  unfold defaultOf at h
  cases hdefault : a.default? with
  | none =>
      rw [hdefault] at h
      cases h
      refine ⟨fun s hs => ?_, fun _ _ _ _ => rfl⟩
      cases hs
  | some literal =>
      cases htype : a.primitive? with
      | none =>
          rw [hdefault, htype] at h
          cases h
          refine ⟨fun s hs => ?_, fun _ _ _ hsome => ?_⟩
          · cases hs
          · cases hsome
      | some t =>
          simp only [hdefault, htype] at h
          cases hnumber : a.isPrimitive && !a.isCount with
          | false =>
              rw [hnumber] at h
              cases h
              refine ⟨fun s hs => ?_, fun _ hprim hcount _ => ?_⟩
              · cases hs
              · simp [hprim, hcount] at hnumber
          | true =>
              rw [hnumber, if_pos rfl] at h
              cases hparse : t.parse literal with
              | error e =>
                  rw [hparse] at h
                  cases h
              | ok s =>
                  rw [hparse] at h
                  cases h
                  refine ⟨fun s' hs => ⟨t, literal, rfl, rfl, ?_⟩, fun hnone => ?_⟩
                  · rw [hparse, Option.some.inj hs]
                  · cases hnone

theorem fieldOf_spec {m : Model} {qualified : String} {a : Attribute} {shape : Shape} {f : Field}
    (hshape : a.shape = some shape) (h : fieldOf m qualified a shape = .ok f) :
    FieldSpec m a f ∧ f.shape = shape := by
  unfold fieldOf at h
  cases hdef : defaultOf qualified a with
  | error e =>
      rw [hdef] at h
      cases h
  | ok d =>
      rw [hdef] at h
      cases h
      obtain ⟨hliteral, hplain⟩ := defaultOf_spec hdef
      exact ⟨⟨rfl, hshape, rfl, rfl, rfl, rfl, rfl, rfl, hliteral, hplain⟩, rfl⟩

/-- A serialized field has one step each way, another none. -/
theorem onWire_steps (f : Field) (encode : EncodeStep) (decode : DecodeStep) (rule : SizeRule)
    (hwrite : encode = decode.write) :
    (onWire f encode decode rule).field = f ∧
      (onWire f encode decode rule).decode = (if f.serialized then [decode] else []) ∧
      (onWire f encode decode rule).encode =
        (onWire f encode decode rule).decode.map DecodeStep.write ∧
      (onWire f encode decode rule).defaults = [] ∧
      (onWire f encode decode rule).accessors = [] := by
  unfold onWire
  cases f.serialized with
  | false => exact ⟨rfl, rfl, rfl, rfl, rfl⟩
  | true => exact ⟨rfl, rfl, by simp [hwrite], rfl, rfl⟩

/-- What stays to be shown of a part once its field is known. -/
theorem PartSpec.of_field {m : Model} {a : Attribute} {f : Field} {part : Part}
    (hspec : FieldSpec m a f) (hpart : part.field = f)
    (hdecode : part.decode = if f.serialized then [f.step (discards m a)] else [])
    (hencode : part.encode = part.decode.map DecodeStep.write)
    (hdefaults : part.defaults = if f.stored then [⟨f.name, f.elem, f.rule⟩] else [])
    (haccessors : ∀ x ∈ part.accessors, x.field = f.name ∧ f.shape = .fixedList x.length ∧
      f.elem = .primitive x.type) : PartSpec m a part := by
  subst hpart
  exact ⟨hspec, hdecode, hencode, hdefaults, haccessors⟩

theorem primitivePart_spec {m : Model} {qualified : String} {a : Attribute} {f : Field}
    {part : Part} (hshape : a.shape = some .primitive)
    (hfield : fieldOf m qualified a .primitive = .ok f)
    (h : primitivePart m qualified a f = .ok part) : PartSpec m a part := by
  obtain ⟨hspec, hsh⟩ := fieldOf_spec hshape hfield
  unfold primitivePart at h
  cases htype : a.primitive? with
  | none =>
      rw [htype] at h
      cases h
  | some t =>
      have helem : f.elem = .primitive t := by rw [hspec.elem, elementOf, htype]
      cases hcount : a.isCount with
      | true =>
          cases hlist : a.countedList? with
          | none => simp [htype, hcount, hlist, throw, throwThe, MonadExceptOf.throw] at h
          | some list =>
              simp only [htype, hcount, hlist, if_true, pure, Except.pure, Except.ok.injEq] at h
              obtain ⟨hpart, hdecode, hencode, hdefaults, haccessors⟩ :=
                onWire_steps f (.count a.name (attributeName m list) t)
                  (.count a.name (attributeName m list) t
                    (!((m.attribute? list).map (·.serialize)).getD true))
                  (.static t.wireBytes 0) rfl
              rw [h] at hpart hdecode hencode hdefaults haccessors
              have hst : f.stored = false := by rw [hspec.stored, hcount]; rfl
              refine .of_field hspec hpart ?_ hencode ?_ ?_
              · rw [hdecode]
                simp [Field.step_count hsh helem hst, hspec.name, hspec.countOf, hcount, hlist,
                  discards]
              · rw [hdefaults, hst]
                rfl
              · rw [haccessors]
                intro x hx
                cases hx
      | false =>
          simp only [htype, hcount, Bool.false_eq_true, if_false, pure, Except.pure,
            Except.ok.injEq] at h
          obtain ⟨hpart, hdecode, hencode, -, haccessors⟩ :=
            onWire_steps f (.primitive a.name t) (.primitive a.name t) (.static t.wireBytes 0) rfl
          have hst : f.stored = true := by rw [hspec.stored, hcount]; rfl
          subst h
          refine .of_field hspec hpart ?_ hencode ?_ ?_
          · refine Eq.trans hdecode ?_
            simp [Field.step_number hsh helem hst, hspec.name]
          · rw [hst, if_pos rfl, hspec.name]
            cases hdef : f.default? <;> simp [Field.rule, hsh, helem, hdef]
          · intro x hx
            rw [show _ = ([] : List TextAccessor) from haccessors] at hx
            cases hx

theorem referencePart_spec {m : Model} {qualified : String} {a : Attribute} {f : Field}
    {part : Part} (hshape : a.shape = some .reference) (hbound : Resolve.TypeBound m a)
    (hcount : a.isCount = false) (hfield : fieldOf m qualified a .reference = .ok f)
    (h : referencePart m qualified a f = .ok part) : PartSpec m a part := by
  obtain ⟨hspec, hsh⟩ := fieldOf_spec hshape hfield
  have hst : f.stored = true := by rw [hspec.stored, hcount]; rfl
  unfold Resolve.TypeBound at hbound
  rw [hshape] at hbound
  obtain ⟨htype, i, hcls, -⟩ := hbound
  have helem : f.elem = .message (m.className i) := by rw [hspec.elem, elementOf, htype, hcls]
  unfold referencePart at h
  simp only [hcls, pure, Except.pure, Except.ok.injEq] at h
  subst h
  obtain ⟨hpart, hdecode, hencode, -, haccessors⟩ :=
    onWire_steps f (.reference a.name (m.className i)) (.reference a.name (m.className i))
      (.reference (m.className i)) rfl
  refine .of_field hspec hpart ?_ hencode ?_ ?_
  · refine Eq.trans hdecode ?_
    simp [Field.step_reference hsh, helem, hspec.name, Element.name]
  · rw [hst, if_pos rfl, hspec.name]
    simp [Field.rule, hsh]
  · intro x hx
    rw [show _ = ([] : List TextAccessor) from haccessors] at hx
    cases hx

theorem fixedListPart_spec {m : Model} {qualified : String} {a : Attribute} {n : Int} {f : Field}
    {part : Part} (hshape : a.shape = some (.fixedList n)) (hcount : a.isCount = false)
    (hfield : fieldOf m qualified a (.fixedList n) = .ok f)
    (h : fixedListPart qualified a n f = .ok part) : PartSpec m a part := by
  obtain ⟨hspec, hsh⟩ := fieldOf_spec hshape hfield
  have hst : f.stored = true := by rw [hspec.stored, hcount]; rfl
  unfold fixedListPart at h
  cases hunbound : a.primitive?.isNone && a.class?.isNone with
  | true =>
      rw [hunbound] at h
      cases h
  | false =>
      simp only [hunbound, Bool.false_eq_true, if_false, bind, Except.bind, pure, Except.pure,
        Except.ok.injEq] at h
      subst h
      have hwire := onWire_steps f (.fixedList a.name n f.elem) (.fixedList a.name n f.elem)
      refine .of_field hspec (hwire _ rfl).1 ?_ (hwire _ rfl).2.2.1 ?_ ?_
      · refine (hwire _ rfl).2.1.trans ?_
        simp [Field.step_fixedList hsh, hspec.name]
      · rw [hst, if_pos rfl, hspec.name]
        simp [Field.rule, hsh]
      · intro x hx
        cases helem : f.elem with
        | message c => simp [helem] at hx
        | primitive t =>
            simp only [helem] at hx
            split at hx
            · rw [List.mem_singleton.mp hx]
              exact ⟨hspec.name.symm, hsh, rfl⟩
            · cases hx

theorem variableListPart_spec {m : Model} {qualified : String} {a : Attribute} {f : Field}
    {part : Part} (hshape : a.shape = some .variableList) (hcount : a.isCount = false)
    (hfield : fieldOf m qualified a .variableList = .ok f)
    (h : variableListPart m qualified a f = .ok part) : PartSpec m a part := by
  obtain ⟨hspec, hsh⟩ := fieldOf_spec hshape hfield
  have hst : f.stored = true := by rw [hspec.stored, hcount]; rfl
  unfold variableListPart at h
  cases hunbound : a.primitive?.isNone && a.class?.isNone with
  | true =>
      rw [hunbound] at h
      cases h
  | false =>
      cases hlink : a.countField? with
      | none =>
          simp only [hunbound, hlink, Bool.false_eq_true, if_false, bind, Except.bind] at h
          cases h
      | some count =>
          simp only [hunbound, hlink, Bool.false_eq_true, if_false, bind, Except.bind, pure,
            Except.pure, Except.ok.injEq] at h
          subst h
          have hwire := onWire_steps f (.variableList a.name f.elem)
            (.variableList a.name f.elem (attributeName m count))
          have hvar : a.isVariableList = true := by simp [Attribute.isVariableList, hshape]
          refine .of_field hspec (hwire _ rfl).1 ?_ (hwire _ rfl).2.2.1 ?_ ?_
          · refine (hwire _ rfl).2.1.trans ?_
            simp [Field.step_variableList hsh, hspec.name, hspec.countField, hvar, hlink]
          · rw [hst, if_pos rfl, hspec.name]
            simp [Field.rule, hsh]
          · intro x hx
            rw [show _ = ([] : List TextAccessor) from (hwire _ rfl).2.2.2.2] at hx
            cases hx

/-- **The contribution of a bound attribute.**  Only single primitives may be counts. -/
theorem partOf_spec {m : Model} {owner : String} {a : Attribute} {part : Part}
    (hbound : Resolve.TypeBound m a) (hcount : a.isCount = true → a.isPrimitive = true)
    (h : partOf m owner a = .ok part) : PartSpec m a part := by
  have hstored : ∀ shape, a.shape = some shape → shape ≠ .primitive → a.isCount = false := by
    intro shape hshape hne
    cases hc : a.isCount with
    | false => rfl
    | true =>
        have hprim := hcount hc
        rw [Attribute.isPrimitive, hshape, beq_iff_eq] at hprim
        exact absurd (Option.some.inj hprim) hne
  unfold partOf at h
  cases hshape : a.shape with
  | none => simp [hshape, throw, throwThe, MonadExceptOf.throw] at h
  | some shape =>
      cases hfield : fieldOf m (owner ++ "." ++ a.name) a shape with
      | error e => simp [hshape, hfield, bind, Except.bind] at h
      | ok f =>
          simp only [hshape, hfield, bind, Except.bind] at h
          cases shape with
          | primitive => exact primitivePart_spec hshape hfield h
          | reference =>
              exact referencePart_spec hshape hbound (hstored _ hshape (by simp)) hfield h
          | fixedList n => exact fixedListPart_spec hshape (hstored _ hshape (by simp)) hfield h
          | variableList => exact variableListPart_spec hshape (hstored _ hshape (by simp)) hfield h

end Plan

end WireSchema
