import Mathlib
import WireSchema.Proofs.Message.Runtime
import WireSchema.Proofs.Plan.Size

/-!
# The types that a plan mentions

A plan names other types in its steps, in the terms of its size, in its comparisons and in its first
values.  All of these are determined by the fields and the parent, so every type they name is the
parent or the type of a field.  These are the types that a type is rejected with, hence in an
accepted plan nothing is named that has no accepted plan.

## Main results

* `derive_comparisons` — the comparisons of a derived plan, in terms of its fields.
* `PlanSet.usedTypes_accepted` — the types that an accepted plan mentions have accepted plans.
-/

namespace WireSchema

/-- The message type of an element, if it is of one. -/
def Element.types : Element → List String
  | .primitive _ => []
  | .message name => [name]

@[simp] theorem Element.mem_types {e : Element} {type : String} :
    type ∈ e.types ↔ e = .message type := by
  cases e <;> simp [types, eq_comm]

namespace Plan

/-! ## Comparisons -/

/-- How a stored field is compared. -/
def Field.compareRule (f : Field) : CompareRule :=
  match f.shape with
  | .primitive => .value
  | .reference => .reference
  | .fixedList n => .fixedList n
  | .variableList => .variableList

section Parts

variable {m : Model} {qualified : String} {a : Attribute} {f : Field} {part : Part}

/-- The comparisons of a part, which depend on nothing but its field. -/
def ComparisonsOf (f : Field) (part : Part) : Prop :=
  part.field = f ∧ part.comparisons = if f.stored then [⟨f.name, f.elem, f.compareRule⟩] else []

@[simp] theorem onWire_field (f : Field) (encode : EncodeStep) (decode : DecodeStep)
    (rule : SizeRule) : (onWire f encode decode rule).field = f := by
  unfold onWire
  split <;> rfl

/-- Whether a field is on the wire does not bear on comparisons. -/
theorem onWire_comparisons (f : Field) (encode : EncodeStep) (decode : DecodeStep)
    (rule : SizeRule) : (onWire f encode decode rule).comparisons = [] := by
  unfold onWire
  split <;> rfl

theorem primitivePart_comparisons (hspec : FieldSpec m a f) (hshape : f.shape = .primitive)
    (h : primitivePart m qualified a f = .ok part) : ComparisonsOf f part := by
  unfold primitivePart at h
  cases htype : a.primitive? with
  | none =>
      rw [htype] at h
      cases h
  | some t =>
      simp only [htype] at h
      by_cases hcount : a.isCount = true
      · rw [if_pos hcount] at h
        cases hlist : a.countedList? with
        | none =>
            rw [hlist] at h
            cases h
        | some list =>
            rw [hlist] at h
            cases h
            have hstored : f.stored = false := by rw [hspec.stored, hcount]; rfl
            exact ⟨onWire_field .., by rw [onWire_comparisons, hstored]; rfl⟩
      · rw [if_neg hcount] at h
        cases h
        have hstored : f.stored = true := by simp [hspec.stored, hcount]
        refine ⟨onWire_field .., ?_⟩
        rw [hstored, if_pos rfl, Field.compareRule, hshape, hspec.name]

/-- The comparisons of a bound attribute.  Only single primitives may be counts. -/
theorem partOf_comparisons {owner : String} (hcount : a.isCount = true → a.isPrimitive = true)
    (h : partOf m owner a = .ok part) : ComparisonsOf part.field part := by
  unfold partOf at h
  cases hshape : a.shape with
  | none =>
      rw [hshape] at h
      cases h
  | some shape =>
      cases hfield : fieldOf m (owner ++ "." ++ a.name) a shape with
      | error e => simp [hshape, hfield, bind, Except.bind] at h
      | ok f =>
          obtain ⟨hspec, hsame⟩ := fieldOf_spec hshape hfield
          simp only [hshape, hfield, bind, Except.bind] at h
          have hstored : shape ≠ .primitive → f.stored = true := by
            intro hne
            rw [hspec.stored]
            by_contra hneg
            have hprim := hcount (by simpa using hneg)
            rw [Attribute.isPrimitive, hshape, beq_iff_eq] at hprim
            exact hne (Option.some.inj hprim)
          have hcompared : ComparisonsOf f part := by
            cases shape with
            | primitive => exact primitivePart_comparisons hspec hsame h
            | reference =>
                unfold referencePart at h
                cases hcls : a.class? with
                | none =>
                    rw [hcls] at h
                    cases h
                | some i =>
                    rw [hcls] at h
                    cases h
                    refine ⟨onWire_field .., ?_⟩
                    rw [hstored (by simp), if_pos rfl, Field.compareRule, hsame, hspec.name]
            | fixedList n =>
                unfold fixedListPart at h
                cases hunbound : a.primitive?.isNone && a.class?.isNone with
                | true =>
                    rw [hunbound] at h
                    cases h
                | false =>
                    rw [hunbound] at h
                    cases h
                    refine ⟨onWire_field .., ?_⟩
                    rw [hstored (by simp), if_pos rfl, Field.compareRule, hsame, hspec.name]
            | variableList =>
                unfold variableListPart at h
                cases hunbound : a.primitive?.isNone && a.class?.isNone with
                | true =>
                    rw [hunbound] at h
                    cases h
                | false =>
                    rw [hunbound] at h
                    cases hlink : a.countField? with
                    | none =>
                        rw [hlink] at h
                        cases h
                    | some count =>
                        rw [hlink] at h
                        cases h
                        refine ⟨onWire_field .., ?_⟩
                        rw [hstored (by simp), if_pos rfl, Field.compareRule, hsame, hspec.name]
          exact ⟨rfl, hcompared.1 ▸ hcompared.2⟩

end Parts

/-- **A derived plan compares its stored fields.** -/
theorem derive_comparisons {m : Model} {sized : Bool} {c : Class} {p : Plan}
    (hcount : ∀ a ∈ c.attributes, a.isCount = true → a.isPrimitive = true)
    (h : derive sized m c = .ok p) :
    p.comparisons =
      (p.fields.filter (·.stored)).map fun f => ⟨f.name, f.elem, f.compareRule⟩ := by
  obtain ⟨parts, assignments, hparts, -, rfl⟩ := derive_parts h
  refine flatMap_fields parts fun part hpart => ?_
  obtain ⟨a, ha, hof⟩ := exists_attribute_of_part hparts hpart
  exact (partOf_comparisons (hcount a ha) hof).2

/-! ## The types that are named -/

/-- The message types that a write names. -/
def EncodeStep.types : EncodeStep → List String
  | .parent name => [name]
  | .reference _ cls => [cls]
  | .fixedList _ _ e | .variableList _ e => e.types
  | .primitive .. | .count .. => []

/-- The message types that a read names. -/
def DecodeStep.types : DecodeStep → List String
  | .parent name => [name]
  | .reference _ cls => [cls]
  | .fixedList _ _ e | .variableList _ e _ => e.types
  | .primitive .. | .count .. => []

/-- The message types that a part of a size names. -/
def SizeRule.types : SizeRule → List String
  | .reference cls | .elementSum cls _ => [cls]
  | .static .. | .countTimesWidth _ => []

/-- The message types that a size names: that of the parent's size, and those of its terms. -/
def SizeExpression.types (s : SizeExpression) : List String :=
  (if s.parent.isEmpty then [] else [s.parent]) ++ s.terms.flatMap (·.rule.types)

/-- The message types that the steps, the size, the comparisons and the first values of a plan
name. -/
def usedTypes (p : Plan) : List String :=
  p.encode.flatMap (·.types) ++ p.decode.flatMap (·.types) ++
    p.size?.toList.flatMap (·.types) ++
    p.comparisons.flatMap (·.elem.types) ++ p.defaults.flatMap (·.elem.types)

/-- A write names what the read of the same names. -/
@[simp] theorem DecodeStep.types_write (step : DecodeStep) : step.write.types = step.types := by
  cases step <;> rfl

section Sound

variable {p : Plan} {f : Field} {type : String}

theorem Field.Sound.elem_of_step (hf : f.Sound p) {discard : Bool}
    (htype : type ∈ (f.step discard).types) : f.elem = .message type := by
  unfold Field.step at htype
  cases hf with
  | number t hshape helem hstored =>
      simp [hshape, helem, hstored, DecodeStep.types] at htype
  | count t l hshape helem hstored =>
      simp [hshape, helem, hstored, DecodeStep.types] at htype
  | reference name hshape helem =>
      rw [hshape, helem] at htype
      rw [helem, List.mem_singleton.mp htype]
      rfl
  | fixedList n hshape =>
      rw [hshape] at htype
      exact Element.mem_types.mp htype
  | variableList k hshape =>
      rw [hshape] at htype
      exact Element.mem_types.mp htype

theorem Field.Sound.elem_of_sizeRule (hf : f.Sound p) (htype : type ∈ f.sizeRule.types) :
    f.elem = .message type := by
  unfold Field.sizeRule at htype
  cases helem : f.elem with
  | message name =>
      cases hshape : f.shape <;> simp_all [SizeRule.types]
  | primitive t =>
      cases hf with
      | reference name hshape hmessage => simp [helem] at hmessage
      | number t' hshape => simp [hshape, helem, SizeRule.types] at htype
      | count t' l hshape => simp [hshape, helem, SizeRule.types] at htype
      | fixedList n hshape => simp [hshape, helem, SizeRule.types] at htype
      | variableList k hshape => simp [hshape, helem, SizeRule.types] at htype

/-- The reads of a sound plan name its parent and the types of its fields. -/
theorem Sound.mem_decode_types (hp : p.Sound) (htype : type ∈ p.decode.flatMap (·.types)) :
    (p.hasParent = true ∧ type = p.parentName) ∨ ∃ f ∈ p.fields, f.elem = .message type := by
  rw [hp.decode, List.flatMap_append, List.mem_append] at htype
  rcases htype with hparent | hfields
  · rw [parentSteps] at hparent
    split at hparent
    · rename_i hhas
      simp only [List.flatMap_cons, List.flatMap_nil, List.append_nil, DecodeStep.types,
        List.mem_singleton] at hparent
      exact .inl ⟨hhas, hparent⟩
    · cases hparent
  · obtain ⟨step, hstep, hmem⟩ := List.mem_flatMap.mp hfields
    obtain ⟨f, hf, rfl⟩ := List.mem_map.mp hstep
    have hf' := (List.mem_filter.mp hf).1
    exact .inr ⟨f, hf', (hp.field f hf').elem_of_step hmem⟩

/-- **A plan names its parent and the types of its fields.** -/
theorem Sound.mem_usedTypes (hp : p.Sound)
    (hsize : ∀ s, p.size? = some s → s = p.fieldSizes)
    (hcompared : p.comparisons =
      (p.fields.filter (·.stored)).map fun f => ⟨f.name, f.elem, f.compareRule⟩)
    (htype : type ∈ p.usedTypes) :
    (p.hasParent = true ∧ type = p.parentName) ∨ ∃ f ∈ p.fields, f.elem = .message type := by
  simp only [usedTypes, List.mem_append] at htype
  rcases htype with (((hencode | hdecode) | hterm) | hcompare) | hdefault
  · rw [hp.encode, List.flatMap_map] at hencode
    simp only [DecodeStep.types_write] at hencode
    exact hp.mem_decode_types hencode
  · exact hp.mem_decode_types hdecode
  · obtain ⟨s, hs, hmem⟩ := List.mem_flatMap.mp hterm
    obtain rfl := hsize s (by simpa using hs)
    rcases List.mem_append.mp hmem with hparent | hfields
    · change type ∈ (if p.parentName.isEmpty then [] else [p.parentName]) at hparent
      split at hparent
      · cases hparent
      · rename_i hhas
        exact .inl ⟨by simpa [hasParent] using hhas, List.mem_singleton.mp hparent⟩
    · obtain ⟨t, ht, hrule⟩ := List.mem_flatMap.mp hfields
      obtain ⟨f, hf, rfl⟩ := List.mem_map.mp ht
      have hf' := (List.mem_filter.mp hf).1
      exact .inr ⟨f, hf', (hp.field f hf').elem_of_sizeRule hrule⟩
  · obtain ⟨x, hx, hmem⟩ := List.mem_flatMap.mp hcompare
    obtain ⟨f, hf, rfl⟩ := List.mem_map.mp (hcompared ▸ hx)
    exact .inr ⟨f, (List.mem_filter.mp hf).1, Element.mem_types.mp hmem⟩
  · obtain ⟨x, hx, hmem⟩ := List.mem_flatMap.mp hdefault
    obtain ⟨f, hf, rfl⟩ := List.mem_map.mp (hp.defaults ▸ hx)
    exact .inr ⟨f, (List.mem_filter.mp hf).1, Element.mem_types.mp hmem⟩

end Sound

end Plan

/-! ## Accepted plans -/

namespace PlanSet

open Resolve (Bound)

section Accepted

variable {sized : Bool} {m : Model} {S : PlanSet}

/-- An accepted plan is found under the name of its type. -/
theorem Member.plan?_eq (hm : Bound m) (h : derive sized m = .ok S) {q i : Nat} {c : Class}
    {p : Plan} (hp : Member sized m S q i c p) : S.plan? c.name = some p := by
  have hname := (Message.Runtime.derived_of_member hm hp).1.name
  rw [plan?, ← hname, position?_eq_some (accepted_nodup hm.classes_nodup h) hp.plan]
  exact hp.plan

/-- An accepted plan with a parent is linked to the accepted plan of its parent. -/
theorem Member.parent_linked (hm : Bound m) (h : derive sized m = .ok S) {q i : Nat} {c : Class}
    {p : Plan} (hp : Member sized m S q i c p) (hparent : p.hasParent = true) :
    ∃ j r, p.parent? = some j ∧ S.accepted[j]? = some r ∧ r.name = p.parentName ∧
      S.plan? p.parentName = some r := by
  have hhas : c.hasParent = true := Message.Runtime.hasParent_of_member hm hp ▸ hparent
  obtain ⟨i', d, j, r, -, hr, hlink, hname⟩ := Message.Runtime.parent_member hm h hp hhas
  have hparentName : p.parentName = d.name := by
    rw [(Message.Runtime.derived_of_member hm hp).1.parentName, if_pos hhas, hname]
  refine ⟨j, r, hlink, hr.plan, ?_, ?_⟩
  · rw [(Message.Runtime.derived_of_member hm hr).1.name, hparentName]
  · rw [hparentName, hr.plan?_eq hm h]

/-- An accepted plan compares its stored fields. -/
theorem Member.comparisons (hm : Bound m) {q i : Nat} {c : Class} {p : Plan}
    (hp : Member sized m S q i c p) :
    p.comparisons =
      (p.fields.filter (·.stored)).map fun f => ⟨f.name, f.elem, f.compareRule⟩ := by
  obtain ⟨p₀, hderive, hlinked⟩ := hp.derived
  rw [hlinked]
  have hcls := List.mem_of_getElem? hp.cls
  exact Plan.derive_comparisons (p := p₀) (fun _ => hm.count_isPrimitive hcls) hderive

/-- The size of an accepted plan, if it has one, is the one its fields make up. -/
theorem Member.size_eq (hm : Bound m) {q i : Nat} {c : Class} {p : Plan}
    (hp : Member sized m S q i c p) : ∀ s, p.size? = some s → s = p.fieldSizes := by
  intro s hs
  cases hsized : sized with
  | true =>
      subst hsized
      exact Option.some.inj (hs.symm.trans (hp.size hm))
  | false =>
      obtain ⟨p₀, hderive, hlinked⟩ := hp.derived
      obtain ⟨parts, values, -, -, rfl⟩ := Plan.derive_parts hderive
      rw [hlinked, hsized] at hs
      cases hs

/-- **Every type that an accepted plan names has an accepted plan.** -/
theorem usedTypes_accepted (hm : Bound m) (h : derive sized m = .ok S) {q i : Nat} {c : Class}
    {p : Plan} (hp : Member sized m S q i c p) {type : String} (htype : type ∈ p.usedTypes) :
    ∃ r ∈ S.accepted, r.name = type ∧ S.plan? type = some r := by
  have hcls := List.mem_of_getElem? hp.cls
  have hd := (Message.Runtime.derived_of_member hm hp).1
  rcases (hd.sound hm hp.cls hp.checked).mem_usedTypes (hp.size_eq hm) (hp.comparisons hm)
    htype with
    ⟨hparent, rfl⟩ | ⟨f, hf, helem⟩
  · obtain ⟨j, r, -, hr, hname, hfound⟩ := hp.parent_linked hm h hparent
    exact ⟨r, List.mem_of_getElem? hr, hname, hfound⟩
  · obtain ⟨k, hk⟩ := List.mem_iff_getElem?.mp hf
    obtain ⟨a, ha, hspec⟩ := hd.exists_attribute hk
    obtain ⟨j, d, q', r, -, hr, -, rfl⟩ :=
      Message.Runtime.elem_member hm h hp (List.mem_of_getElem? ha) hspec helem
    exact ⟨r, List.mem_of_getElem? hr.plan, (Message.Runtime.derived_of_member hm hr).1.name,
      hr.plan?_eq hm h⟩

end Accepted

end PlanSet

end WireSchema
