import Mathlib
import WireSchema.Proofs.Plan.Accepted

/-!
# The size expression of a plan

A size is derived beside the steps, attribute by attribute.  Like the steps it is determined by the
fields of the plan: `Field.sizeRule` is what a field adds, and a plan with a size adds the rules of
its serialized fields in order, after the size of its parent.

## Main results

* `derive_size` — the size of a derived plan, in terms of its fields.
* `PlanSet.Member.size` — the same for an accepted plan.
-/

namespace WireSchema.Plan

/-- What a field adds to the size of a message. -/
def Field.sizeRule (f : Field) : SizeRule :=
  match f.shape, f.elem with
  | .primitive, .primitive t => .static t.wireBytes 0
  | .primitive, .message name | .reference, .message name => .reference name
  | .reference, .primitive t => .reference t.name
  | .fixedList n, .primitive t => .static (Number.wrap (n * t.wireBytes)) n
  | .fixedList n, .message name => .elementSum name n
  | .variableList, .primitive t => .countTimesWidth t.wireBytes
  | .variableList, .message name => .elementSum name 0

/-- The size that the fields of a plan make up. -/
def fieldSizes (p : Plan) : SizeExpression :=
  ⟨p.parentName, (p.fields.filter (·.serialized)).map fun f => ⟨f.name, f.sizeRule⟩⟩

/-! ## One attribute -/

section Parts

variable {m : Model} {qualified : String} {a : Attribute} {f : Field} {part : Part}

/-- The terms of a part, which depend on nothing but its field. -/
def TermsOf (f : Field) (part : Part) : Prop :=
  part.field = f ∧ part.terms = if f.serialized then [⟨f.name, f.sizeRule⟩] else []

theorem onWire_terms {rule : SizeRule} (hrule : rule = f.sizeRule) (encode : EncodeStep)
    (decode : DecodeStep) : TermsOf f (onWire f encode decode rule) := by
  unfold TermsOf onWire
  cases f.serialized with
  | false => exact ⟨rfl, rfl⟩
  | true => exact ⟨rfl, by rw [if_pos rfl, if_pos rfl, hrule]⟩

theorem primitivePart_terms (hspec : FieldSpec m a f) (hshape : f.shape = .primitive)
    (h : primitivePart m qualified a f = .ok part) : TermsOf f part := by
  unfold primitivePart at h
  cases htype : a.primitive? with
  | none =>
      rw [htype] at h
      cases h
  | some t =>
      have hrule : SizeRule.static t.wireBytes 0 = f.sizeRule := by
        simp [Field.sizeRule, hshape, hspec.elem, elementOf, htype]
      simp only [htype] at h
      split at h
      · split at h
        · cases h
          exact onWire_terms hrule _ _
        · cases h
      · cases h
        exact onWire_terms hrule _ _

theorem referencePart_terms (hspec : FieldSpec m a f) (hshape : f.shape = .reference)
    (htype : a.primitive? = none) (h : referencePart m qualified a f = .ok part) :
    TermsOf f part := by
  unfold referencePart at h
  cases hcls : a.class? with
  | none =>
      rw [hcls] at h
      cases h
  | some i =>
      have hrule : SizeRule.reference (m.className i) = f.sizeRule := by
        simp [Field.sizeRule, hshape, hspec.elem, elementOf, htype, hcls]
      simp only [hcls] at h
      cases h
      exact onWire_terms hrule _ _

theorem fixedListPart_terms {n : Int} (hshape : f.shape = .fixedList n)
    (h : fixedListPart qualified a n f = .ok part) : TermsOf f part := by
  unfold fixedListPart at h
  cases hunbound : a.primitive?.isNone && a.class?.isNone with
  | true =>
      rw [hunbound] at h
      cases h
  | false =>
      rw [hunbound] at h
      cases h
      refine onWire_terms ?_ _ _
      cases helem : f.elem <;> simp [Field.sizeRule, hshape, helem]

theorem variableListPart_terms (hshape : f.shape = .variableList)
    (h : variableListPart m qualified a f = .ok part) : TermsOf f part := by
  unfold variableListPart at h
  cases hunbound : a.primitive?.isNone && a.class?.isNone with
  | true =>
      rw [hunbound] at h
      cases h
  | false =>
      rw [hunbound] at h
      cases hlink : a.countField? with
      | none =>
          rw [hlink] at h
          cases h
      | some count =>
          rw [hlink] at h
          cases h
          refine onWire_terms ?_ _ _
          cases helem : f.elem <;> simp [Field.sizeRule, hshape, helem]

/-- The terms of a bound attribute. -/
theorem partOf_terms {owner : String} (hbound : Resolve.TypeBound m a)
    (h : partOf m owner a = .ok part) : TermsOf part.field part := by
  unfold partOf at h
  cases hshape : a.shape with
  | none =>
      rw [hshape] at h
      cases h
  | some shape =>
      cases hfield : fieldOf m (owner ++ "." ++ a.name) a shape with
      | error e => simp [hshape, hfield, bind, Except.bind] at h
      | ok f =>
          obtain ⟨hspec, hsame⟩ := fieldOf_spec hshape hfield
          simp only [hshape, hfield, bind, Except.bind] at h
          have hterms : TermsOf f part := by
            cases shape with
            | primitive => exact primitivePart_terms hspec hsame h
            | reference =>
                unfold Resolve.TypeBound at hbound
                rw [hshape] at hbound
                exact referencePart_terms hspec hsame hbound.1 h
            | fixedList n => exact fixedListPart_terms hsame h
            | variableList => exact variableListPart_terms hsame h
          exact ⟨rfl, hterms.1 ▸ hterms.2⟩

end Parts

/-! ## The whole plan -/

/-- What every part adds for its field is what the fields add up to. -/
theorem flatMap_fields {α : Type} {part : Part → List α} {keep : Field → Bool} {item : Field → α}
    (parts : List Part)
    (h : ∀ x ∈ parts, part x = if keep x.field then [item x.field] else []) :
    parts.flatMap part = ((parts.map (·.field)).filter keep).map item := by
  induction parts with
  | nil => rfl
  | cons x parts ih =>
      rw [List.flatMap_cons, h x List.mem_cons_self,
        ih fun y hy => h y (List.mem_cons_of_mem _ hy), List.map_cons, List.filter_cons]
      split <;> rfl

/-- The parts of a type are those of its attributes. -/
theorem exists_attribute_of_part {m : Model} {c : Class} {parts : List Part}
    (hparts : c.attributes.mapM (partOf m c.name) = .ok parts) {part : Part}
    (hpart : part ∈ parts) :
    ∃ a ∈ c.attributes, partOf m c.name a = .ok part := by
  obtain ⟨k, hk⟩ := List.mem_iff_getElem?.mp hpart
  obtain ⟨a, ha, hof⟩ := forall₂_getElem?
    (R := fun part a => partOf m c.name a = .ok part) (mapM_ok hparts).flip hk
  exact ⟨a, List.mem_of_getElem? ha, hof⟩

/-- **The size of a derived plan is made up by its fields.** -/
theorem derive_size {m : Model} {c : Class} {p : Plan}
    (hbound : ∀ a ∈ c.attributes, Resolve.TypeBound m a) (h : derive true m c = .ok p) :
    p.size? = some p.fieldSizes := by
  obtain ⟨parts, assignments, hparts, -, rfl⟩ := derive_parts h
  have hterms : parts.flatMap (·.terms) =
      ((parts.map (·.field)).filter (·.serialized)).map fun f => ⟨f.name, f.sizeRule⟩ := by
    refine flatMap_fields parts fun part hpart => ?_
    obtain ⟨a, ha, hof⟩ := exists_attribute_of_part hparts hpart
    exact (partOf_terms (hbound a ha) hof).2
  simp only [fieldSizes, if_true, hterms]

end WireSchema.Plan

namespace WireSchema.PlanSet

/-- An accepted plan keeps the size it was derived with. -/
theorem Member.size {m : Model} {S : PlanSet} {q i : Nat} {c : Class} {p : Plan}
    (hm : Resolve.Bound m) (h : Member true m S q i c p) : p.size? = some p.fieldSizes := by
  obtain ⟨p₀, hderive, rfl⟩ := h.derived
  show p₀.size? = some p₀.fieldSizes
  exact Plan.derive_size (hm.types c (List.mem_of_getElem? h.cls)) hderive

end WireSchema.PlanSet
