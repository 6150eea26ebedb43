import Mathlib
import WireSchema.Proofs.Schema.Loaded
import WireSchema.Schema.Write

/-!
# Writing a schema and loading it again

A schema file holds what a model declares and none of its links.  Conversely every declaration of a
loaded model can be written: it has one shape, a type where the shape needs one, and a count field
says what it counts.  So the entry that such a declaration is written as means the same declaration
without its links.

Whether a file is read as it was printed is a matter of the document format.  It is asked of single
files.

## Main results

* `toModel_ofModel` — the file a declared model is written as means the model without its links.
* `toModel_declared` — the model of a file is declared and has no links.
* `loadWith_writeWith` — a written model is loaded without its links.
-/

namespace WireSchema

/-! ## Declarations -/

/-- An attribute that a schema file can describe. -/
structure Attribute.Declared (a : Attribute) : Prop extends a.Labelled where
  shaped : a.shape ≠ none
  typed : a.isPrimitive = true ∨ a.isReference = true → a.type ≠ ""
  unlisted : a.isVariableList = false → a.countFieldName = ""

/-- A message type that a schema file can describe. -/
structure Class.Declared (c : Class) : Prop where
  named : c.name ≠ ""
  attributes : ∀ a ∈ c.attributes, a.Declared

/-- A model that a schema file can describe. -/
structure Model.Declared (m : Model) : Prop where
  versioned : m.version ≠ ""
  classes : ∀ c ∈ m.classes, c.Declared

/-- An attribute as it was before any of its links was bound. -/
def Attribute.unlinked (a : Attribute) : Attribute :=
  { a with primitive? := none, class? := none, countField? := none, countedList? := none }

/-- An initial value as it was before it was bound. -/
def InitialValue.unlinked (v : InitialValue) : InitialValue := { v with target? := none }

/-- A message type as it was before any of its links was bound. -/
def Class.unlinked (c : Class) : Class :=
  { c with
    attributes := c.attributes.map Attribute.unlinked
    initialValues := c.initialValues.map InitialValue.unlinked
    parentClass? := none }

/-- A model as it was before any of its links was bound. -/
def Model.unlinked (m : Model) : Model := { m with classes := m.classes.map Class.unlinked }

namespace Schema

theorem isEmpty_eq_false {s : String} (h : s ≠ "") : s.isEmpty = false :=
  Bool.eq_false_iff.mpr fun hempty => h (String.isEmpty_iff.mp hempty)

theorem ne_empty {s : String} (h : s.isEmpty = false) : s ≠ "" := by
  rintro rfl
  cases h

/-! ## From a model to a file and back -/

/-- What a labelled attribute is said to count tells again whether it is a count field. -/
theorem countOf_labelled {a : Attribute} (h : a.Labelled) :
    (if a.isCount then a.counts else "") = a.counts := by
  cases hcount : a.isCount with
  | true => rfl
  | false =>
      have hflagged := h.flagged
      rw [hcount] at hflagged
      exact (String.isEmpty_iff.mp (by simpa using hflagged)).symm

/-- Whatever its shape, the entry of an attribute says the same about the rest of it. -/
theorem ofAttribute_rest (a : Attribute) :
    (AttributeEntry.ofAttribute a).name = a.name ∧
      (AttributeEntry.ofAttribute a).default_ = a.default? ∧
      (AttributeEntry.ofAttribute a).couldBeString = a.couldBeString ∧
      (AttributeEntry.ofAttribute a).comment = a.comment ∧
      (AttributeEntry.ofAttribute a).serialize.getD true = a.serialize ∧
      (AttributeEntry.ofAttribute a).countOf = if a.isCount then a.counts else "" := by
  have hserialize : ((if a.serialize then none else some false).getD true) = a.serialize := by
    cases a.serialize <;> rfl
  simp only [AttributeEntry.ofAttribute]
  split <;> exact ⟨rfl, rfl, rfl, rfl, hserialize, rfl⟩

/-- The entry of a declared attribute gives exactly one shape. -/
theorem shapes_ofAttribute {a : Attribute} (h : a.Declared) :
    ∃ key shape, a.shape = some shape ∧
      (AttributeEntry.ofAttribute a).shapes = [(key, shape, a.type, a.countFieldName)] := by
  cases hshape : a.shape with
  | none => exact absurd hshape h.shaped
  | some shape =>
      have htyped := fun hkind => isEmpty_eq_false (h.typed hkind)
      have hunlisted := h.unlisted
      simp only [Attribute.isPrimitive, Attribute.isReference, Attribute.isVariableList,
        hshape] at htyped hunlisted
      cases shape with
      | primitive =>
          have htype := htyped (Or.inl rfl)
          have hlist := hunlisted rfl
          exact ⟨"primitive", .primitive, rfl, by
            simp [AttributeEntry.shapes, AttributeEntry.ofAttribute, hshape, htype, hlist]⟩
      | reference =>
          have htype := htyped (Or.inr rfl)
          have hlist := hunlisted rfl
          exact ⟨"class", .reference, rfl, by
            simp [AttributeEntry.shapes, AttributeEntry.ofAttribute, hshape, htype, hlist]⟩
      | fixedList n =>
          have hlist := hunlisted rfl
          exact ⟨"fixed_list", .fixedList n, rfl, by
            simp [AttributeEntry.shapes, AttributeEntry.ofAttribute, hshape, hlist]⟩
      | variableList =>
          exact ⟨"variable_list", .variableList, rfl, by
            simp [AttributeEntry.shapes, AttributeEntry.ofAttribute, hshape]⟩

/-- The entry a declared attribute is written as means the attribute without its links. -/
theorem toAttribute_ofAttribute {a : Attribute} (h : a.Declared) (owner : String) :
    (AttributeEntry.ofAttribute a).toAttribute owner = .ok a.unlinked := by
  obtain ⟨key, shape, hshape, hshapes⟩ := shapes_ofAttribute h
  obtain ⟨hname, hdefault, hcould, hcomment, hserialize, hcount⟩ := ofAttribute_rest a
  rw [countOf_labelled h.toLabelled] at hcount
  rw [AttributeEntry.toAttribute, hshapes]
  simp only [hname, hdefault, hcould, hcomment, hserialize, hcount, ← h.flagged, ← hshape]
  rfl

theorem toAttributes_ofAttribute (owner : String) (attrs : List Attribute) :
    ∀ n : Nat, (∀ a ∈ attrs, a.Declared) →
      ClassEntry.toAttributes owner n (attrs.map AttributeEntry.ofAttribute) =
        .ok (attrs.map Attribute.unlinked) := by
  induction attrs with
  | nil => exact fun _ _ => rfl
  | cons a rest ih =>
      intro n h
      have ha := h a List.mem_cons_self
      have hname := (ofAttribute_rest a).1
      rw [List.map_cons, ClassEntry.toAttributes, hname, isEmpty_eq_false ha.named,
        toAttribute_ofAttribute ha owner, ih (n + 1) fun b hb => h b (List.mem_cons_of_mem _ hb)]
      rfl

theorem toClass_ofClass {c : Class} (h : c.Declared) :
    (ClassEntry.ofClass c).toClass = .ok c.unlinked := by
  rw [ClassEntry.toClass, ClassEntry.ofClass]
  simp only [toAttributes_ofAttribute c.name c.attributes 1 h.attributes, List.map_map]
  rfl

theorem toClasses_ofClass (classes : List Class) :
    ∀ n : Nat, (∀ c ∈ classes, c.Declared) →
      FileEntry.toClasses n (classes.map ClassEntry.ofClass) =
        .ok (classes.map Class.unlinked) := by
  induction classes with
  | nil => exact fun _ _ => rfl
  | cons c rest ih =>
      intro n h
      have hc := h c List.mem_cons_self
      have hname : (ClassEntry.ofClass c).name = c.name := rfl
      rw [List.map_cons, FileEntry.toClasses, hname, isEmpty_eq_false hc.named, toClass_ofClass hc,
        ih (n + 1) fun d hd => h d (List.mem_cons_of_mem _ hd)]
      rfl

/-- **The file a declared model is written as means the model without its links.** -/
theorem toModel_ofModel {m : Model} (h : m.Declared) :
    (FileEntry.ofModel m).toModel = .ok m.unlinked := by
  rw [FileEntry.toModel, FileEntry.ofModel]
  simp only [toClasses_ofClass m.classes 1 h.classes, isEmpty_eq_false h.versioned]
  rfl

/-! ## What is loaded is declared -/

/-- Each shape of an entry comes with what the attribute needs. -/
theorem of_mem_shapes {e : AttributeEntry} {key type countField : String} {shape : Shape}
    (h : (key, shape, type, countField) ∈ e.shapes) :
    (shape = .primitive ∨ shape = .reference → type ≠ "") ∧
      (shape ≠ .variableList → countField = "") := by
  unfold AttributeEntry.shapes at h
  simp only [List.mem_append] at h
  rcases h with ((h | h) | h) | h
  · split at h
    · cases h
    · rename_i hprimitive
      obtain ⟨rfl, rfl, rfl, rfl⟩ : key = "primitive" ∧ shape = .primitive ∧ type = e.primitive ∧
          countField = "" := by simpa using h
      exact ⟨fun _ => ne_empty (by simpa using hprimitive), fun _ => rfl⟩
  · split at h
    · cases h
    · rename_i hclass
      obtain ⟨rfl, rfl, rfl, rfl⟩ : key = "class" ∧ shape = .reference ∧ type = e.class_ ∧
          countField = "" := by simpa using h
      exact ⟨fun _ => ne_empty (by simpa using hclass), fun _ => rfl⟩
  · split at h
    · rename_i f _
      obtain ⟨rfl, rfl, rfl, rfl⟩ : key = "fixed_list" ∧ shape = .fixedList f.length ∧
          type = f.type ∧ countField = "" := by simpa using h
      exact ⟨fun hshape => by simp at hshape, fun _ => rfl⟩
    · cases h
  · split at h
    · rename_i v _
      obtain ⟨rfl, rfl, rfl, rfl⟩ : key = "variable_list" ∧ shape = .variableList ∧
          type = v.type ∧ countField = v.countField := by simpa using h
      exact ⟨fun hshape => by simp at hshape, fun hshape => absurd rfl hshape⟩
    · cases h

theorem toAttribute_declared {owner : String} {e : AttributeEntry} {a : Attribute}
    (hname : e.name.isEmpty = false) (h : e.toAttribute owner = .ok a) :
    a.Declared ∧ a.unlinked = a := by
  have hlabelled := toAttribute_labelled hname h
  unfold AttributeEntry.toAttribute at h
  split at h
  · cases h
  · rename_i key shape type countField hshapes
    obtain ⟨htyped, hunlisted⟩ := of_mem_shapes (hshapes ▸ List.mem_singleton_self _)
    obtain rfl := Except.ok.inj h
    refine ⟨⟨hlabelled, Option.some_ne_none shape, fun hshape => htyped ?_, fun hshape => ?_⟩, rfl⟩
    · simpa [Attribute.isPrimitive, Attribute.isReference] using hshape
    · exact hunlisted (by simpa [Attribute.isVariableList] using hshape)
  · cases h

theorem toClass_declared {e : ClassEntry} {c : Class} (hname : e.name.isEmpty = false)
    (h : e.toClass = .ok c) : c.Declared ∧ c.unlinked = c := by
  obtain ⟨attrs, hattrs, h⟩ := of_bind_eq_ok h
  obtain rfl := Except.ok.inj h
  have hall := toAttributes_forall e.attributes (fun _ _ => toAttribute_declared) 1 attrs hattrs
  refine ⟨⟨ne_empty hname, fun a ha => (hall a ha).1⟩, ?_⟩
  have hunlinked : attrs.map Attribute.unlinked = attrs :=
    (List.map_congr_left fun a ha => (hall a ha).2).trans (List.map_id attrs)
  simp only [Class.unlinked, hunlinked, List.map_map]
  rfl

/-- **The model of a file is declared and has no links.** -/
theorem toModel_declared {file : FileEntry} {m : Model} (h : file.toModel = .ok m) :
    m.Declared ∧ m.unlinked = m := by
  obtain ⟨classes, hclasses, h⟩ := of_bind_eq_ok h
  obtain rfl := Except.ok.inj h
  have hall := toClasses_forall file.classes (fun _ _ => toClass_declared) 1 classes hclasses
  refine ⟨⟨?_, fun c hc => (hall c hc).1⟩, ?_⟩
  · dsimp only
    split
    · decide
    · rename_i hversion
      exact ne_empty (by simpa using hversion)
  · have hunlinked : classes.map Class.unlinked = classes :=
      (List.map_congr_left fun c hc => (hall c hc).2).trans (List.map_id classes)
    simp only [Model.unlinked, hunlinked]

/-! ## Through a text -/

/-- **A written model is loaded without its links**, if its file is read as it was printed. -/
theorem loadWith_writeWith {σ : Type} {read : σ → Except LoadError FileEntry}
    {print : FileEntry → σ} {m : Model} (h : m.Declared)
    (hback : read (print (FileEntry.ofModel m)) = .ok (FileEntry.ofModel m)) :
    loadWith read (writeWith print m) = .ok m.unlinked := by
  rw [loadWith, writeWith, hback]
  simp only [bind, Except.bind, toModel_ofModel h]
  rfl

end Schema

end WireSchema
