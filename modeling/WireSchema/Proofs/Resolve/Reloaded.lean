import Mathlib
import WireSchema.Proofs.Resolve.Again
import WireSchema.Proofs.Schema.Written

/-!
# Writing a resolved model

Resolution writes into the model it is given: links, and of a count field that it is one and what it
counts.  The links are not written to a schema file, the rest is.  So what is loaded from a resolved
model that was written is that model without its links, and not the model that was resolved first.
Resolving it comes to the same nevertheless, for two reasons: every pass clears the links that it
binds, and a resolved model resolves to itself.

## Main results

* `run_unlinked` — resolution does not look at the links that a model has.
* `run_declared` — a resolution that succeeded leaves a model that a schema file can describe.
* `run_reloaded` — a loaded model is loaded again as it is, and as it is after resolution resolves
  as before.
-/

namespace WireSchema

namespace Resolve

/-! ## Passes over models without links -/

/-- A model with each of its types changed. -/
def mapClasses (f : Class → Class) (m : Model) : Model := { m with classes := m.classes.map f }

/-- A type whose members have no links. -/
def bare (c : Class) : Class :=
  { c with
    attributes := c.attributes.map Attribute.unlinked
    initialValues := c.initialValues.map InitialValue.unlinked }

/-- A type whose initial values have no links. -/
def untargeted (c : Class) : Class :=
  { c with initialValues := c.initialValues.map InitialValue.unlinked }

/-- A pass over changed types that comes to the same, up to another change. -/
theorem onClasses_mapClasses {f g : Class → Class} {step again : Nat → Class → Class × Report}
    (h : ∀ i c, again i (f c) = (g (step i c).1, (step i c).2)) (m : Model) :
    onClasses (mapClasses f m) again =
      (mapClasses g (onClasses m step).1, (onClasses m step).2) := by
  have hmap : (m.classes.map f).mapIdx again =
      (m.classes.mapIdx step).map fun r => (g r.1, r.2) := by
    refine List.ext_getElem? fun i => ?_
    simp only [List.getElem?_mapIdx, List.getElem?_map]
    cases m.classes[i]? with
    | none => rfl
    | some c => simp only [Option.map_some, h]
  simp only [onClasses, mapClasses, hmap, List.map_map]
  rfl

section Steps

variable (sc : Scope)

theorem bindParent_unlinked (c : Class) :
    bindParent sc c.unlinked = (bare (bindParent sc c).1, (bindParent sc c).2) := by
  have hhas : c.unlinked.hasParent = c.hasParent := rfl
  have hparent : c.unlinked.parent = c.parent := rfl
  rw [bindParent, bindParent, hhas, hparent]
  cases c.hasParent with
  | false => rfl
  | true => cases sc.class? c.parent <;> rfl

theorem bindType_unlinked (owner : String) (a : Attribute) (shape : Shape) :
    ∃ t c, (bindType sc owner a shape).1 = { a with primitive? := t, class? := c } ∧
      bindType sc owner a.unlinked shape =
        ({ a.unlinked with primitive? := t, class? := c }, (bindType sc owner a shape).2) := by
  have htype : a.unlinked.type = a.type := rfl
  cases shape with
  | primitive =>
      rw [bindType, bindType, htype]
      cases sc.catalog.lookup a.type <;> exact ⟨_, _, rfl, rfl⟩
  | reference =>
      rw [bindType, bindType, htype]
      cases sc.class? a.type <;> exact ⟨_, _, rfl, rfl⟩
  | fixedList n | variableList =>
      rw [bindType, bindType, htype]
      cases sc.catalog.lookup a.type with
      | some t => exact ⟨_, _, rfl, rfl⟩
      | none => cases sc.class? a.type <;> exact ⟨_, _, rfl, rfl⟩

/-- Typing an attribute without links: only what binding counts clears is missing. -/
theorem bindAttribute_unlinked (owner : String) (a : Attribute) :
    bindAttribute sc owner a.unlinked =
      ({ (bindAttribute sc owner a).1 with countField? := none, countedList? := none },
        (bindAttribute sc owner a).2) := by
  have hshape : a.unlinked.shape = a.shape := rfl
  rw [bindAttribute, bindAttribute, hshape]
  cases a.shape with
  | none => rfl
  | some shape =>
      obtain ⟨t, c, hout, hunlinked⟩ := bindType_unlinked sc owner a shape
      simp only [hunlinked, hout]
      rfl

theorem bindCounts_congr {owner : String} {ci : Nat} {attrs attrs' : List Attribute}
    (h : cleared attrs' = cleared attrs) :
    bindCounts sc owner ci attrs' = bindCounts sc owner ci attrs := by
  unfold cleared at h
  simp only [bindCounts, h]

theorem bindClass_bare (i : Nat) (c : Class) :
    bindClass sc i (bare c) = (untargeted (bindClass sc i c).1, (bindClass sc i c).2) := by
  have hattrs : (bare c).attributes.map (bindAttribute sc c.name) =
      (c.attributes.map (bindAttribute sc c.name)).map
        fun r => ({ r.1 with countField? := none, countedList? := none }, r.2) := by
    rw [bare, List.map_map, List.map_map]
    exact List.map_congr_left fun a _ => bindAttribute_unlinked sc c.name a
  have hcounts : bindCounts sc c.name i
      (((c.attributes.map (bindAttribute sc c.name)).map
        fun r => ({ r.1 with countField? := none, countedList? := none }, r.2)).map (·.1)) =
      bindCounts sc c.name i ((c.attributes.map (bindAttribute sc c.name)).map (·.1)) := by
    refine bindCounts_congr sc ?_
    simp [cleared, Function.comp_def]
  have hreports : ((c.attributes.map (bindAttribute sc c.name)).map
      fun r => (({ r.1 with countField? := none, countedList? := none } : Attribute), r.2)).map
        (·.2) = (c.attributes.map (bindAttribute sc c.name)).map (·.2) := by
    rw [List.map_map]
    rfl
  have hname : (bare c).name = c.name := rfl
  simp only [bindClass, hname, hattrs, hcounts, hreports]
  rfl

theorem bindInitialValues_untargeted {m m' : Model} (hsame : valueless m' = valueless m) (i : Nat)
    (c : Class) : bindInitialValues sc m' i (untargeted c) = bindInitialValues sc m i c := by
  have hvalues : (untargeted c).initialValues.map (bindInitialValue sc m' i c.name) =
      c.initialValues.map (bindInitialValue sc m i c.name) := by
    rw [untargeted, List.map_map]
    refine List.map_congr_left fun v _ => ?_
    rw [Function.comp_apply, ← valueless_bindInitialValue m', hsame, valueless_bindInitialValue]
    rfl
  have hname : (untargeted c).name = c.name := rfl
  simp only [bindInitialValues, hname, hvalues]
  rfl

theorem valueless_untargeted (m : Model) : valueless (mapClasses untargeted m) = valueless m := by
  simp only [valueless, mapClasses, List.map_map]
  rfl

theorem onClasses_unlinked (m : Model) :
    onClasses m.unlinked (fun _ c => bindParent sc c) =
      (mapClasses bare (onClasses m fun _ c => bindParent sc c).1,
        (onClasses m fun _ c => bindParent sc c).2) :=
  onClasses_mapClasses (fun _ c => bindParent_unlinked sc c) m

theorem onClasses_bare (m : Model) :
    onClasses (mapClasses bare m) (bindClass sc) =
      (mapClasses untargeted (onClasses m (bindClass sc)).1, (onClasses m (bindClass sc)).2) :=
  onClasses_mapClasses (bindClass_bare sc) m

theorem onClasses_untargeted (m : Model) :
    onClasses (mapClasses untargeted m) (bindInitialValues sc (mapClasses untargeted m)) =
      onClasses m (bindInitialValues sc m) := by
  have hstep : ∀ i c, bindInitialValues sc (mapClasses untargeted m) i (untargeted c) =
      (id (bindInitialValues sc m i c).1, (bindInitialValues sc m i c).2) := fun i c =>
    bindInitialValues_untargeted sc (valueless_untargeted m) i c
  rw [onClasses_mapClasses hstep]
  simp only [mapClasses, List.map_id]

end Steps

/-- **Resolution does not look at the links that a model has.** -/
theorem run_unlinked (catalog : Catalog) (limit : Int) (m : Model) :
    run catalog limit m.unlinked = run catalog limit m := by
  have hnames : m.unlinked.classNames = m.classNames := by
    simp only [Model.classNames, Model.unlinked, List.map_map]
    rfl
  have hrepeated : repeatedNames [] m.unlinked.classes = repeatedNames [] m.classes := by
    refine repeatedNames_congr _ _ [] ?_
    rw [Model.unlinked, List.map_map]
    refine List.map_congr_left fun c _ => ?_
    rw [Function.comp_apply, Class.unlinked, List.map_map]
    rfl
  simp only [run, hnames, hrepeated, onClasses_unlinked, onClasses_bare, onClasses_untargeted]

/-! ## What a resolved model declares -/

/-- Binding changes nothing of what an attribute declares but its flag and what it counts. -/
theorem declared_of_trace {sc : Scope} {owner : String} {a a' : Attribute} (h : a.Declared)
    (hlabelled : a'.Labelled) (heq : uncounted a' = uncounted (bindAttribute sc owner a).1) :
    a'.Declared := by
  obtain ⟨t, c, hout, -⟩ := bindAttribute_bound sc owner a
  rw [hout] at heq
  have hshape := congrArg Attribute.shape heq
  have htype := congrArg Attribute.type heq
  have hfield := congrArg Attribute.countFieldName heq
  change a'.shape = a.shape at hshape
  change a'.type = a.type at htype
  change a'.countFieldName = a.countFieldName at hfield
  refine ⟨hlabelled, hshape ▸ h.shaped, ?_, ?_⟩
  · rw [Attribute.isPrimitive, Attribute.isReference, hshape, htype]
    exact h.typed
  · rw [Attribute.isVariableList, hshape, hfield]
    exact h.unlisted

theorem Passes.version {sc : Scope} {m m₁ m₂ m₃ : Model} (h : Passes sc m m₁ m₂ m₃) :
    m₃.version = m.version := by
  obtain ⟨rfl, rfl, rfl⟩ := h
  rfl

theorem Clean.declared {sc : Scope} {m m₁ m₂ m₃ : Model} (h : Clean sc m m₁ m₂ m₃)
    (hdeclared : m.Declared) : m₃.Declared := by
  refine ⟨h.version ▸ hdeclared.versioned, fun c₃ hc₃ => ?_⟩
  obtain ⟨i, hi⟩ := List.mem_iff_getElem?.mp hc₃
  obtain ⟨c, hc, hc₁, -, rfl⟩ := h.trace hi
  have hclass := hdeclared.classes c (List.mem_of_getElem? hc)
  have hattrs : (bindParent sc c).1.attributes = c.attributes := bindParent_attributes sc c
  obtain ⟨-, hcounts⟩ := bindClass_noErrors (onClasses_noErrors h.members_ok hc₁)
  have hlabelled := bindCounts_labelled hcounts (bindAttributes_labelled sc _ fun a ha =>
    (hclass.attributes a (hattrs ▸ ha)).toLabelled)
  constructor
  · rw [bindInitialValues_name, bindClass_name, bindParent_name]
    exact hclass.named
  · intro a' ha'
    rw [bindInitialValues_attributes] at ha'
    obtain ⟨a, ha, heq⟩ := bindClass_trace ha'
    exact declared_of_trace (hclass.attributes a (hattrs ▸ ha)) (hlabelled a' ha') heq

section Run

variable {catalog : Catalog} {limit : Int} {m : Model}

/-- A resolution that succeeded leaves a model that a schema file can describe. -/
theorem run_declared (hdeclared : m.Declared) (h : (run catalog limit m).succeeded = true) :
    (run catalog limit m).model.Declared := by
  obtain ⟨m₁, m₂, hclean⟩ := run_clean h
  exact hclean.declared hdeclared

/-- A resolved model resolves as before once its links are dropped. -/
theorem run_unlinked_model (hdeclared : m.Declared) (h : (run catalog limit m).succeeded = true) :
    run catalog limit (run catalog limit m).model.unlinked = run catalog limit m := by
  rw [run_unlinked]
  exact run_settled (fun c hc a ha => ((hdeclared.classes c hc).attributes a ha).toLabelled) h

end Run

/-- **Writing a schema and loading it again preserves it, before and after resolution.**  A loaded
model that was written is loaded as it is.  If it resolves, and is written as it is then, what is
loaded resolves as well, to the same model with all its links, with the same report and the same
order.  Files are printed and read in any format; what is asked of it is that both files are read as
they were printed. -/
theorem run_reloaded {σ : Type} (read : σ → Except Schema.LoadError Schema.FileEntry)
    (print : Schema.FileEntry → σ) {text : σ} {m : Model}
    (hload : Schema.loadWith read text = .ok m)
    (hback : read (print (.ofModel m)) = .ok (.ofModel m)) (catalog : Catalog) (limit : Int) :
    Schema.loadWith read (Schema.writeWith print m) = .ok m ∧
      ((run catalog limit m).succeeded = true →
        read (print (.ofModel (run catalog limit m).model)) =
          .ok (.ofModel (run catalog limit m).model) →
        ∃ m', Schema.loadWith read (Schema.writeWith print (run catalog limit m).model) = .ok m' ∧
          (run catalog limit m').succeeded = true ∧
              run catalog limit m' = run catalog limit m) := by
  obtain ⟨file, -, hfile⟩ := Schema.toModel_of_loadWith hload
  obtain ⟨hdeclared, hlinks⟩ := Schema.toModel_declared hfile
  refine ⟨?_, fun hsucceeded hagain => ?_⟩
  · rw [Schema.loadWith_writeWith hdeclared hback, hlinks]
  · have hsame := run_unlinked_model hdeclared hsucceeded
    have hreloaded := Schema.loadWith_writeWith (run_declared hdeclared hsucceeded) hagain
    refine ⟨(run catalog limit m).model.unlinked, hreloaded, ?_, hsame⟩
    rw [hsame]
    exact hsucceeded

/-- A list that names its count field, which is not flagged as one. -/
def counted : Model where
  classes :=
    [{ name := "A"
       attributes :=
        [{ name := "n", shape := some .primitive, type := "byte" },
         { name := "l", shape := some .variableList, type := "byte", countFieldName := "n" }] }]

/-- The resolved model is written with the flag, beside the list that names the count field. -/
theorem run_reloaded_counted :
    Schema.load (Schema.write counted) = .ok counted ∧
      (run .standard 3 counted).succeeded = true ∧
      Schema.write (run .standard 3 counted).model ≠ Schema.write counted ∧
      ∃ m', Schema.load (Schema.write (run .standard 3 counted).model) = .ok m' ∧
        (run .standard 3 m').succeeded = true ∧
        run .standard 3 m' = run .standard 3 counted := by
  have hback : Schema.FileEntry.ofBytes (Schema.FileEntry.ofModel counted).toBytes =
      .ok (.ofModel counted) := by
    rw [Schema.FileEntry.toBytes, Text.bytesOf_eq]
    decide +kernel
  have hload : Schema.load (Schema.write counted) = .ok counted := by
    rw [Schema.load, Schema.loadWith, Schema.write, Schema.writeWith, hback]
    rfl
  have hsucceeded : (run .standard 3 counted).succeeded = true := by decide +kernel
  have hagain : Schema.FileEntry.ofBytes
      (Schema.FileEntry.ofModel (run .standard 3 counted).model).toBytes =
        .ok (.ofModel (run .standard 3 counted).model) := by
    rw [Schema.FileEntry.toBytes, Text.bytesOf_eq]
    decide +kernel
  have hflagged : Schema.write (run .standard 3 counted).model ≠ Schema.write counted := by
    simp only [Schema.write, Schema.writeWith, Schema.FileEntry.toBytes, Text.bytesOf_eq]
    decide +kernel
  obtain ⟨hfirst, hsecond⟩ := run_reloaded Schema.FileEntry.ofBytes Schema.FileEntry.toBytes hload
    hback .standard 3
  exact ⟨hfirst, hsucceeded, hflagged, hsecond hsucceeded hagain⟩

end Resolve

end WireSchema
