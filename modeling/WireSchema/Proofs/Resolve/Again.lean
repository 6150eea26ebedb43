import Mathlib
import WireSchema.Proofs.Resolve.Bound
import WireSchema.Proofs.Resolve.Recount

/-!
# Resolving twice

Resolution writes its links into the model it is given.  Given its own result it finds them there,
clears them and binds everything again.  This comes to the same: each step reads names and shapes,
which no step changes, and counts are bound a second time as they were the first time.  The latter
takes a model that was loaded: see `unlabelled` at the end.

Every step is shown to leave a type as the first run left it, with the report of the first run;
`onClasses_again` makes this a statement about a whole pass.

## Main results

* `bindClass_again` — attributes and counts.
* `bindInitialValues_again` — initial values.
* `run_again` — a resolution of the model of a file that succeeded, made again on the model it
  returned, succeeds with the same model, the same report and the same order.
-/

namespace WireSchema.Resolve

/-! ## One pass over all types -/

/-- A pass that leaves each type of a model as it is, and reports what a pass over another model
reported for the type in its place. -/
theorem onClasses_again {m₀ m : Model} {step again : Nat → Class → Class × Report}
    (hlen : m.classes.length = m₀.classes.length)
    (h : ∀ (i : Nat) (c₀ c : Class), m₀.classes[i]? = some c₀ → m.classes[i]? = some c →
      again i c = (c, (step i c₀).2)) :
    onClasses m again = (m, (onClasses m₀ step).2) := by
  have hat : ∀ (i : Nat) (hi : i < m.classes.length) (hi₀ : i < m₀.classes.length),
      again i m.classes[i] = (m.classes[i], (step i m₀.classes[i]).2) :=
    fun i hi hi₀ => h i _ _ (List.getElem?_eq_getElem hi₀) (List.getElem?_eq_getElem hi)
  have hclasses : (m.classes.mapIdx again).map (·.1) = m.classes := by
    refine List.ext_getElem (by simp) fun i _ hi => ?_
    simp [hat i hi (hlen ▸ hi)]
  have hreports : (m.classes.mapIdx again).map (·.2) = (m₀.classes.mapIdx step).map (·.2) := by
    refine List.ext_getElem (by simp [hlen]) fun i hi hi₀ => ?_
    simp [hat i (by simpa using hi) (by simpa using hi₀)]
  simp only [onClasses, hclasses, hreports]

theorem repeatedNames_congr (classes : List Class) :
    ∀ (classes' : List Class) (seen : List String),
      classes'.map (fun c => (c.name, c.attributes.map (·.name))) =
        classes.map (fun c => (c.name, c.attributes.map (·.name))) →
      repeatedNames seen classes' = repeatedNames seen classes := by
  induction classes with
  | nil =>
      intro classes' seen h
      rw [List.map_eq_nil_iff.mp h]
  | cons c rest ih =>
      intro classes' seen h
      cases classes' with
      | nil => cases h
      | cons c' rest' =>
          obtain ⟨hhead, hrest⟩ := List.cons.inj h
          obtain ⟨hname, hattrs⟩ := Prod.mk.inj hhead
          rw [repeatedNames, repeatedNames, hname, hattrs, ih rest' _ hrest]

/-! ## Parents -/

theorem bindParent_again {sc : Scope} {c c' : Class} (hname : c'.name = c.name)
    (hparent : c'.parent = c.parent) (hlink : c'.parentClass? = (bindParent sc c).1.parentClass?) :
    bindParent sc c' = (c', (bindParent sc c).2) := by
  obtain ⟨name, parent, comment, attributes, values, link⟩ := c'
  obtain rfl : name = c.name := hname
  obtain rfl : parent = c.parent := hparent
  obtain rfl : link = (bindParent sc c).1.parentClass? := hlink
  have hhas : ∀ link, (Class.mk c.name c.parent comment attributes values link).hasParent =
      c.hasParent := fun _ => rfl
  cases hpar : c.hasParent with
  | false => simp [bindParent, hhas, hpar]
  | true => cases hcls : sc.class? c.parent <;> simp [bindParent, hhas, hpar, hcls]

/-! ## Attributes -/

/-- What binding counts may change plays no part in binding types. -/
theorem bindType_uncounted (sc : Scope) (owner : String) (a : Attribute) (shape : Shape) :
    bindType sc owner (uncounted a) shape =
      (uncounted (bindType sc owner a shape).1, (bindType sc owner a shape).2) := by
  have htype : (uncounted a).type = a.type := rfl
  cases shape with
  | primitive =>
      rw [bindType, bindType, htype]
      cases sc.catalog.lookup a.type <;> rfl
  | reference =>
      rw [bindType, bindType, htype]
      cases sc.class? a.type <;> rfl
  | fixedList n | variableList =>
      rw [bindType, bindType, htype]
      cases sc.catalog.lookup a.type with
      | some t => rfl
      | none => cases sc.class? a.type <;> rfl

theorem bindAttribute_uncounted (sc : Scope) (owner : String) (a : Attribute) :
    bindAttribute sc owner (uncounted a) =
      (uncounted (bindAttribute sc owner a).1, (bindAttribute sc owner a).2) := by
  have hshape : (uncounted a).shape = a.shape := rfl
  rw [bindAttribute, bindAttribute, hshape]
  cases a.shape with
  | none => rfl
  | some shape =>
      simp only [bindType_uncounted]
      rfl

/-- Type links are cleared before they are bound. -/
theorem bindAttribute_bindAttribute (sc : Scope) (owner : String) (a : Attribute) :
    bindAttribute sc owner (bindAttribute sc owner a).1 = bindAttribute sc owner a := by
  obtain ⟨t, c, hout, -⟩ := bindAttribute_bound sc owner a
  rw [hout]
  rfl

theorem bindAttribute_again {sc : Scope} {owner : String} {a a' : Attribute}
    (h : uncounted a' = uncounted (bindAttribute sc owner a).1) :
    bindAttribute sc owner a' = (a', (bindAttribute sc owner a).2) := by
  have huncounted : (uncounted (bindAttribute sc owner a').1, (bindAttribute sc owner a').2) =
      (uncounted a', (bindAttribute sc owner a).2) := by
    rw [← bindAttribute_uncounted, h, bindAttribute_uncounted, bindAttribute_bindAttribute]
  obtain ⟨hattr, hreport⟩ := Prod.mk.inj huncounted
  refine Prod.ext ?_ hreport
  obtain ⟨t, c, hout, -⟩ := bindAttribute_bound sc owner a'
  rw [hout] at hattr ⊢
  obtain rfl : t = a'.primitive? := congrArg Attribute.primitive? hattr
  obtain rfl : c = a'.class? := congrArg Attribute.class? hattr
  rfl

/-- Attributes that binding counts made of typed ones are typed as they were, with the same
reports. -/
theorem bindAttributes_again {sc : Scope} {owner : String} {attrs attrs' : List Attribute}
    (h : attrs'.map uncounted = attrs.map fun a => uncounted (bindAttribute sc owner a).1) :
    (attrs'.map (bindAttribute sc owner)).map (·.1) = attrs' ∧
      (attrs'.map (bindAttribute sc owner)).map (·.2) =
        (attrs.map (bindAttribute sc owner)).map (·.2) := by
  have hlen : attrs'.length = attrs.length := by simpa using congrArg List.length h
  have hat : ∀ (k : Nat) (hk' : k < attrs'.length) (hk : k < attrs.length),
      bindAttribute sc owner attrs'[k] = (attrs'[k], (bindAttribute sc owner attrs[k]).2) := by
    intro k hk' hk
    refine bindAttribute_again (Option.some.inj ?_)
    simpa [hk', hk] using congrArg (·[k]?) h
  constructor
  · refine List.ext_getElem (by simp) fun k _ hk => ?_
    simp [hat k hk (hlen ▸ hk)]
  · refine List.ext_getElem (by simp [hlen]) fun k hk' hk => ?_
    simp [hat k (by simpa using hk') (by simpa using hk)]

/-- Typing attributes keeps them labelled. -/
theorem bindAttributes_labelled (sc : Scope) (owner : String) {attrs : List Attribute}
    (hlabelled : ∀ a ∈ attrs, a.Labelled) :
    ∀ a ∈ (attrs.map (bindAttribute sc owner)).map (·.1), a.Labelled := by
  rw [List.map_map]
  intro a ha
  obtain ⟨a₀, ha₀, rfl⟩ := List.mem_map.mp ha
  obtain ⟨t, cl, hout, -⟩ := bindAttribute_bound sc owner a₀
  rw [Function.comp_apply, hout]
  exact ⟨(hlabelled a₀ ha₀).named, (hlabelled a₀ ha₀).flagged⟩

theorem bindClass_again {sc : Scope} {i : Nat} {c c' : Class}
    (herr : (bindClass sc i c).2.hasErrors = false) (hlabelled : ∀ a ∈ c.attributes, a.Labelled)
    (hnodup : (c.attributes.map (·.name)).Nodup) (hname : c'.name = c.name)
    (hattrs : c'.attributes = (bindClass sc i c).1.attributes) :
    bindClass sc i c' = (c', (bindClass sc i c).2) := by
  have hbound := bindAttributes_labelled sc c.name hlabelled
  obtain ⟨htyped, hreports⟩ := bindAttributes_again (bindClass_uncounted sc i c)
  have hcounts := bindCounts_again (bindClass_noErrors herr).2 hbound (by rwa [bindAttribute_names])
  obtain ⟨name, parent, comment, attributes, values, link⟩ := c'
  obtain rfl : name = c.name := hname
  obtain rfl : attributes = (bindClass sc i c).1.attributes := hattrs
  rw [bindClass]
  simp only [htyped, hreports]
  rw [show (bindClass sc i c).1.attributes = (bindCounts sc c.name i
    ((c.attributes.map (bindAttribute sc c.name)).map (·.1))).1 from rfl, hcounts]
  rfl

/-! ## Initial values -/

section Valueless

variable (m : Model)

theorem valueless_lookupAttribute (i : Nat) (name : String) :
    (valueless m).lookupAttribute i name = m.lookupAttribute i name := by
  rw [Model.lookupAttribute, Model.lookupAttribute, valueless_chain]
  congr 1
  funext j
  rw [getElem?_valueless]
  cases m.classes[j]? <;> rfl

theorem valueless_setterNames (i : Nat) : setterNames (valueless m) i = setterNames m i := by
  rw [setterNames, setterNames, valueless_chain]
  congr 1
  funext j
  rw [getElem?_valueless]
  cases m.classes[j]? <;> rfl

theorem valueless_bindInitialValue (sc : Scope) (i : Nat) (owner : String) (v : InitialValue) :
    bindInitialValue sc (valueless m) i owner v = bindInitialValue sc m i owner v := by
  unfold bindInitialValue
  simp only [valueless_lookupAttribute, valueless_setterNames, valueless_attribute?]

end Valueless

/-- Only the target of an initial value is set, and what it was is not looked at. -/
theorem bindInitialValue_target (sc : Scope) (m : Model) (i : Nat) (owner : String)
    (v : InitialValue) : ∃ t, (bindInitialValue sc m i owner v).1 = { v with target? := t } := by
  unfold bindInitialValue
  dsimp only
  split
  · exact ⟨none, rfl⟩
  split
  · exact ⟨none, rfl⟩
  split
  · exact ⟨none, rfl⟩
  split
  · exact ⟨none, rfl⟩
  split
  · exact ⟨none, rfl⟩
  split
  · exact ⟨_, rfl⟩
  · exact ⟨none, rfl⟩

theorem bindInitialValue_again {sc : Scope} {m m' : Model} (hsame : valueless m' = valueless m)
    (i : Nat) (owner : String) (v : InitialValue) :
    bindInitialValue sc m' i owner (bindInitialValue sc m i owner v).1 =
      bindInitialValue sc m i owner v := by
  obtain ⟨t, hout⟩ := bindInitialValue_target sc m i owner v
  rw [hout, ← valueless_bindInitialValue m', hsame, valueless_bindInitialValue]
  rfl

theorem bindInitialValues_again {sc : Scope} {m m' : Model} (hsame : valueless m' = valueless m)
    (i : Nat) (c : Class) :
    bindInitialValues sc m' i (bindInitialValues sc m i c).1 = bindInitialValues sc m i c := by
  have hvalues : ((c.initialValues.map (bindInitialValue sc m i c.name)).map (·.1)).map
      (bindInitialValue sc m' i c.name) = c.initialValues.map (bindInitialValue sc m i c.name) := by
    rw [List.map_map, List.map_map]
    exact List.map_congr_left fun v _ => bindInitialValue_again hsame i c.name v
  simp only [bindInitialValues, hvalues]

/-! ## The whole resolution -/

section Clean

variable {sc : Scope} {m m₁ m₂ m₃ : Model}

theorem Clean.repeated_again (h : Clean sc m m₁ m₂ m₃) :
    repeatedNames [] m₃.classes = repeatedNames [] m.classes := by
  refine repeatedNames_congr _ _ [] (List.ext_getElem (by simp [h.length]) fun i hi₃ hi => ?_)
  have hlt₃ : i < m₃.classes.length := by simpa using hi₃
  have hlt : i < m.classes.length := by simpa using hi
  obtain ⟨c, hc, hc₁, -, hc₃⟩ := h.trace (List.getElem?_eq_getElem hlt₃)
  obtain rfl := Option.some.inj ((List.getElem?_eq_getElem hlt).symm.trans hc)
  have hattrs := (bindClass_bound (onClasses_noErrors h.members_ok hc₁)).names
  rw [bindParent_attributes] at hattrs
  rw [List.getElem_map, List.getElem_map, hc₃, bindInitialValues_name, bindClass_name,
    bindParent_name, bindInitialValues_attributes, hattrs]

theorem Clean.parents_again (h : Clean sc m m₁ m₂ m₃) :
    onClasses m₃ (fun _ c => bindParent sc c) =
        (m₃, (onClasses m fun _ c => bindParent sc c).2) := by
  refine onClasses_again h.length fun i c c₃ hc hc₃ => ?_
  obtain ⟨c', hc', -, -, rfl⟩ := h.trace hc₃
  obtain rfl := Option.some.inj (hc.symm.trans hc')
  refine bindParent_again ?_ ?_ ?_
  · rw [bindInitialValues_name, bindClass_name, bindParent_name]
  · rw [bindInitialValues_parent, bindClass_parent, bindParent_parent]
  · rw [bindInitialValues_parentClass?, bindClass_parentClass?]

theorem Clean.members_again (h : Clean sc m m₁ m₂ m₃)
    (hlabelled : ∀ c ∈ m.classes, ∀ a ∈ c.attributes, a.Labelled) :
    onClasses m₃ (bindClass sc) = (m₃, (onClasses m₁ (bindClass sc)).2) := by
  have hlen : m₃.classes.length = m₁.classes.length := by
    rw [h.values, length_onClasses, h.members, length_onClasses]
  refine onClasses_again hlen fun i c₁ c₃ hc₁ hc₃ => ?_
  obtain ⟨c, hc, hc₁', -, rfl⟩ := h.trace hc₃
  obtain rfl := Option.some.inj (hc₁'.symm.trans hc₁)
  refine bindClass_again (onClasses_noErrors h.members_ok hc₁) ?_ ?_ ?_ ?_
  · rw [bindParent_attributes]
    exact hlabelled c (List.mem_of_getElem? hc)
  · rw [bindParent_attributes]
    exact (repeatedNames_nodup m.classes [] h.repeated_ok).2.2 c (List.mem_of_getElem? hc)
  · rw [bindInitialValues_name, bindClass_name]
  · rw [bindInitialValues_attributes]

theorem Clean.values_again (h : Clean sc m m₁ m₂ m₃) :
    onClasses m₃ (bindInitialValues sc m₃) = (m₃, (onClasses m₂ (bindInitialValues sc m₂)).2) := by
  have hsame : valueless m₃ = valueless m₂ := by rw [h.values, valueless_bindInitialValues]
  have hlen : m₃.classes.length = m₂.classes.length := by rw [h.values, length_onClasses]
  refine onClasses_again hlen fun i c₂ c₃ hc₂ hc₃ => ?_
  obtain ⟨c, -, -, hc₂', rfl⟩ := h.trace hc₃
  obtain rfl := Option.some.inj (hc₂'.symm.trans hc₂)
  rw [bindInitialValues_again hsame]

end Clean

/-- A resolution in terms of its passes. -/
theorem run_of_passes {catalog : Catalog} {limit : Int} {sc : Scope} {m m₁ m₂ m₃ : Model}
    (h : Passes sc m m₁ m₂ m₃) (hscope : sc = ⟨catalog, m.classNames, limit⟩) :
    run catalog limit m =
      ⟨m₃, (repeatedNames [] m.classes ++ (onClasses m fun _ c => bindParent sc c).2 ++
        (onClasses m₁ (bindClass sc)).2 ++ (onClasses m₂ (bindInitialValues sc m₂)).2 ++
        (checkCycles m₃).2).sort, (checkCycles m₃).1⟩ := by
  obtain ⟨rfl, rfl, rfl⟩ := h
  subst hscope
  rfl

/-- A resolution of labelled attributes that succeeded ends in a model that resolves to itself. -/
theorem run_settled {catalog : Catalog} {limit : Int} {m : Model}
    (hlabelled : ∀ c ∈ m.classes, ∀ a ∈ c.attributes, a.Labelled)
    (h : (run catalog limit m).succeeded = true) :
    run catalog limit (run catalog limit m).model = run catalog limit m := by
  obtain ⟨m₁, m₂, hclean⟩ := run_clean h
  have hparents := hclean.parents_again
  have hmembers := hclean.members_again hlabelled
  have hvalues := hclean.values_again
  generalize hm₃ : (run catalog limit m).model = m₃ at hclean hparents hmembers hvalues ⊢
  -- The passes of the second run all end where they start.
  have hpasses : Passes ⟨catalog, m.classNames, limit⟩ m₃ m₃ m₃ m₃ :=
    ⟨by rw [hparents], by rw [hmembers], by rw [hvalues]⟩
  rw [run_of_passes hpasses (by rw [hclean.classNames]), run_of_passes hclean.toPasses rfl,
    hclean.repeated_again, hparents, hmembers, hvalues]

/-- **Resolving is idempotent.**  A resolution of the model of a file that succeeded, made again on
the model it returned, succeeds, with the same links, flags and counted names, the same errors and
warnings and the same order. -/
theorem run_again {catalog : Catalog} {limit : Int} {file : Schema.FileEntry} {m : Model}
    (hfile : file.toModel = .ok m) (h : (run catalog limit m).succeeded = true) :
    (run catalog limit (run catalog limit m).model).succeeded = true ∧
      run catalog limit (run catalog limit m).model = run catalog limit m := by
  have hagain := run_settled (Schema.toModel_labelled hfile) h
  exact ⟨by rwa [hagain], hagain⟩

/-- Resolving a loaded model is idempotent. -/
theorem run_loaded_again {catalog : Catalog} {limit : Int} {bytes : List UInt8} {m : Model}
    (hload : Schema.load bytes = .ok m) (h : (run catalog limit m).succeeded = true) :
    run catalog limit (run catalog limit m).model = run catalog limit m :=
  run_settled (Schema.load_labelled hload) h

/-- A schema whose count field is not flagged as one until the list that names it is bound. -/
def unflaggedText : String :=
  "classes:\n- name: Node\n  attributes:\n  - name: count\n    primitive: byte\n" ++
    "  - name: items\n    variable_list:\n      type: byte\n      count_field: count\n"

/-- Its model. -/
def unflagged : Model where
  classes :=
    [{ name := "Node"
       attributes :=
        [{ name := "count", shape := some .primitive, type := "byte" },
         { name := "items", shape := some .variableList, type := "byte",
           countFieldName := "count" }] }]

/-- The second run starts from another model than the first, and ends where the first did. -/
theorem run_again_unflagged :
    Schema.load (Text.bytesOf unflaggedText) = .ok unflagged ∧
      (run .standard 3 unflagged).succeeded = true ∧ (run .standard 3 unflagged).model ≠ unflagged ∧
      (run .standard 3 (run .standard 3 unflagged).model).succeeded = true ∧
      run .standard 3 (run .standard 3 unflagged).model = run .standard 3 unflagged := by
  have hload : Schema.load (Text.bytesOf unflaggedText) = .ok unflagged := by
    rw [Text.bytesOf_eq]
    decide +kernel
  have hfirst : (run .standard 3 unflagged).succeeded = true ∧
      (run .standard 3 unflagged).model ≠ unflagged := by
    decide +kernel
  obtain ⟨file, -, hfile⟩ := Schema.toModel_of_loadWith hload
  exact ⟨hload, hfirst.1, hfirst.2, run_again hfile hfirst.1⟩

/-- A model that no text describes: an attribute says what it counts without being flagged. -/
def unlabelled : Model where
  classes :=
    [{ name := "Node"
       attributes :=
        [{ name := "count", shape := some .primitive, type := "byte" },
         { name := "other", shape := some .primitive, type := "byte", counts := "items" },
         { name := "items", shape := some .variableList, type := "byte",
           countFieldName := "count" },
         { name := "rest", shape := some .variableList, type := "byte",
           countFieldName := "other" }] }]

-- The last list flags `other`, which makes it a second candidate for `items` the next time.
example : (run .standard 3 unlabelled).succeeded = true ∧
    (run .standard 3 (run .standard 3 unlabelled).model).succeeded = false := by
  decide +kernel

end WireSchema.Resolve
