import Mathlib
import WireSchema.Proofs.Naming.Setter
import WireSchema.Proofs.Resolve.Declared
import WireSchema.Proofs.Resolve.Targets

/-!
# Which attributes can be set by their setters

An unknown setter is reported with the setters that the type has: those of the primitives of the
type and its ancestors, counts aside.  Asking for one of them finds the attribute it is the setter
of just if the name of the attribute can be read back from it.  So not every setter that is
suggested is known; one of an attribute that starts with a capital is not.

This takes for granted that the types of attributes are known.  They are, unless something else than
an initial value is reported.

## Main results

* `run_typed` — primitives have their types, whatever is reported about initial values.
* `bindInitialValue_target_iff` — when an initial value is bound to an attribute.
* `run_setters` — when a setter that is suggested sets its attribute.
-/

namespace WireSchema.Resolve

/-! ## What is reported about types -/

/-- Nothing is reported but what can be wrong with initial values: a setter or a literal. -/
def OnlyValues (report : Report) : Prop :=
  ∀ d ∈ report.errors, d.code = Diagnostic.unknownSetter ∨ d.code = Diagnostic.invalidLiteral

instance (report : Report) : Decidable (OnlyValues report) := by
  unfold OnlyValues
  infer_instance

/-- A primitive without a type is reported. -/
theorem bindAttribute_untyped (sc : Scope) (owner : String) {a : Attribute}
    (hprim : a.isPrimitive = true) (hnone : (bindAttribute sc owner a).1.primitive? = none) :
    ∃ d ∈ (bindAttribute sc owner a).2.errors, d.code = Diagnostic.unknownType := by
  have hshape : a.shape = some .primitive := by simpa [Attribute.isPrimitive] using hprim
  cases hknown : sc.catalog.lookup a.type with
  | some t => simp [bindAttribute, hshape, bindType, hknown] at hnone
  | none =>
      obtain ⟨message, suggestions, rest, hreport⟩ : ∃ message suggestions rest,
          (bindAttribute sc owner a).2 =
            .error Diagnostic.unknownType message owner a.name suggestions ++ rest := by
        simp only [bindAttribute, hshape, bindType, hknown]
        exact ⟨_, _, _, rfl⟩
      rw [hreport, Report.errors_append]
      exact ⟨_, List.mem_append_left _ List.mem_cons_self, rfl⟩

theorem bindClass_untyped {sc : Scope} {i : Nat} {c : Class} {a : Attribute}
    (ha : a ∈ (bindClass sc i c).1.attributes) (hprim : a.isPrimitive = true)
    (hnone : a.primitive? = none) :
    ∃ d ∈ (bindClass sc i c).2.errors, d.code = Diagnostic.unknownType := by
  obtain ⟨a₀, ha₀, hsame⟩ := bindClass_trace ha
  obtain ⟨t, cl, hout, -⟩ := bindAttribute_bound sc c.name a₀
  have hshape : a.shape = a₀.shape := (congrArg Attribute.shape hsame).trans (by rw [hout]; rfl)
  have htype : (bindAttribute sc c.name a₀).1.primitive? = none :=
    (congrArg Attribute.primitive? hsame).symm.trans hnone
  obtain ⟨d, hd, hcode⟩ :=
    bindAttribute_untyped sc c.name (by rwa [Attribute.isPrimitive, ← hshape]) htype
  refine ⟨d, List.mem_append_left _ (Report.mem_errors_join.mpr ⟨_, ?_, hd⟩), hcode⟩
  exact List.mem_map_of_mem (List.mem_map_of_mem ha₀)

/-- **Primitives have their types**, whatever is reported about initial values. -/
theorem run_typed {catalog : Catalog} {limit : Int} {raw : Model}
    (h : OnlyValues (run catalog limit raw).report) {r : AttrRef} {a : Attribute}
    (ha : (run catalog limit raw).model.attribute? r = some a) (hprim : a.isPrimitive = true) :
    ∃ t, a.primitive? = some t := by
  let sc : Scope := ⟨catalog, raw.classNames, limit⟩
  have hpasses : Passes sc raw _ _ (run catalog limit raw).model := ⟨rfl, rfl, rfl⟩
  obtain ⟨c, hc, hattr⟩ := Option.bind_eq_some_iff.mp ha
  obtain ⟨c₀, -, hc₁, -, rfl⟩ := hpasses.trace hc
  rw [bindInitialValues_attributes] at hattr
  by_contra hnone
  obtain ⟨d, hd, hcode⟩ := bindClass_untyped (List.mem_of_getElem? hattr) hprim
    (Option.eq_none_iff_forall_ne_some.mpr fun t ht => hnone ⟨t, ht⟩)
  have hmem : d ∈ (run catalog limit raw).report.errors := by
    refine Report.mem_errors_sort.mpr ?_
    simp only [Report.errors_append, List.mem_append]
    exact .inl (.inl (.inr (mem_errors_onClasses hc₁ hd)))
  rcases h d hmem with hother | hother
  · exact absurd (hcode.symm.trans hother) (by decide)
  · exact absurd (hcode.symm.trans hother) (by decide)

/-! ## Setters -/

section Setters

variable {m : Model} {i : Nat} {r : AttrRef} {a : Attribute}

theorem name_of_lookup {name : String} (h : m.lookupAttribute i name = some r)
    (ha : m.attribute? r = some a) : a.name = name := by
  obtain ⟨c, b, hc, hb, hname⟩ := Model.attribute?_lookup h
  rw [Model.attribute?, hc, Option.bind_some, hb] at ha
  exact Option.some.inj ha ▸ hname

/-- The setters of a type are those of the primitives it finds. -/
theorem setterName_mem (h : m.lookupAttribute i a.name = some r) (ha : m.attribute? r = some a)
    (hprim : a.isPrimitive = true) (hcount : a.isCount = false) :
    Naming.setterName a.name ∈ setterNames m i := by
  obtain ⟨c, hc, hattr⟩ := Option.bind_eq_some_iff.mp ha
  refine List.mem_flatMap.mpr ⟨r.cls, cls_mem_chain h, ?_⟩
  rw [hc]
  exact List.mem_map_of_mem (f := fun a : Attribute => Naming.setterName a.name)
    (List.mem_filter.mpr ⟨List.mem_of_getElem? hattr, by simp [hprim, hcount]⟩)

/-- A setter finds its attribute just if the attribute can be read back from it. -/
theorem lookup_setter_iff (h : m.lookupAttribute i a.name = some r)
    (ha : m.attribute? r = some a) :
    m.lookupAttribute i (Naming.setterField (Naming.setterName a.name)) = some r ↔
      Naming.isSettable a.name = true := by
  rw [← Naming.setterField_setterName_iff]
  exact ⟨fun hfound => (name_of_lookup hfound ha).symm, fun hname => hname.symm ▸ h⟩

theorem lookup_of_target {sc : Scope} {owner : String} {v : InitialValue}
    (h : (bindInitialValue sc m i owner v).1.target? = some r) :
    m.lookupAttribute i (Naming.setterField v.setter) = some r := by
  unfold bindInitialValue at h
  dsimp only at h
  split at h
  · cases h
  rename_i place hfound
  split at h
  · cases h
  split at h
  · cases h
  split at h
  · cases h
  split at h
  · cases h
  split at h
  · cases h
    exact hfound
  · cases h

/-- **When an initial value is bound to an attribute**: its setter finds it, and its literal is one
of the type. -/
theorem bindInitialValue_target_iff {t : Primitive} (ha : m.attribute? r = some a)
    (hprim : a.isPrimitive = true) (hcount : a.isCount = false) (htype : a.primitive? = some t)
    (sc : Scope) (i : Nat) (owner : String) (v : InitialValue) :
    (bindInitialValue sc m i owner v).1.target? = some r ↔
      m.lookupAttribute i (Naming.setterField v.setter) = some r ∧
        ∃ s, t.parse v.value = .ok s := by
  constructor
  · intro h
    obtain ⟨-, b, t', s, hb, -, -, htype', hparse⟩ := bindInitialValue_bound r h
    obtain rfl := Option.some.inj (hb.symm.trans ha)
    obtain rfl := Option.some.inj (htype'.symm.trans htype)
    obtain ⟨target?, hout⟩ := bindInitialValue_target sc m i owner v
    rw [hout] at hparse
    exact ⟨lookup_of_target h, s, hparse⟩
  · rintro ⟨hfound, s, hparse⟩
    simp [bindInitialValue, hfound, ha, hprim, hcount, htype, hparse]

end Setters

/-- Binding an initial value of a resolved model again leaves it as it is. -/
theorem bindInitialValue_run {catalog : Catalog} {limit : Int} {raw : Model} {i : Nat} {c : Class}
    (hc : (run catalog limit raw).model.classes[i]? = some c) {v : InitialValue}
    (hv : v ∈ c.initialValues) : ∃ sc owner,
      (bindInitialValue sc (run catalog limit raw).model i owner v).1 = v := by
  let sc : Scope := ⟨catalog, raw.classNames, limit⟩
  have hpasses : Passes sc raw _ _ (run catalog limit raw).model := ⟨rfl, rfl, rfl⟩
  have hsame := (congrArg valueless hpasses.values).trans (valueless_bindInitialValues _ sc _)
  obtain ⟨c₀, -, -, -, rfl⟩ := hpasses.trace hc
  obtain ⟨w, hw, rfl⟩ := List.mem_map.mp hv
  obtain ⟨v₀, -, rfl⟩ := List.mem_map.mp hw
  exact ⟨sc, _, congrArg Prod.fst (bindInitialValue_again hsame i _ v₀)⟩

/-- **When a setter that is suggested sets its attribute.**  The type finds the attribute under its
name, the attribute is a primitive and no count, and nothing but initial values is reported. -/
theorem run_setters {catalog : Catalog} {limit : Int} {raw : Model}
    (h : OnlyValues (run catalog limit raw).report) {i : Nat} {c : Class}
    (hc : (run catalog limit raw).model.classes[i]? = some c) {r : AttrRef} {a : Attribute}
    (hfound : (run catalog limit raw).model.lookupAttribute i a.name = some r)
    (ha : (run catalog limit raw).model.attribute? r = some a) (hprim : a.isPrimitive = true)
    (hcount : a.isCount = false) :
    Naming.setterName a.name ∈ setterNames (run catalog limit raw).model i ∧
    ((run catalog limit raw).model.lookupAttribute i
        (Naming.setterField (Naming.setterName a.name)) = some r ↔
      Naming.isSettable a.name = true) ∧
    ∃ t, a.primitive? = some t ∧ ∀ v ∈ c.initialValues, v.setter = Naming.setterName a.name →
      (v.target? = some r ↔ Naming.isSettable a.name = true ∧ ∃ s, t.parse v.value = .ok s) := by
  obtain ⟨t, htype⟩ := run_typed h ha hprim
  have hiff := lookup_setter_iff hfound ha
  refine ⟨setterName_mem hfound ha hprim hcount, hiff, t, htype, fun v hv hsetter => ?_⟩
  obtain ⟨sc, owner, hsame⟩ := bindInitialValue_run hc hv
  have htarget := bindInitialValue_target_iff ha hprim hcount htype sc i owner v
  rwa [hsame, hsetter, hiff] at htarget

/-- A type with two numbers, one of which starts with a capital, and a value for each. -/
def capital : Model where
  classes := [
    { name := "Pdu"
      attributes := [
        { name := "mode", shape := some .primitive, type := "byte" },
        { name := "Value", shape := some .primitive, type := "byte" }]
      initialValues := [
        { setter := "setMode", value := "3" },
        { setter := "setValue", value := "5" }] }]

/-- The mode is set by its setter. -/
theorem run_setters_mode : OnlyValues (run .standard 3 capital).report ∧
    ∃ c a, (run .standard 3 capital).model.classes[0]? = some c ∧
      (run .standard 3 capital).model.attribute? ⟨0, 0⟩ = some a ∧ a.name = "mode" ∧
      ∃ v ∈ c.initialValues, v.setter = Naming.setterName a.name ∧ v.target? = some ⟨0, 0⟩ := by
  have honly : OnlyValues (run .standard 3 capital).report := by decide +kernel
  have hrun : ((run .standard 3 capital).model.classes[0]?.any fun c =>
      ((run .standard 3 capital).model.attribute? ⟨0, 0⟩).any fun a =>
        a.name == "mode" && a.isPrimitive && !a.isCount &&
          (run .standard 3 capital).model.lookupAttribute 0 a.name == some ⟨0, 0⟩ &&
          c.initialValues.any fun v => v.setter == Naming.setterName a.name &&
            a.primitive?.any fun t => (t.parse v.value).toOption.isSome) = true := by
    decide +kernel
  simp only [Option.any_eq_true, List.any_eq_true, Bool.and_eq_true, beq_iff_eq, Bool.not_eq_true',
    Option.isSome_iff_exists] at hrun
  obtain ⟨c, hc, a, ha, ⟨⟨⟨hname, hprim⟩, hcount⟩, hfound⟩, v, hv, hsetter, t, ht, s, hs⟩ := hrun
  obtain ⟨-, -, t', ht', hvalues⟩ := run_setters honly hc hfound ha hprim hcount
  obtain rfl := Option.some.inj (ht.symm.trans ht')
  have hsettable : Naming.isSettable a.name = true := by
    rw [hname]
    decide +kernel
  exact ⟨honly, c, a, hc, ha, hname, v, hv, hsetter,
    (hvalues v hv hsetter).mpr ⟨hsettable, s, ok_of_toOption hs⟩⟩

/-- **A setter that is suggested may be unknown.**  The number is found under its name, and its
setter is suggested, but the setter does not find it. -/
theorem setter_unknown : OnlyValues (run .standard 3 capital).report ∧
    (run .standard 3 capital).model.lookupAttribute 0 "Value" = some ⟨0, 1⟩ ∧
    Naming.setterName "Value" ∈ setterNames (run .standard 3 capital).model 0 ∧
    (run .standard 3 capital).model.lookupAttribute 0
      (Naming.setterField (Naming.setterName "Value")) = none := by
  decide +kernel

end WireSchema.Resolve
