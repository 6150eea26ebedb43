import Mathlib
import WireSchema.Proofs.Resolve.Again

/-!
# What initial values are bound to

The setter of an initial value is looked up among the attributes of its message type and then among
those of the ancestors, nearest first.  Whatever keeps an initial value from being bound to what is
found is reported, so after a successful resolution every initial value is bound to it.

## Main results

* `bindInitialValue_noErrors` — without an error an initial value is bound to what its setter names.
* `run_targets` — so are all initial values of a resolved model.
-/

namespace WireSchema

/-- What is found under a name is an attribute of that name. -/
theorem Model.attribute?_lookup {m : Model} {i : Nat} {name : String} {r : AttrRef}
    (h : m.lookupAttribute i name = some r) :
    ∃ c a, m.classes[r.cls]? = some c ∧ c.attributes[r.attr]? = some a ∧ a.name = name := by
  obtain ⟨j, -, hfound⟩ := List.exists_of_findSome?_eq_some h
  obtain ⟨k, hk, rfl⟩ := Option.map_eq_some_iff.mp hfound
  obtain ⟨c, hc, hindex⟩ := Option.bind_eq_some_iff.mp hk
  obtain ⟨hlt, hname, -⟩ := List.findIdx?_eq_some_iff_getElem.mp hindex
  exact ⟨c, c.attributes[k], hc, List.getElem?_eq_getElem hlt, by simpa using hname⟩

namespace Resolve

section Bind

variable {sc : Scope} {m : Model} {i : Nat} {owner : String} {v : InitialValue}

/-- **Without an error an initial value is bound to what its setter names.**  The attributes that
can be found have types. -/
theorem bindInitialValue_noErrors
    (htyped : ∀ r a, m.attribute? r = some a → a.isPrimitive = true → a.primitive?.isSome = true)
    (herr : (bindInitialValue sc m i owner v).2.hasErrors = false) :
    ∃ r, (bindInitialValue sc m i owner v).1.target? = some r ∧
      m.lookupAttribute i (Naming.setterField v.setter) = some r := by
  unfold bindInitialValue at herr ⊢
  cases hfound : m.lookupAttribute i (Naming.setterField v.setter) with
  | none => simp [hfound] at herr
  | some place =>
      obtain ⟨c, a, hc, ha, -⟩ := Model.attribute?_lookup hfound
      have hattr : m.attribute? place = some a := by rw [Model.attribute?, hc, Option.bind_some, ha]
      cases hcount : a.isCount with
      | true => simp [hfound, hattr, hcount] at herr
      | false =>
          cases hprim : a.isPrimitive with
          | false => simp [hfound, hattr, hcount, hprim] at herr
          | true =>
              obtain ⟨t, htype⟩ := Option.isSome_iff_exists.mp (htyped place a hattr hprim)
              cases hparse : t.parse v.value with
              | error e => simp [hfound, hattr, hcount, hprim, htype, hparse] at herr
              | ok s =>
                  refine ⟨place, ?_, rfl⟩
                  simp [hfound, hattr, hcount, hprim, htype, hparse]

end Bind

/-- Primitive attributes of a bound model have their types. -/
theorem Bound.typed {m : Model} (hm : Bound m) {r : AttrRef} {a : Attribute}
    (ha : m.attribute? r = some a) (hprim : a.isPrimitive = true) : a.primitive?.isSome = true := by
  obtain ⟨c, hc, hmem⟩ := Option.bind_eq_some_iff.mp ha
  have htype := hm.types c (List.mem_of_getElem? hc) a (List.mem_of_getElem? hmem)
  have hshape : a.shape = some .primitive := by simpa [Attribute.isPrimitive] using hprim
  rw [TypeBound, hshape] at htype
  exact htype.1

/-- Initial values were bound in the model before them, where the same attributes are found. -/
theorem Clean.targets {sc : Scope} {m m₁ m₂ m₃ : Model} (h : Clean sc m m₁ m₂ m₃) (hm : Bound m₃)
    {i : Nat} {c : Class} (hc : m₃.classes[i]? = some c) {v : InitialValue}
    (hv : v ∈ c.initialValues) :
    ∃ r, v.target? = some r ∧
      m₃.lookupAttribute i (Naming.setterField v.setter) = some r := by
  have hsame : valueless m₃ = valueless m₂ := by rw [h.values, valueless_bindInitialValues]
  have htyped : ∀ r a, m₂.attribute? r = some a → a.isPrimitive = true →
      a.primitive?.isSome = true := by
    intro r a ha hprim
    rw [← valueless_attribute? m₂, ← hsame, valueless_attribute?] at ha
    exact hm.typed ha hprim
  obtain ⟨c₀, -, -, hc₂, rfl⟩ := h.trace hc
  have herr := onClasses_noErrors h.values_ok hc₂
  rw [bindInitialValues, Report.hasErrors_join] at herr
  obtain ⟨v₀, hv₀, rfl⟩ : ∃ v₀ ∈ (bindClass sc i (bindParent sc c₀).1).1.initialValues,
      (bindInitialValue sc m₂ i (bindClass sc i (bindParent sc c₀).1).1.name v₀).1 = v := by
    simpa [bindInitialValues] using hv
  obtain ⟨r, hr, hfound⟩ := bindInitialValue_noErrors htyped (Bool.eq_false_iff.mpr
    (List.any_eq_false.mp herr _ (List.mem_map_of_mem (List.mem_map_of_mem hv₀))))
  obtain ⟨t, hout⟩ :=
    bindInitialValue_target sc m₂ i (bindClass sc i (bindParent sc c₀).1).1.name v₀
  refine ⟨r, hr, ?_⟩
  rw [hout, ← valueless_lookupAttribute m₃, hsame, valueless_lookupAttribute]
  exact hfound

/-- **Every initial value of a resolved model is bound to what its setter names**, which is looked
up from the message type that has the initial value. -/
theorem run_targets {catalog : Catalog} {limit : Int} {m : Model}
    (h : (run catalog limit m).succeeded = true) {i : Nat} {c : Class}
    (hc : (run catalog limit m).model.classes[i]? = some c) {v : InitialValue}
    (hv : v ∈ c.initialValues) :
    ∃ r, v.target? = some r ∧
      (run catalog limit m).model.lookupAttribute i (Naming.setterField v.setter) = some r := by
  obtain ⟨m₁, m₂, hclean⟩ := run_clean h
  exact hclean.targets (run_bound h) hc hv

end Resolve

end WireSchema
