import Mathlib
import WireSchema.Schema.Load
import WireSchema.Proofs.Except

/-!
# What loading a schema promises

Resolution works on any model, but what it makes of a model may depend on its having been loaded
from a text.  There no attribute is without a name, and a count field is one because it names the
list it counts.

## Main results

* `toModel_labelled` — the attributes in the model of a file are `Labelled`.
-/

namespace WireSchema

/-- An attribute with a name that is a count field exactly when it says what it counts. -/
structure Attribute.Labelled (a : Attribute) : Prop where
  named : a.name ≠ ""
  flagged : a.isCount = !a.counts.isEmpty

namespace Schema

theorem toAttribute_labelled {owner : String} {e : AttributeEntry} {a : Attribute}
    (hname : e.name.isEmpty = false) (h : e.toAttribute owner = .ok a) : a.Labelled := by
  have hnamed : e.name ≠ "" := by
    intro hempty
    rw [hempty] at hname
    cases hname
  unfold AttributeEntry.toAttribute at h
  split at h
  · cases h
  · obtain rfl := Except.ok.inj h
    exact ⟨hnamed, rfl⟩
  · cases h

/-- The attributes of a message type have what every attribute of an entry with a name has. -/
theorem toAttributes_forall {owner : String} {P : Attribute → Prop} (entries : List AttributeEntry)
    (hP : ∀ (e : AttributeEntry) (a : Attribute), e.name.isEmpty = false →
      e.toAttribute owner = .ok a → P a) :
    ∀ (n : Nat) (attrs : List Attribute), ClassEntry.toAttributes owner n entries = .ok attrs →
      ∀ a ∈ attrs, P a := by
  induction entries with
  | nil =>
      intro n attrs h a ha
      obtain rfl := Except.ok.inj h
      cases ha
  | cons e rest ih =>
      intro n attrs h a ha
      rw [ClassEntry.toAttributes] at h
      cases hname : e.name.isEmpty with
      | true =>
          rw [hname] at h
          cases h
      | false =>
          simp only [hname, Bool.false_eq_true, if_false] at h
          obtain ⟨first, hfirst, h⟩ := of_bind_eq_ok h
          obtain ⟨more, hmore, h⟩ := of_bind_eq_ok h
          obtain rfl := Except.ok.inj h
          rcases List.mem_cons.mp ha with rfl | ha
          · exact hP e a hname hfirst
          · exact ih (n + 1) more hmore a ha

theorem toClass_labelled {e : ClassEntry} {c : Class} (h : e.toClass = .ok c) :
    ∀ a ∈ c.attributes, a.Labelled := by
  obtain ⟨attrs, hattrs, h⟩ := of_bind_eq_ok h
  obtain rfl := Except.ok.inj h
  exact toAttributes_forall e.attributes (fun _ _ => toAttribute_labelled) 1 attrs hattrs

/-- The message types of a model have what every message type of an entry with a name has. -/
theorem toClasses_forall {P : Class → Prop} (entries : List ClassEntry)
    (hP : ∀ (e : ClassEntry) (c : Class), e.name.isEmpty = false → e.toClass = .ok c → P c) :
    ∀ (n : Nat) (classes : List Class), FileEntry.toClasses n entries = .ok classes →
      ∀ c ∈ classes, P c := by
  induction entries with
  | nil =>
      intro n classes h c hc
      obtain rfl := Except.ok.inj h
      cases hc
  | cons e rest ih =>
      intro n classes h c hc
      rw [FileEntry.toClasses] at h
      cases hname : e.name.isEmpty with
      | true =>
          rw [hname] at h
          cases h
      | false =>
          simp only [hname, Bool.false_eq_true, if_false] at h
          obtain ⟨first, hfirst, h⟩ := of_bind_eq_ok h
          obtain ⟨more, hmore, h⟩ := of_bind_eq_ok h
          obtain rfl := Except.ok.inj h
          rcases List.mem_cons.mp hc with rfl | hc
          · exact hP e c hname hfirst
          · exact ih (n + 1) more hmore c hc

/-- A loaded model is the model of the file that was read. -/
theorem toModel_of_loadWith {σ : Type} {read : σ → Except LoadError FileEntry} {s : σ} {m : Model}
    (h : loadWith read s = .ok m) : ∃ file, read s = .ok file ∧ file.toModel = .ok m := by
  obtain ⟨file, hfile, h⟩ := of_bind_eq_ok h
  cases hmodel : file.toModel with
  | error err =>
      rw [hmodel] at h
      cases h
  | ok m' =>
      rw [hmodel] at h
      obtain rfl := Except.ok.inj h
      exact ⟨file, hfile, hmodel⟩

/-- **The attributes in the model of a file are labelled.** -/
theorem toModel_labelled {file : FileEntry} {m : Model} (h : file.toModel = .ok m) :
    ∀ c ∈ m.classes, ∀ a ∈ c.attributes, a.Labelled := by
  obtain ⟨classes, hclasses, h⟩ := of_bind_eq_ok h
  obtain rfl := Except.ok.inj h
  exact toClasses_forall file.classes (fun _ _ _ => toClass_labelled) 1 classes hclasses

/-- The attributes of a loaded model are labelled. -/
theorem load_labelled {bytes : List UInt8} {m : Model} (h : load bytes = .ok m) :
    ∀ c ∈ m.classes, ∀ a ∈ c.attributes, a.Labelled := by
  obtain ⟨file, -, hmodel⟩ := toModel_of_loadWith h
  exact toModel_labelled hmodel

end Schema

end WireSchema
