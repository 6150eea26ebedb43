import Mathlib
import WireSchema.Proofs.Graph.Order
import WireSchema.Proofs.Resolve.Counts
import WireSchema.Resolve

/-!
# What a successful resolution promises

Resolution reports everything it cannot bind.  `Bound` collects what is therefore true of the model
it returns when it reports no error: names are unique, links lead to declarations, counts and lists
point at each other, initial values set primitives of an ancestor, and containment by value falls
along some rank.  Everything later that starts from "resolution succeeded" starts from `Bound`.

## Main results

* `run_bound` — the model of a resolution that succeeded is `Bound`.
* `run_defaults` — in such a model the default of every primitive is a literal of its type.
-/

namespace WireSchema.Resolve

/-- The links to a type that an attribute of a shape has, in a model of `count` types. -/
def TypeLinks (count : Nat) : Option Shape → Option Primitive → Option Nat → Prop
  | none, t, c => t = none ∧ c = none
  | some .primitive, t, c => t.isSome = true ∧ c = none
  | some .reference, t, c => t = none ∧ ∃ j, c = some j ∧ j < count
  | some (.fixedList _), t, c | some .variableList, t, c =>
      (t.isSome = true ∧ c = none) ∨ (t = none ∧ ∃ j, c = some j ∧ j < count)

/-- The type of an attribute is bound as its shape asks. -/
def TypeBound (m : Model) (a : Attribute) : Prop :=
  TypeLinks m.classes.length a.shape a.primitive? a.class?

/-- A bound message type is one of the model's. -/
theorem TypeBound.class_lt {m : Model} {a : Attribute} (h : TypeBound m a) {j : Nat}
    (hj : a.class? = some j) : j < m.classes.length := by
  unfold TypeBound at h
  rw [hj] at h
  cases hshape : a.shape with
  | none =>
      rw [hshape] at h
      cases h.2
  | some shape =>
      rw [hshape] at h
      cases shape with
      | primitive => cases h.2
      | reference =>
          obtain ⟨-, k, hk, hlt⟩ := h
          exact (Option.some.inj hk) ▸ hlt
      | fixedList n | variableList =>
          rcases h with ⟨-, hno⟩ | ⟨-, k, hk, hlt⟩
          · cases hno
          · exact (Option.some.inj hk) ▸ hlt

/-- What is bound to a message type is not bound to a primitive. -/
theorem TypeBound.primitive?_eq_none {m : Model} {a : Attribute} (h : TypeBound m a) {j : Nat}
    (hj : a.class? = some j) : a.primitive? = none := by
  unfold TypeBound at h
  rw [hj] at h
  cases hshape : a.shape with
  | none =>
      rw [hshape] at h
      exact h.1
  | some shape =>
      rw [hshape] at h
      cases shape with
      | primitive => cases h.2
      | reference => exact h.1
      | fixedList n | variableList =>
          rcases h with ⟨-, hno⟩ | ⟨hnone, -⟩
          · cases hno
          · exact hnone

/-- A bound initial value sets a primitive of the type at `i` or of one of its ancestors. -/
def ValueBound (m : Model) (i : Nat) (v : InitialValue) : Prop :=
  ∀ r, v.target? = some r → r.cls ∈ m.chain i ∧
    ∃ a t s, m.attribute? r = some a ∧ a.isCount = false ∧ a.isPrimitive = true ∧
      a.primitive? = some t ∧ t.parse v.value = .ok s

/-- What holds of the model of a successful resolution. -/
structure Bound (m : Model) : Prop where
  classes_nodup : m.classNames.Nodup
  attributes_nodup : ∀ c ∈ m.classes, (c.attributes.map (·.name)).Nodup
  parent : ∀ c ∈ m.classes, c.hasParent = true →
    ∃ j, c.parentClass? = some j ∧ m.classNames[j]? = some c.parent
  orphan : ∀ c ∈ m.classes, c.hasParent = false → c.parentClass? = none
  types : ∀ c ∈ m.classes, ∀ a ∈ c.attributes, TypeBound m a
  links : ∀ (i : Nat) (c : Class), m.classes[i]? = some c → CountLinks i c.attributes
  countable : ∀ c ∈ m.classes, ∀ a ∈ c.attributes, a.isCount = true → isCountable a = true
  counted : ∀ c ∈ m.classes, ∀ a ∈ c.attributes, a.isVariableList = true →
    a.countField?.isSome = true
  values : ∀ (i : Nat) (c : Class), m.classes[i]? = some c →
    ∀ v ∈ c.initialValues, ValueBound m i v
  ranked : ∃ rank : Nat → Nat, ∀ (i : Nat) (c : Class), m.classes[i]? = some c →
    ∀ j ∈ contained c, rank j < rank i

/-- Only single numbers are counts. -/
theorem Bound.count_isPrimitive {m : Model} (hm : Bound m) {c : Class} (hc : c ∈ m.classes)
    {a : Attribute} (ha : a ∈ c.attributes) (hcount : a.isCount = true) : a.isPrimitive = true := by
  have hcountable := hm.countable c hc a ha hcount
  simp only [isCountable, Bool.and_eq_true] at hcountable
  exact hcountable.1

/-! ## Unique names -/

theorem repeatedAttributes_nodup {owner : String} (names : List String) :
    ∀ seen : List String, (repeatedAttributes owner seen names).hasErrors = false →
      names.Nodup ∧ ∀ n ∈ names, n ∉ seen := by
  induction names with
  | nil =>
      intro seen _
      exact ⟨List.nodup_nil, fun n hn => absurd hn List.not_mem_nil⟩
  | cons name rest ih =>
      intro seen herr
      rw [repeatedAttributes, Report.hasErrors_append, Bool.or_eq_false_iff] at herr
      have hfresh : name ∉ seen := by
        intro hmem
        simp [hmem] at herr
      obtain ⟨hrest, hseen⟩ := ih (name :: seen) herr.2
      refine ⟨List.nodup_cons.mpr ⟨fun hmem => hseen name hmem List.mem_cons_self, hrest⟩, ?_⟩
      intro n hn
      rcases List.mem_cons.mp hn with rfl | hn
      · exact hfresh
      · exact fun hmem => hseen n hn (List.mem_cons_of_mem _ hmem)

theorem repeatedNames_nodup (classes : List Class) :
    ∀ seen : List String, (repeatedNames seen classes).hasErrors = false →
      (classes.map (·.name)).Nodup ∧ (∀ c ∈ classes, c.name ∉ seen) ∧
        ∀ c ∈ classes, (c.attributes.map (·.name)).Nodup := by
  induction classes with
  | nil =>
      intro seen _
      exact ⟨List.nodup_nil, fun c hc => absurd hc List.not_mem_nil,
        fun c hc => absurd hc List.not_mem_nil⟩
  | cons c rest ih =>
      intro seen herr
      rw [repeatedNames, Report.hasErrors_append, Bool.or_eq_false_iff] at herr
      have hfresh : c.name ∉ seen := by
        intro hmem
        simp [hmem] at herr
      have hattrs :
          (repeatedAttributes c.name [] (c.attributes.map (·.name))).hasErrors = false := by
        simpa [hfresh] using herr.1
      obtain ⟨hrest, hseen, hown⟩ := ih (c.name :: seen) herr.2
      refine ⟨?_, ?_, ?_⟩
      · refine List.nodup_cons.mpr ⟨?_, hrest⟩
        intro hmem
        obtain ⟨d, hd, hname⟩ := List.mem_map.mp hmem
        exact hseen d hd (hname ▸ List.mem_cons_self)
      · intro d hd
        rcases List.mem_cons.mp hd with rfl | hd
        · exact hfresh
        · exact fun hmem => hseen d hd (List.mem_cons_of_mem _ hmem)
      · intro d hd
        rcases List.mem_cons.mp hd with rfl | hd
        · exact (repeatedAttributes_nodup _ [] hattrs).1
        · exact hown d hd

/-! ## Steps over all types -/

theorem getElem?_onClasses (m : Model) (step : Nat → Class → Class × Report) (i : Nat) :
    (onClasses m step).1.classes[i]? = (m.classes[i]?).map fun c => (step i c).1 := by
  simp [onClasses, List.getElem?_mapIdx, Function.comp_def]

theorem onClasses_noErrors {m : Model} {step : Nat → Class → Class × Report}
    (herr : (onClasses m step).2.hasErrors = false) {i : Nat} {c : Class}
    (hc : m.classes[i]? = some c) : (step i c).2.hasErrors = false := by
  have hall : ((m.classes.mapIdx step).map (·.2)).any Report.hasErrors = false := by
    simpa [onClasses] using herr
  obtain ⟨hlt, hci⟩ := List.getElem?_eq_some_iff.mp hc
  have hmem : (step i c).2 ∈ (m.classes.mapIdx step).map (·.2) := by
    refine List.mem_map.mpr ⟨step i c, ?_, rfl⟩
    exact List.mem_iff_getElem?.mpr ⟨i, by simp [List.getElem?_mapIdx, hc]⟩
  exact Bool.eq_false_iff.mpr (List.any_eq_false.mp hall _ hmem)

theorem length_onClasses (m : Model) (step : Nat → Class → Class × Report) :
    (onClasses m step).1.classes.length = m.classes.length := by
  simp [onClasses]

/-! ## Type names -/

theorem Scope.class?_eq_some {sc : Scope} {name : String} {j : Nat}
    (h : sc.class? name = some j) : sc.names[j]? = some name := by
  obtain ⟨hlt, heq, -⟩ := List.findIdx?_eq_some_iff_getElem.mp h
  rw [List.getElem?_eq_getElem hlt]
  exact congrArg some (by simpa using heq)

theorem bindParent_bound {sc : Scope} {c : Class} (herr : (bindParent sc c).2.hasErrors = false) :
    (c.hasParent = true →
        ∃ j, (bindParent sc c).1.parentClass? = some j ∧ sc.names[j]? = some c.parent) ∧
      (c.hasParent = false → (bindParent sc c).1.parentClass? = none) := by
  unfold bindParent at herr ⊢
  cases hpar : c.hasParent with
  | false => simp
  | true =>
      cases hcls : sc.class? c.parent with
      | none => simp [hpar, hcls] at herr
      | some j =>
          refine ⟨fun _ => ⟨j, ?_, Scope.class?_eq_some hcls⟩, fun h => by cases h⟩
          simp

theorem Scope.class?_lt {sc : Scope} {name : String} {j : Nat} (h : sc.class? name = some j) :
    j < sc.names.length :=
  (List.findIdx?_eq_some_iff_getElem.mp h).1

/-- Binding a type name changes the two type links only, and without an error they fit the
shape. -/
theorem bindType_bound (sc : Scope) (owner : String) (a : Attribute) (shape : Shape) :
    ∃ t c, (bindType sc owner a shape).1 = { a with primitive? := t, class? := c } ∧
      ((bindType sc owner a shape).2.hasErrors = false →
        TypeLinks sc.names.length (some shape) t c) := by
  cases shape with
  | primitive =>
      cases h : sc.catalog.lookup a.type with
      | none => exact ⟨none, none, by simp [bindType, h], by simp [bindType, h]⟩
      | some t => exact ⟨some t, none, by simp [bindType, h], by simp [TypeLinks]⟩
  | reference =>
      cases h : sc.class? a.type with
      | none => exact ⟨none, none, by simp [bindType, h], by simp [bindType, h]⟩
      | some j =>
          exact ⟨none, some j, by simp [bindType, h], fun _ => ⟨rfl, j, rfl, Scope.class?_lt h⟩⟩
  | fixedList n | variableList =>
      cases h : sc.catalog.lookup a.type with
      | some t => exact ⟨some t, none, by simp [bindType, h], fun _ => Or.inl ⟨rfl, rfl⟩⟩
      | none =>
          cases h' : sc.class? a.type with
          | none => exact ⟨none, none, by simp [bindType, h, h'], by simp [bindType, h, h']⟩
          | some j =>
              exact ⟨none, some j, by simp [bindType, h, h'],
                fun _ => Or.inr ⟨rfl, j, rfl, Scope.class?_lt h'⟩⟩

theorem bindAttribute_bound (sc : Scope) (owner : String) (a : Attribute) :
    ∃ t c, (bindAttribute sc owner a).1 = { a with primitive? := t, class? := c } ∧
      ((bindAttribute sc owner a).2.hasErrors = false →
        TypeLinks sc.names.length a.shape t c) := by
  unfold bindAttribute
  split
  · rename_i hshape
    exact ⟨none, none, rfl, fun _ => by rw [hshape]; exact ⟨rfl, rfl⟩⟩
  · rename_i shape hshape
    obtain ⟨t, c, hout, hlinks⟩ := bindType_bound sc owner a shape
    refine ⟨t, c, hout, fun herr => ?_⟩
    rw [Report.hasErrors_append, Bool.or_eq_false_iff] at herr
    rw [hshape]
    exact hlinks herr.1

theorem bindAttribute_names (sc : Scope) (owner : String) (attrs : List Attribute) :
    ((attrs.map (bindAttribute sc owner)).map (·.1)).map (·.name) = attrs.map (·.name) := by
  rw [List.map_map, List.map_map]
  refine List.map_congr_left fun a _ => ?_
  obtain ⟨t, c, hout, -⟩ := bindAttribute_bound sc owner a
  simp [hout]

/-! ## The members of one type -/

/-- The attributes of a type after both passes over them. -/
structure ClassBound (count : Nat) (ci : Nat) (c c' : Class) : Prop where
  rest : c' = { c with attributes := c'.attributes }
  names : c'.attributes.map (·.name) = c.attributes.map (·.name)
  types : ∀ a ∈ c'.attributes, TypeLinks count a.shape a.primitive? a.class?
  links : CountLinks ci c'.attributes
  countable : ∀ a ∈ c'.attributes, a.isCount = true → isCountable a = true
  counted : ∀ a ∈ c'.attributes, a.isVariableList = true → a.countField?.isSome = true

/-- What does not depend on counts is as it was when the attributes were typed. -/
theorem bindClass_uncounted (sc : Scope) (ci : Nat) (c : Class) :
    (bindClass sc ci c).1.attributes.map uncounted =
      c.attributes.map fun a => uncounted (bindAttribute sc c.name a).1 := by
  show (bindCounts sc c.name ci ((c.attributes.map (bindAttribute sc c.name)).map (·.1))).1.map
    uncounted = _
  rw [bindCounts_uncounted, List.map_map, List.map_map]
  rfl

/-- Without an error in a type there is none in its attributes and none in its counts. -/
theorem bindClass_noErrors {sc : Scope} {ci : Nat} {c : Class}
    (herr : (bindClass sc ci c).2.hasErrors = false) :
    (∀ a ∈ c.attributes, (bindAttribute sc c.name a).2.hasErrors = false) ∧
      (bindCounts sc c.name ci
        ((c.attributes.map (bindAttribute sc c.name)).map (·.1))).2.hasErrors = false := by
  have herr' : (Report.join ((c.attributes.map (bindAttribute sc c.name)).map (·.2)) ++
      (bindCounts sc c.name ci
        ((c.attributes.map (bindAttribute sc c.name)).map (·.1))).2).hasErrors = false := herr
  rw [Report.hasErrors_append, Bool.or_eq_false_iff, Report.hasErrors_join] at herr'
  refine ⟨fun a ha => ?_, herr'.2⟩
  exact Bool.eq_false_iff.mpr
    (List.any_eq_false.mp herr'.1 _ (List.mem_map_of_mem (List.mem_map_of_mem ha)))

/-- An attribute of a bound type, traced back to how it was typed. -/
theorem bindClass_trace {sc : Scope} {ci : Nat} {c : Class} {a' : Attribute}
    (ha' : a' ∈ (bindClass sc ci c).1.attributes) :
    ∃ a ∈ c.attributes, uncounted a' = uncounted (bindAttribute sc c.name a).1 := by
  have hmem : uncounted a' ∈ c.attributes.map fun a => uncounted (bindAttribute sc c.name a).1 :=
    bindClass_uncounted sc ci c ▸ List.mem_map_of_mem ha'
  obtain ⟨a, ha, heq⟩ := List.mem_map.mp hmem
  exact ⟨a, ha, heq.symm⟩

theorem bindClass_bound {sc : Scope} {ci : Nat} {c : Class}
    (herr : (bindClass sc ci c).2.hasErrors = false) :
    ClassBound sc.names.length ci c (bindClass sc ci c).1 := by
  obtain ⟨hattrs, hcounts⟩ := bindClass_noErrors herr
  obtain ⟨hable, hlists⟩ := bindCounts_bound hcounts
  refine ⟨rfl, ?_, ?_, bindCounts_links sc c.name ci _, hable, ?_⟩
  · exact (names_of_uncounted (bindCounts_uncounted sc c.name ci _)).trans
      (bindAttribute_names sc c.name c.attributes)
  · intro a' ha'
    obtain ⟨a, ha, heq⟩ := bindClass_trace ha'
    obtain ⟨t, cl, hbound, hlinks⟩ := bindAttribute_bound sc c.name a
    show TypeLinks sc.names.length (uncounted a').shape (uncounted a').primitive?
      (uncounted a').class?
    rw [heq, hbound]
    exact hlinks (hattrs a ha)
  · intro a ha hvar
    obtain ⟨k, hk⟩ := List.mem_iff_getElem?.mp ha
    exact hlists k a hk hvar

/-- The default of a primitive is a literal of its type. -/
def DefaultBound (a : Attribute) : Prop :=
  a.isPrimitive = true → ∀ t literal, a.primitive? = some t → a.default? = some literal →
    ∃ s, t.parse literal = .ok s

theorem bindAttribute_default {sc : Scope} {owner : String} {a : Attribute}
    (herr : (bindAttribute sc owner a).2.hasErrors = false) :
    DefaultBound (bindAttribute sc owner a).1 := by
  obtain ⟨t, cl, hout, -⟩ := bindAttribute_bound sc owner a
  intro hprim t' literal htype hdefault
  rw [hout] at hprim hdefault
  have hshape : a.shape = some .primitive := by simpa [Attribute.isPrimitive] using hprim
  have hchecked : (checkHints owner (bindAttribute sc owner a).1 .primitive).hasErrors = false := by
    simp only [bindAttribute, hshape, Report.hasErrors_append, Bool.or_eq_false_iff] at herr ⊢
    exact herr.2
  rw [checkHints, Report.hasErrors_append, Bool.or_eq_false_iff, htype, hout, hdefault] at hchecked
  cases hparse : t'.parse literal with
  | ok s => exact ⟨s, rfl⟩
  | error e => simp [hparse] at hchecked

/-- The defaults of a bound type are literals. -/
theorem bindClass_defaults {sc : Scope} {ci : Nat} {c : Class}
    (herr : (bindClass sc ci c).2.hasErrors = false) :
    ∀ a ∈ (bindClass sc ci c).1.attributes, DefaultBound a := by
  intro a' ha'
  obtain ⟨a, ha, heq⟩ := bindClass_trace ha'
  have hbound := bindAttribute_default ((bindClass_noErrors herr).1 a ha)
  -- Binding counts keeps the shape, the type and the default.
  show DefaultBound (uncounted a')
  rw [heq]
  exact hbound

/-! ## Initial values -/

theorem cls_mem_chain {m : Model} {i : Nat} {name : String} {r : AttrRef}
    (h : m.lookupAttribute i name = some r) : r.cls ∈ m.chain i := by
  obtain ⟨j, hj, hfound⟩ := List.exists_of_findSome?_eq_some h
  obtain ⟨k, -, rfl⟩ := Option.map_eq_some_iff.mp hfound
  exact hj

/-- A target is only set after every check of it passed. -/
theorem bindInitialValue_bound {sc : Scope} {m : Model} {i : Nat} {owner : String}
    {v : InitialValue} : ValueBound m i (bindInitialValue sc m i owner v).1 := by
  intro r hr
  unfold bindInitialValue at hr ⊢
  cases hfound : m.lookupAttribute i (Naming.setterField v.setter) with
  | none => simp [hfound] at hr
  | some place =>
      cases hattr : m.attribute? place with
      | none => simp [hfound, hattr] at hr
      | some a =>
          cases hcount : a.isCount with
          | true => simp [hfound, hattr, hcount] at hr
          | false =>
              cases hprim : a.isPrimitive with
              | false => simp [hfound, hattr, hcount, hprim] at hr
              | true =>
                  cases htype : a.primitive? with
                  | none => simp [hfound, hattr, hcount, hprim, htype] at hr
                  | some t =>
                      cases hparse : t.parse v.value with
                      | error e => simp [hfound, hattr, hcount, hprim, htype, hparse] at hr
                      | ok s =>
                          simp only [hfound, hattr, hcount, hprim, htype, hparse,
                            Bool.false_eq_true, if_false, Bool.not_true, Option.some.injEq] at hr ⊢
                          subst hr
                          exact ⟨cls_mem_chain hfound, a, t, s, hattr, hcount, hprim, htype, hparse⟩

/-- A model without its initial values.  Binding those reads nothing else, and changes nothing
else. -/
def valueless (m : Model) : Model :=
  { m with classes := m.classes.map fun c => { c with initialValues := [] } }

section Valueless

variable (m : Model)

theorem getElem?_valueless (i : Nat) :
    (valueless m).classes[i]? = (m.classes[i]?).map fun c => { c with initialValues := [] } :=
  List.getElem?_map

theorem valueless_parentOf? (i : Nat) : (valueless m).parentOf? i = m.parentOf? i := by
  rw [Model.parentOf?, Model.parentOf?, getElem?_valueless]
  cases m.classes[i]? <;> rfl

theorem valueless_attribute? (r : AttrRef) : (valueless m).attribute? r = m.attribute? r := by
  rw [Model.attribute?, Model.attribute?, getElem?_valueless]
  cases m.classes[r.cls]? <;> rfl

theorem valueless_chainFrom (fuel : Nat) :
    ∀ (seen : List Nat) (i : Nat),
        (valueless m).chainFrom fuel seen i = m.chainFrom fuel seen i := by
  induction fuel with
  | zero => exact fun _ _ => rfl
  | succ fuel ih =>
      intro seen i
      rw [Model.chainFrom, Model.chainFrom, valueless_parentOf?]
      cases m.parentOf? i with
      | none => rfl
      | some p => simp only [ih]

theorem valueless_chain (i : Nat) : (valueless m).chain i = m.chain i := by
  have hlen : (valueless m).classes.length = m.classes.length := List.length_map _
  rw [Model.chain, Model.chain, hlen, valueless_chainFrom]

theorem valueless_bindInitialValues (sc : Scope) (m' : Model) :
    valueless (onClasses m (bindInitialValues sc m')).1 = valueless m := by
  have hclasses : (valueless (onClasses m (bindInitialValues sc m')).1).classes =
      (valueless m).classes := by
    refine List.ext_getElem? fun i => ?_
    rw [getElem?_valueless, getElem?_valueless, getElem?_onClasses, Option.map_map]
    rfl
  exact congrArg (Model.mk m.version) hclasses

end Valueless

/-! ## Containment -/

/-- With unique names every type is what its name means. -/
theorem nodes_eq_range {m : Model} (h : m.classNames.Nodup) :
    nodes m = List.range m.classes.length := by
  refine List.filter_eq_self.mpr fun i hi => ?_
  have hlt : i < m.classes.length := List.mem_range.mp hi
  have hname : m.className i = m.classes[i].name := by
    simp [Model.className, List.getElem?_eq_getElem hlt]
  rw [beq_iff_eq, hname, Model.classIndex?, List.findIdx?_eq_some_iff_getElem]
  refine ⟨hlt, by simp, fun j hj => ?_⟩
  have hjlt : j < m.classNames.length := by simp [Model.classNames]; omega
  have hne := (List.nodup_iff_pairwise_ne.mp h).rel_get_of_lt (a := ⟨j, hjlt⟩)
    (b := ⟨i, by simpa [Model.classNames] using hlt⟩) hj
  simpa [Model.classNames] using hne

/-- Without cycle errors the position in the containment order is a rank. -/
theorem ranked_of_checkCycles {m : Model} (hnames : m.classNames.Nodup)
    (hrange : ∀ c ∈ m.classes, ∀ j ∈ contained c, j < m.classes.length)
    (herr : (checkCycles m).2.hasErrors = false) :
    ∃ rank : Nat → Nat, ∀ (i : Nat) (c : Class), m.classes[i]? = some c →
      ∀ j ∈ contained c, rank j < rank i := by
  have hnodes := nodes_eq_range hnames
  have hsize : (containment m).size = m.classes.length := by simp [containment, hnodes]
  have hdeps : ∀ (i : Nat) (c : Class), m.classes[i]? = some c →
      ∀ j, j ∈ (containment m).deps i ↔ j ∈ contained c ∧ j < m.classes.length := by
    intro i c hc j
    obtain ⟨hlt, -⟩ := List.getElem?_eq_some_iff.mp hc
    have hfind : ∀ k d, (List.range m.classes.length).findIdx? (· == k) = some d ↔
        k = d ∧ d < m.classes.length := by
      intro k d
      rw [List.findIdx?_eq_some_iff_getElem]
      constructor
      · rintro ⟨hd, heq, -⟩
        simp at heq hd
        exact ⟨heq.symm, hd⟩
      · rintro ⟨rfl, hd⟩
        exact ⟨by simpa using hd, by simp, fun j hj => by simp; omega⟩
    simp only [containment, hnodes, List.getElem?_range hlt, Option.bind_some, hc,
      List.mem_filterMap, hfind]
    constructor
    · rintro ⟨k, hk, rfl, hd⟩
      exact ⟨hk, hd⟩
    · rintro ⟨hk, hd⟩
      exact ⟨j, hk, rfl, hd⟩
  have hfull : (containment m).order.length = (containment m).size := by
    by_contra hshort
    have hmembers : (containment m).cycleMembers ≠ [] := by
      refine Graph.Deps.cycleMembers_ne_nil ?_ hshort
      intro i d hd
      cases hc : m.classes[i]? with
      | some c => rw [hsize]; exact ((hdeps i c hc d).mp hd).2
      | none =>
          have hle : m.classes.length ≤ i := List.getElem?_eq_none_iff.mp hc
          simp [containment, hnodes, hle] at hd
    obtain ⟨k, hk⟩ := List.exists_mem_of_ne_nil _ hmembers
    rw [checkCycles, if_neg hshort, Report.hasErrors_join] at herr
    have hone := List.any_eq_false.mp herr _ (List.mem_map_of_mem hk)
    exact hone rfl
  refine ⟨(containment m).order.idxOf, fun i c hc j hj => ?_⟩
  have hi : i ∈ (containment m).order := by
    refine Graph.Deps.mem_order_of_length hfull ?_
    rw [hsize]
    exact (List.getElem?_eq_some_iff.mp hc).1
  have hj' : j ∈ (containment m).deps i :=
    (hdeps i c hc j).mpr ⟨hj, hrange c (List.mem_of_getElem? hc) j hj⟩
  exact (Graph.Deps.order_placed _).idxOf_lt_of_dep hi hj'

/-! ## The whole resolution -/

/-- The three passes over the types of a model, one after the other. -/
structure Passes (sc : Scope) (m m₁ m₂ m₃ : Model) : Prop where
  parents : m₁ = (onClasses m fun _ c => bindParent sc c).1
  members : m₂ = (onClasses m₁ (bindClass sc)).1
  values : m₃ = (onClasses m₂ (bindInitialValues sc m₂)).1

/-- A type of the last model, traced back through the passes. -/
theorem Passes.trace {sc : Scope} {m m₁ m₂ m₃ : Model} (h : Passes sc m m₁ m₂ m₃) {i : Nat}
    {c₃ : Class} (hc : m₃.classes[i]? = some c₃) :
    ∃ c, m.classes[i]? = some c ∧ m₁.classes[i]? = some (bindParent sc c).1 ∧
      m₂.classes[i]? = some (bindClass sc i (bindParent sc c).1).1 ∧
      c₃ = (bindInitialValues sc m₂ i (bindClass sc i (bindParent sc c).1).1).1 := by
  rw [h.values, getElem?_onClasses] at hc
  obtain ⟨c₂, hc₂, rfl⟩ := Option.map_eq_some_iff.mp hc
  have hc₂' := hc₂
  rw [h.members, getElem?_onClasses] at hc₂
  obtain ⟨c₁, hc₁, rfl⟩ := Option.map_eq_some_iff.mp hc₂
  have hc₁' := hc₁
  rw [h.parents, getElem?_onClasses] at hc₁
  obtain ⟨c, hc₀, rfl⟩ := Option.map_eq_some_iff.mp hc₁
  exact ⟨c, hc₀, hc₁', hc₂', rfl⟩

theorem bindParent_name (sc : Scope) (c : Class) : (bindParent sc c).1.name = c.name := by
  unfold bindParent
  split
  · split <;> rfl
  · rfl

theorem bindParent_attributes (sc : Scope) (c : Class) :
    (bindParent sc c).1.attributes = c.attributes := by
  unfold bindParent
  split
  · split <;> rfl
  · rfl

theorem bindParent_parent (sc : Scope) (c : Class) : (bindParent sc c).1.parent = c.parent := by
  unfold bindParent
  split
  · split <;> rfl
  · rfl

section Unchanged

variable (sc : Scope) (m : Model) (i : Nat) (c : Class)

@[simp] theorem bindClass_name : (bindClass sc i c).1.name = c.name := rfl

@[simp] theorem bindClass_parent : (bindClass sc i c).1.parent = c.parent := rfl

@[simp] theorem bindClass_parentClass? :
    (bindClass sc i c).1.parentClass? = c.parentClass? := rfl

@[simp] theorem bindInitialValues_name : (bindInitialValues sc m i c).1.name = c.name := rfl

@[simp] theorem bindInitialValues_parent : (bindInitialValues sc m i c).1.parent = c.parent := rfl

@[simp] theorem bindInitialValues_parentClass? :
    (bindInitialValues sc m i c).1.parentClass? = c.parentClass? := rfl

@[simp] theorem bindInitialValues_attributes :
    (bindInitialValues sc m i c).1.attributes = c.attributes := rfl

end Unchanged

theorem Passes.classNames {sc : Scope} {m m₁ m₂ m₃ : Model} (h : Passes sc m m₁ m₂ m₃) :
    m₃.classNames = m.classNames := by
  refine List.ext_getElem? fun i => ?_
  have hclasses : m₃.classes[i]? = (m.classes[i]?).map fun c =>
      (bindInitialValues sc m₂ i (bindClass sc i (bindParent sc c).1).1).1 := by
    rw [h.values, getElem?_onClasses, h.members, getElem?_onClasses, h.parents,
      getElem?_onClasses, Option.map_map, Option.map_map]
    rfl
  simp only [Model.classNames, List.getElem?_map, hclasses, Option.map_map]
  cases m.classes[i]? with
  | none => rfl
  | some c =>
      simp only [Option.map_some, Function.comp_apply, bindInitialValues_name, bindClass_name,
        bindParent_name]

theorem Passes.length {sc : Scope} {m m₁ m₂ m₃ : Model} (h : Passes sc m m₁ m₂ m₃) :
    m₃.classes.length = m.classes.length := by
  rw [h.values, length_onClasses, h.members, length_onClasses, h.parents, length_onClasses]

/-- Passes over a model in its own scope that report no error. -/
structure Clean (sc : Scope) (m m₁ m₂ m₃ : Model) : Prop extends Passes sc m m₁ m₂ m₃ where
  scope : sc.names = m.classNames
  repeated_ok : (repeatedNames [] m.classes).hasErrors = false
  parents_ok : (onClasses m fun _ c => bindParent sc c).2.hasErrors = false
  members_ok : (onClasses m₁ (bindClass sc)).2.hasErrors = false
  values_ok : (onClasses m₂ (bindInitialValues sc m₂)).2.hasErrors = false
  cycles_ok : (checkCycles m₃).2.hasErrors = false

/-- A resolution that succeeded made clean passes. -/
theorem run_clean {catalog : Catalog} {limit : Int} {m : Model}
    (h : (run catalog limit m).succeeded = true) :
    ∃ m₁ m₂, Clean ⟨catalog, m.classNames, limit⟩ m m₁ m₂ (run catalog limit m).model := by
  have hno : (run catalog limit m).report.hasErrors = false := (Bool.not_eq_true' _).mp h
  simp only [run, Report.hasErrors_sort, Report.hasErrors_append, Bool.or_eq_false_iff] at hno
  obtain ⟨⟨⟨⟨hrepeated, hparents⟩, hmembers⟩, hvalues⟩, hcycles⟩ := hno
  exact ⟨_, _, ⟨rfl, rfl, rfl⟩, rfl, hrepeated, hparents, hmembers, hvalues, hcycles⟩

section Clean

variable {sc : Scope} {m m₁ m₂ m₃ : Model}

theorem Clean.classes_nodup (h : Clean sc m m₁ m₂ m₃) : m₃.classNames.Nodup := by
  rw [h.classNames]
  exact (repeatedNames_nodup m.classes [] h.repeated_ok).1

/-- What the passes made of the type at `i`. -/
theorem Clean.class (h : Clean sc m m₁ m₂ m₃) {i : Nat} {c₃ : Class}
    (hc₃ : m₃.classes[i]? = some c₃) :
    ∃ c ∈ m.classes, c₃.parent = c.parent ∧
      c₃.parentClass? = (bindParent sc c).1.parentClass? ∧
      (bindParent sc c).2.hasErrors = false ∧
      c₃.attributes = (bindClass sc i (bindParent sc c).1).1.attributes ∧
      ClassBound m₃.classes.length i (bindParent sc c).1
        (bindClass sc i (bindParent sc c).1).1 := by
  obtain ⟨c, hc, hc₁, -, rfl⟩ := h.trace hc₃
  have hpar : (bindParent sc c).2.hasErrors = false := onClasses_noErrors h.parents_ok hc
  have hmem : (bindClass sc i (bindParent sc c).1).2.hasErrors = false :=
    onClasses_noErrors h.members_ok hc₁
  have hcount : sc.names.length = m₃.classes.length := by
    rw [h.length, h.scope, Model.classNames, List.length_map]
  have hbound := bindClass_bound hmem
  rw [hcount] at hbound
  refine ⟨c, List.mem_of_getElem? hc, ?_, ?_, hpar, ?_, hbound⟩
  · rw [bindInitialValues_parent, bindClass_parent, bindParent_parent]
  · rw [bindInitialValues_parentClass?, bindClass_parentClass?]
  · rw [bindInitialValues_attributes]

theorem Clean.parent (h : Clean sc m m₁ m₂ m₃) {c₃ : Class} (hc₃ : c₃ ∈ m₃.classes)
    (hhas : c₃.hasParent = true) :
    ∃ j, c₃.parentClass? = some j ∧ m₃.classNames[j]? = some c₃.parent := by
  obtain ⟨i, hi⟩ := List.mem_iff_getElem?.mp hc₃
  obtain ⟨c, -, hpar, hlink, hno, -⟩ := h.class hi
  have hhas' : c.hasParent = true := by rwa [Class.hasParent, hpar] at hhas
  obtain ⟨j, hj, hname⟩ := (bindParent_bound hno).1 hhas'
  exact ⟨j, hlink.trans hj, by rw [h.classNames, hpar, ← h.scope, hname]⟩

theorem Clean.orphan (h : Clean sc m m₁ m₂ m₃) {c₃ : Class} (hc₃ : c₃ ∈ m₃.classes)
    (hhas : c₃.hasParent = false) : c₃.parentClass? = none := by
  obtain ⟨i, hi⟩ := List.mem_iff_getElem?.mp hc₃
  obtain ⟨c, -, hpar, hlink, hno, -⟩ := h.class hi
  have hhas' : c.hasParent = false := by rwa [Class.hasParent, hpar] at hhas
  rw [hlink]
  exact (bindParent_bound hno).2 hhas'

/-- The members of every type are bound. -/
theorem Clean.members_bound (h : Clean sc m m₁ m₂ m₃) {i : Nat} {c₃ : Class}
    (hi : m₃.classes[i]? = some c₃) :
    (c₃.attributes.map (·.name)).Nodup ∧ (∀ a ∈ c₃.attributes, TypeBound m₃ a) ∧
      CountLinks i c₃.attributes ∧
      (∀ a ∈ c₃.attributes, a.isCount = true → isCountable a = true) ∧
      ∀ a ∈ c₃.attributes, a.isVariableList = true → a.countField?.isSome = true := by
  obtain ⟨c, hc, -, -, -, hattrs, hbound⟩ := h.class hi
  rw [hattrs]
  refine ⟨?_, hbound.types, hbound.links, hbound.countable, hbound.counted⟩
  rw [hbound.names, bindParent_attributes]
  exact (repeatedNames_nodup m.classes [] h.repeated_ok).2.2 c hc

/-- Initial values were bound in the model before them, which has the same chains and the same
attributes. -/
theorem Clean.values_bound (h : Clean sc m m₁ m₂ m₃) {i : Nat} {c₃ : Class}
    (hi : m₃.classes[i]? = some c₃) {v : InitialValue} (hv : v ∈ c₃.initialValues) :
    ValueBound m₃ i v := by
  intro r hr
  obtain ⟨c, -, -, -, rfl⟩ := h.trace hi
  obtain ⟨v₀, -, rfl⟩ : ∃ v₀ ∈ (bindClass sc i (bindParent sc c).1).1.initialValues,
      (bindInitialValue sc m₂ i (bindClass sc i (bindParent sc c).1).1.name v₀).1 = v := by
    simpa [bindInitialValues] using hv
  have hsame : valueless m₃ = valueless m₂ := by
    rw [h.values, valueless_bindInitialValues]
  rw [← valueless_chain m₃, ← valueless_attribute? m₃, hsame, valueless_chain, valueless_attribute?]
  exact bindInitialValue_bound r hr

/-- What a type contains by value is a type of the model. -/
theorem Clean.contained_lt (h : Clean sc m m₁ m₂ m₃) {c : Class} (hc : c ∈ m₃.classes) {j : Nat}
    (hj : j ∈ contained c) : j < m₃.classes.length := by
  rcases List.mem_append.mp hj with hpar | hattr
  · have hlink : c.parentClass? = some j := Option.mem_toList.mp hpar
    cases hhas : c.hasParent with
    | false =>
        rw [h.orphan hc hhas] at hlink
        cases hlink
    | true =>
        obtain ⟨k, hk, hname⟩ := h.parent hc hhas
        obtain rfl := Option.some.inj (hk.symm.trans hlink)
        have hlt := (List.getElem?_eq_some_iff.mp hname).1
        simpa [Model.classNames] using hlt
  · obtain ⟨a, ha, hcls⟩ := List.mem_filterMap.mp hattr
    obtain ⟨i, hi⟩ := List.mem_iff_getElem?.mp hc
    have hlink : a.class? = some j := by
      split at hcls
      · cases hcls
      · exact hcls
    exact ((h.members_bound hi).2.1 a ha).class_lt hlink

/-- The defaults of a type are literals. -/
theorem Clean.defaults (h : Clean sc m m₁ m₂ m₃) {c : Class} (hc : c ∈ m₃.classes) :
    ∀ a ∈ c.attributes, DefaultBound a := by
  obtain ⟨i, hi⟩ := List.mem_iff_getElem?.mp hc
  obtain ⟨c₀, -, hc₁, -, hbound⟩ := h.trace hi
  have hattrs : c.attributes = (bindClass sc i (bindParent sc c₀).1).1.attributes := by
    rw [hbound]
    rfl
  rw [hattrs]
  exact bindClass_defaults (onClasses_noErrors h.members_ok hc₁)

end Clean

/-- The defaults in the model of a successful resolution are literals. -/
theorem run_defaults {catalog : Catalog} {limit : Int} {m : Model}
    (h : (run catalog limit m).succeeded = true) :
    ∀ c ∈ (run catalog limit m).model.classes, ∀ a ∈ c.attributes, DefaultBound a := by
  obtain ⟨m₁, m₂, hclean⟩ := run_clean h
  exact fun c hc => hclean.defaults hc

/-- **A successful resolution binds its model.** -/
theorem run_bound {catalog : Catalog} {limit : Int} {m : Model}
    (h : (run catalog limit m).succeeded = true) : Bound (run catalog limit m).model := by
  obtain ⟨m₁, m₂, hclean⟩ := run_clean h
  have hat : ∀ c ∈ (run catalog limit m).model.classes,
      ∃ i, (run catalog limit m).model.classes[i]? = some c :=
    fun c hc => List.mem_iff_getElem?.mp hc
  refine ⟨hclean.classes_nodup, ?_, fun c => hclean.parent, fun c => hclean.orphan, ?_, ?_, ?_, ?_,
    fun i c hi v hv => hclean.values_bound hi hv, ?_⟩
  · intro c hc
    obtain ⟨i, hi⟩ := hat c hc
    exact (hclean.members_bound hi).1
  · intro c hc
    obtain ⟨i, hi⟩ := hat c hc
    exact (hclean.members_bound hi).2.1
  · intro i c hi
    exact (hclean.members_bound hi).2.2.1
  · intro c hc
    obtain ⟨i, hi⟩ := hat c hc
    exact (hclean.members_bound hi).2.2.2.1
  · intro c hc
    obtain ⟨i, hi⟩ := hat c hc
    exact (hclean.members_bound hi).2.2.2.2
  · exact ranked_of_checkCycles hclean.classes_nodup (fun c hc j hj => hclean.contained_lt hc hj)
      hclean.cycles_ok

end WireSchema.Resolve
