import Mathlib
import WireSchema.Proofs.Naming.Suggestion
import WireSchema.Proofs.Resolve.Bound
import WireSchema.Proofs.Resolve.Findings
import WireSchema.Proofs.Schema.Rearranged

/-!
# The steps of a resolution on types in other places

Every step of a resolution reads names and writes links.  On a model with its types in other places
it reads the same names and writes the links to the new places, and it reports the same.  That takes
unique names: of two types with one name the first is meant, and which one that is depends on the
order.  Each report concerns the type it is about, so the reports of a pass can be taken in any
order.

## Main results

* `bindParent_relocate`, `bindClass_relocate`, `bindInitialValues_relocate` — the three steps.
* `onClasses_rearranged`, `onClasses_sameByType` — a pass over a rearranged model gives the
  rearranged model, with the same findings for each type.
* `repeatedNames_sameByType` — the repeated attributes are the same.
-/

namespace WireSchema.Resolve

/-! ## Scopes -/

/-- The scope of a model whose types are in other places. -/
structure Scope.Relocated {n : Nat} (σ : Relocation n) (sc sc' : Scope) : Prop where
  catalog_eq : sc'.catalog = sc.catalog
  limit_eq : sc'.limit = sc.limit
  names_perm : sc.names.Perm sc'.names
  class?_eq : ∀ name, sc'.class? name = (sc.class? name).map σ.place

/-- Among names without repetition a name means the type that has it. -/
theorem Scope.class?_iff {sc : Scope} (h : sc.names.Nodup) {name : String} {i : Nat} :
    sc.class? name = some i ↔ sc.names[i]? = some name := by
  refine ⟨Scope.class?_eq_some, fun hi => ?_⟩
  obtain ⟨hlt, hname⟩ := List.getElem?_eq_some_iff.mp hi
  refine List.findIdx?_eq_some_iff_getElem.mpr ⟨hlt, by simp [hname], fun j hj => ?_⟩
  have hne : sc.names[j] ≠ sc.names[i] := fun heq =>
    absurd ((List.Nodup.getElem_inj_iff h).mp heq) (Nat.ne_of_lt hj)
  simpa [hname] using hne

theorem Scope.relocated {n : Nat} {σ : Relocation n} {m m' : Model} (hm : m.Rearranged σ m')
    (hnames : m.classNames.Nodup) (catalog : Catalog) (limit : Int) :
    Scope.Relocated σ ⟨catalog, m.classNames, limit⟩ ⟨catalog, m'.classNames, limit⟩ := by
  have hperm := hm.classNames_perm
  have hat : ∀ i, m'.classNames[σ.place i]? = m.classNames[i]? := by
    intro i
    rw [Model.classNames, Model.classNames, List.getElem?_map, List.getElem?_map, hm.at_place,
      Option.map_map]
    rfl
  have hlen : m'.classNames.length = n := (List.length_map _).trans hm.length_eq'
  refine ⟨rfl, rfl, hperm, fun name => Option.ext fun j => ?_⟩
  rw [Option.map_eq_some_iff, Scope.class?_iff (hperm.nodup_iff.mp hnames)]
  constructor
  · intro hj
    have hlt : j < n := hlen ▸ (List.getElem?_eq_some_iff.mp hj).1
    obtain ⟨i, -, rfl⟩ := σ.exists_place_eq hlt
    exact ⟨i, (Scope.class?_iff hnames).mpr ((hat i).symm.trans hj), rfl⟩
  · rintro ⟨i, hi, rfl⟩
    exact (hat i).trans ((Scope.class?_iff hnames).mp hi)

section Steps

variable {n : Nat} {σ : Relocation n} {sc sc' : Scope}

theorem Scope.Relocated.suggest (h : Scope.Relocated σ sc sc') (name : String)
    {known known' : List String} (hperm : known.Perm known') :
    sc'.suggest name known' = sc.suggest name known := by
  rw [Scope.suggest, Scope.suggest, h.limit_eq, Naming.suggest_perm name hperm]

theorem Scope.Relocated.suggest_same (h : Scope.Relocated σ sc sc') (name : String)
    (known : List String) : sc'.suggest name known = sc.suggest name known :=
  h.suggest name (.refl known)

/-! ## Parents -/

theorem bindParent_relocate (h : Scope.Relocated σ sc sc') (c : Class) :
    bindParent sc' (c.relocate σ.place) =
      ((bindParent sc c).1.relocate σ.place, (bindParent sc c).2) := by
  have hhas : (c.relocate σ.place).hasParent = c.hasParent := rfl
  have hparent : (c.relocate σ.place).parent = c.parent := rfl
  have hname : (c.relocate σ.place).name = c.name := rfl
  rw [bindParent, bindParent, hhas, hparent, hname, h.class?_eq, h.suggest c.parent h.names_perm]
  cases c.hasParent with
  | false => rfl
  | true => cases sc.class? c.parent <;> rfl

/-! ## Attributes -/

theorem bindType_relocate (h : Scope.Relocated σ sc sc') (owner : String) (a : Attribute)
    (shape : Shape) :
    bindType sc' owner (a.relocate σ.place) shape =
      ((bindType sc owner a shape).1.relocate σ.place, (bindType sc owner a shape).2) := by
  have htype : (a.relocate σ.place).type = a.type := rfl
  have hname : (a.relocate σ.place).name = a.name := rfl
  have hknown : (sc.catalog.names ++ sc.names).Perm (sc.catalog.names ++ sc'.names) :=
    h.names_perm.append_left _
  cases shape with
  | primitive =>
      rw [bindType, bindType, htype, hname, h.catalog_eq, h.class?_eq]
      dsimp only
      rw [h.suggest_same, Option.isSome_map]
      cases sc.catalog.lookup a.type <;> rfl
  | reference =>
      rw [bindType, bindType, htype, hname, h.catalog_eq, h.class?_eq]
      dsimp only
      rw [h.suggest a.type h.names_perm]
      cases sc.class? a.type <;> rfl
  | fixedList n | variableList =>
      rw [bindType, bindType, htype, hname, h.catalog_eq, h.class?_eq]
      dsimp only
      rw [h.suggest a.type hknown]
      cases sc.catalog.lookup a.type with
      | some t => rfl
      | none => cases sc.class? a.type <;> rfl

theorem bindAttribute_relocate (h : Scope.Relocated σ sc sc') (owner : String) (a : Attribute) :
    bindAttribute sc' owner (a.relocate σ.place) =
      ((bindAttribute sc owner a).1.relocate σ.place, (bindAttribute sc owner a).2) := by
  rw [bindAttribute, bindAttribute, Attribute.relocate_shape]
  cases a.shape with
  | none => rfl
  | some shape =>
      simp only [bindType_relocate h]
      rfl

/-! ## Counts -/

section Counts

variable (f : Nat → Nat) (owner : String) (ci : Nat) (attrs : List Attribute)

theorem map_name_relocate : (attrs.map (·.relocate f)).map (·.name) = attrs.map (·.name) := by
  rw [List.map_map]
  rfl

theorem primitiveNames_relocate :
    primitiveNames (attrs.map (·.relocate f)) = primitiveNames attrs := by
  rw [primitiveNames, primitiveNames, List.filter_map, List.map_map]
  rfl

theorem variableListNames_relocate :
    variableListNames (attrs.map (·.relocate f)) = variableListNames attrs := by
  rw [variableListNames, variableListNames, List.filter_map, List.map_map]
  rfl

theorem flaggedFor_relocate (li : Nat) (list : Attribute) :
    flaggedFor (attrs.map (·.relocate f)) li (list.relocate f) = flaggedFor attrs li list := by
  rw [flaggedFor, flaggedFor, List.length_map]
  refine List.filter_congr fun i _ => ?_
  rw [List.getElem?_map]
  cases attrs[i]? <;> rfl

theorem candidates?_relocate (li : Nat) (list : Attribute) :
    candidates? (attrs.map (·.relocate f)) li (list.relocate f) = candidates? attrs li list := by
  have hfield : (list.relocate f).countFieldName = list.countFieldName := rfl
  have hfind : (attrs.map (·.relocate f)).findIdx? (·.name == list.countFieldName) =
      attrs.findIdx? (·.name == list.countFieldName) := List.findIdx?_map
  simp only [candidates?, flaggedFor_relocate, hfield, hfind]

theorem getElem?_name_relocate (i : Nat) :
    (attrs.map (·.relocate f))[i]?.map (·.name) = attrs[i]?.map (·.name) := by
  rw [List.getElem?_map, Option.map_map]
  rfl

theorem quotedNames_relocate (places : List Nat) :
    quotedNames (attrs.map (·.relocate f)) places = quotedNames attrs places := by
  simp only [quotedNames, getElem?_name_relocate]

/-- A count field that is not fit is only flagged. -/
theorem bindPair_of_unfit (li pi : Nat) (list : Attribute) {p : Attribute}
    (hunfit : isCountable p = false) :
    bindPair owner ci attrs li pi list p = (attrs.set pi { p with isCount := true }, .empty) := by
  simp only [bindPair, hunfit, Bool.not_false, if_true]

/-- A count field that counts another list is only flagged, and reported. -/
theorem bindPair_of_taken (li pi : Nat) (list : Attribute) {p : Attribute} {other : AttrRef}
    (hable : isCountable p = true) (htaken : p.countedList? = some other) :
    bindPair owner ci attrs li pi list p =
      (attrs.set pi { p with isCount := true },
        .error Diagnostic.unresolvedCount
          ("count field " ++ Text.quoted p.name ++ " sizes both " ++
            Text.quoted
              (((attrs.set pi { p with isCount := true })[other.attr]?.map (·.name)).getD "") ++
            " and " ++ Text.quoted list.name) owner p.name) := by
  simp only [bindPair, hable, htaken, Bool.not_true, Bool.false_eq_true, if_false]

theorem set_relocate (i : Nat) (a : Attribute) :
    (attrs.map (·.relocate f)).set i (a.relocate f) = (attrs.set i a).map (·.relocate f) :=
  List.map_set.symm

theorem bindPair_relocate (li pi : Nat) (list p : Attribute) :
    bindPair owner (f ci) (attrs.map (·.relocate f)) li pi (list.relocate f) (p.relocate f) =
      ((bindPair owner ci attrs li pi list p).1.map (·.relocate f),
        (bindPair owner ci attrs li pi list p).2) := by
  have hflag := set_relocate f attrs pi { p with isCount := true }
  cases hable : isCountable p with
  | false =>
      rw [bindPair_of_unfit owner ci attrs li pi list hable,
        bindPair_of_unfit owner (f ci) _ li pi _ (p := p.relocate f) hable]
      exact Prod.ext hflag rfl
  | true =>
      cases hcounted : p.countedList? with
      | some other =>
          have hcounted' : (p.relocate f).countedList? = some (other.relocate f) :=
            congrArg (Option.map _) hcounted
          have hother := getElem?_name_relocate f (attrs.set pi { p with isCount := true })
            other.attr
          rw [← hflag] at hother
          rw [bindPair_of_taken owner ci attrs li pi list hable hcounted,
            bindPair_of_taken owner (f ci) _ li pi _ (p := p.relocate f) hable hcounted']
          exact Prod.ext hflag <| congrArg (fun name : Option String =>
            Report.error Diagnostic.unresolvedCount
              ("count field " ++ Text.quoted p.name ++ " sizes both " ++
                Text.quoted (name.getD "") ++ " and " ++ Text.quoted list.name) owner p.name) hother
      | none =>
          have hcounted' : (p.relocate f).countedList? = none := congrArg (Option.map _) hcounted
          rw [bindPair_of_free owner ci attrs li pi hable hcounted,
            bindPair_of_free owner (f ci) _ li pi (p := p.relocate f) hable hcounted']
          refine Prod.ext ?_ rfl
          rw [← set_relocate, ← set_relocate]
          rfl

theorem bindList_relocate (h : Scope.Relocated σ sc sc') (li : Nat) (list : Attribute) :
    bindList sc' owner (σ.place ci) (attrs.map (·.relocate σ.place)) li
        (list.relocate σ.place) =
      ((bindList sc owner ci attrs li list).1.map (·.relocate σ.place),
        (bindList sc owner ci attrs li list).2) := by
  have hname : (list.relocate σ.place).name = list.name := rfl
  have hfield : (list.relocate σ.place).countFieldName = list.countFieldName := rfl
  simp only [bindList, candidates?_relocate, primitiveNames_relocate, quotedNames_relocate, hname,
    hfield, h.suggest_same]
  rcases candidates? attrs li list with _ | _ | ⟨pi, _ | ⟨pj, more⟩⟩
  · rfl
  · rfl
  · simp only [List.getElem?_map]
    cases attrs[pi]? with
    | none => rfl
    | some p => exact bindPair_relocate σ.place owner ci attrs li pi list p
  · rfl

theorem bindLists_relocate (h : Scope.Relocated σ sc sc') (places : List Nat) :
    ∀ attrs : List Attribute,
      bindLists sc' owner (σ.place ci) places (attrs.map (·.relocate σ.place)) =
        ((bindLists sc owner ci places attrs).1.map (·.relocate σ.place),
          (bindLists sc owner ci places attrs).2) := by
  induction places with
  | nil => exact fun attrs => rfl
  | cons li rest ih =>
      intro attrs
      rw [bindLists, bindLists, List.getElem?_map]
      cases attrs[li]? with
      | none => exact ih attrs
      | some list =>
          simp only [Option.map_some, Attribute.relocate_isVariableList, bindList_relocate owner ci
            attrs h, ih]
          split <;> rfl

theorem checkCount_relocate (h : Scope.Relocated σ sc sc') (p : Attribute) :
    checkCount sc' owner (attrs.map (·.relocate σ.place)) (p.relocate σ.place) =
      checkCount sc owner attrs p := by
  have hable : isCountable (p.relocate σ.place) = isCountable p := rfl
  have hcounted : (p.relocate σ.place).countedList?.isSome = p.countedList?.isSome :=
    Option.isSome_map
  have hname : (p.relocate σ.place).name = p.name := rfl
  have htype : (p.relocate σ.place).type = p.type := rfl
  have hdefault : (p.relocate σ.place).default? = p.default? := rfl
  have hfind : (attrs.map (·.relocate σ.place)).find? (·.name == p.counts) =
      (attrs.find? (·.name == p.counts)).map (·.relocate σ.place) := List.find?_map
  simp only [checkCount, hable, hcounted, hname, htype, hdefault, hfind,
    Attribute.relocate_shapeName, Attribute.relocate_counts, variableListNames_relocate,
    h.suggest_same]
  cases attrs.find? (·.name == p.counts) <;> rfl

theorem bindCounts_relocate (h : Scope.Relocated σ sc sc') :
    bindCounts sc' owner (σ.place ci) (attrs.map (·.relocate σ.place)) =
      ((bindCounts sc owner ci attrs).1.map (·.relocate σ.place),
        (bindCounts sc owner ci attrs).2) := by
  have hcleared :
      (attrs.map (·.relocate σ.place)).map
          (fun a => { a with countField? := none, countedList? := none }) =
        (attrs.map fun a => { a with countField? := none, countedList? := none }).map
          (·.relocate σ.place) := by
    rw [List.map_map, List.map_map]
    rfl
  simp only [bindCounts, hcleared, List.length_map, bindLists_relocate owner ci h]
  refine Prod.ext rfl ?_
  dsimp only
  rw [List.filter_map, List.map_map]
  congr 3
  funext p
  exact checkCount_relocate owner _ h p

end Counts

theorem bindClass_relocate (h : Scope.Relocated σ sc sc') (i : Nat) (c : Class) :
    bindClass sc' (σ.place i) (c.relocate σ.place) =
      ((bindClass sc i c).1.relocate σ.place, (bindClass sc i c).2) := by
  have hattrs : (c.attributes.map (·.relocate σ.place)).map (bindAttribute sc' c.name) =
      (c.attributes.map (bindAttribute sc c.name)).map fun r => (r.1.relocate σ.place, r.2) := by
    rw [List.map_map, List.map_map]
    exact List.map_congr_left fun a _ => bindAttribute_relocate h c.name a
  have hfirst : ((c.attributes.map (bindAttribute sc c.name)).map
      fun r => (r.1.relocate σ.place, r.2)).map (·.1) =
        ((c.attributes.map (bindAttribute sc c.name)).map (·.1)).map (·.relocate σ.place) := by
    simp only [List.map_map]
    rfl
  have hsecond : ((c.attributes.map (bindAttribute sc c.name)).map
      fun r => (r.1.relocate σ.place, r.2)).map (·.2) =
        (c.attributes.map (bindAttribute sc c.name)).map (·.2) := by
    rw [List.map_map]
    rfl
  simp only [bindClass, Class.relocate_attributes, Class.relocate_name, hattrs, hfirst, hsecond,
    bindCounts_relocate c.name i _ h]
  rfl

/-! ## Initial values -/

section Values

variable {m m' : Model}

theorem setterNames_relocate (hm : m.Rearranged σ m') (i : Nat) :
    setterNames m' (σ.place i) = setterNames m i := by
  rw [setterNames, setterNames, hm.chain, List.flatMap_map]
  congr 1
  funext j
  rw [hm.at_place]
  cases m.classes[j]? with
  | none => rfl
  | some c =>
      simp only [Option.map_some, Class.relocate_attributes, List.filter_map, List.map_map]
      rfl

theorem bindInitialValue_relocate (h : Scope.Relocated σ sc sc') (hm : m.Rearranged σ m') (i : Nat)
    (owner : String) (v : InitialValue) :
    bindInitialValue sc' m' (σ.place i) owner (v.relocate σ.place) =
      ((bindInitialValue sc m i owner v).1.relocate σ.place,
        (bindInitialValue sc m i owner v).2) := by
  have hsetter : (v.relocate σ.place).setter = v.setter := rfl
  have hvalue : (v.relocate σ.place).value = v.value := rfl
  rw [bindInitialValue, bindInitialValue]
  dsimp only
  rw [hsetter, hvalue, hm.lookupAttribute, setterNames_relocate hm, h.suggest_same]
  cases m.lookupAttribute i (Naming.setterField v.setter) with
  | none => rfl
  | some place =>
      simp only [Option.map_some, hm.attribute?]
      cases m.attribute? place with
      | none => rfl
      | some a =>
          simp only [Option.map_some, Attribute.relocate_isCount, Attribute.relocate_isPrimitive,
            Attribute.relocate_primitive?, Attribute.relocate_name, Attribute.relocate_shapeName]
          by_cases hcount : a.isCount = true
          · simp only [hcount, if_true]
            rfl
          by_cases hprimitive : a.isPrimitive = true
          · simp only [hcount, hprimitive, Bool.not_true, Bool.false_eq_true, if_false]
            cases a.primitive? with
            | none => rfl
            | some t => cases hread : t.parse v.value <;> simp only [hread] <;> rfl
          · simp only [hcount, hprimitive, Bool.not_false, if_true, Bool.false_eq_true, if_false]
            rfl

theorem bindInitialValues_relocate (h : Scope.Relocated σ sc sc') (hm : m.Rearranged σ m') (i : Nat)
    (c : Class) :
    bindInitialValues sc' m' (σ.place i) (c.relocate σ.place) =
      ((bindInitialValues sc m i c).1.relocate σ.place, (bindInitialValues sc m i c).2) := by
  have hvalues : (c.initialValues.map (·.relocate σ.place)).map
      (bindInitialValue sc' m' (σ.place i) c.name) =
        (c.initialValues.map (bindInitialValue sc m i c.name)).map
          fun r => (r.1.relocate σ.place, r.2) := by
    rw [List.map_map, List.map_map]
    exact List.map_congr_left fun v _ => bindInitialValue_relocate h hm i c.name v
  have hinitial : (c.relocate σ.place).initialValues =
      c.initialValues.map (·.relocate σ.place) := rfl
  simp only [bindInitialValues, hinitial, Class.relocate_name, hvalues, List.map_map]
  refine Prod.ext ?_ rfl
  simp only [Class.relocate, List.map_map]
  rfl

end Values

end Steps

/-! ## Passes over all types -/

section Passes

variable {n : Nat} {σ : Relocation n} {m m' : Model}

theorem onClasses_rearranged {step step' : Nat → Class → Class × Report} (hm : m.Rearranged σ m')
    (hstep : ∀ i c, step' (σ.place i) (c.relocate σ.place) =
      ((step i c).1.relocate σ.place, (step i c).2)) :
    (onClasses m step).1.Rearranged σ (onClasses m' step').1 := by
  refine ⟨hm.version_eq, (length_onClasses m step).trans hm.length_eq,
    (length_onClasses m' step').trans hm.length_eq', fun i => ?_⟩
  rw [getElem?_onClasses, getElem?_onClasses, hm.at_place]
  cases m.classes[i]? with
  | none => rfl
  | some c => simp only [Option.map_some, hstep]

theorem onClasses_sameByType {step step' : Nat → Class → Class × Report} (hm : m.Rearranged σ m')
    (hnames : m.classNames.Nodup)
    (hstep : ∀ i c, step' (σ.place i) (c.relocate σ.place) =
      ((step i c).1.relocate σ.place, (step i c).2))
    (hconcerns : ∀ i c, (step i c).2.Concerns c.name) :
    (onClasses m step).2.SameByType (onClasses m' step').2 := by
  have hperm : ((m.classes.mapIdx step).map (·.2)).Perm ((m'.classes.mapIdx step').map (·.2)) := by
    refine σ.perm_of_places (by simp [hm.length_eq]) (by simp [hm.length_eq']) fun i => ?_
    simp only [List.getElem?_map, List.getElem?_mapIdx, hm.at_place]
    cases m.classes[i]? with
    | none => rfl
    | some c => simp only [Option.map_some, hstep]
  refine Report.sameByType_join hperm ?_
  rw [List.mapIdx_eq_zipIdx_map, List.map_map]
  have hfirst : m.classes.zipIdx.map (fun p => p.1.name) = m.classNames := by
    have hcomp := List.map_map (f := Prod.fst) (g := Class.name) (l := m.classes.zipIdx)
    rw [List.zipIdx_map_fst] at hcomp
    exact hcomp.symm
  have hdistinct : (m.classes.zipIdx.map fun p => p.1.name).Nodup := by rwa [hfirst]
  exact Report.pairwise_apart hdistinct fun p _ => hconcerns p.2 p.1

theorem repeatedNames_of_nodup (classes : List Class) :
    ∀ seen : List String, (classes.map (·.name)).Nodup → (∀ c ∈ classes, c.name ∉ seen) →
      repeatedNames seen classes =
        .join (classes.map fun c => repeatedAttributes c.name [] (c.attributes.map (·.name))) := by
  induction classes with
  | nil => exact fun _ _ _ => rfl
  | cons c rest ih =>
      intro seen hnodup hfresh
      obtain ⟨hhead, hrest⟩ := List.nodup_cons.mp hnodup
      have hc : seen.contains c.name = false := by simpa using hfresh c List.mem_cons_self
      have hseen : ∀ d ∈ rest, d.name ∉ c.name :: seen := by
        intro d hd hmem
        rcases List.mem_cons.mp hmem with hname | hmem
        · exact hhead (List.mem_map.mpr ⟨d, hd, hname⟩)
        · exact hfresh d (List.mem_cons_of_mem _ hd) hmem
      rw [repeatedNames, hc, ih (c.name :: seen) hrest hseen]
      rfl

/-- Among types with unique names only attributes are repeated, in each type on its own. -/
theorem repeatedNames_sameByType (hm : m.Rearranged σ m') (hnames : m.classNames.Nodup) :
    (repeatedNames [] m.classes).SameByType (repeatedNames [] m'.classes) := by
  have hnames' : m'.classNames.Nodup := hm.classNames_perm.nodup_iff.mp hnames
  rw [repeatedNames_of_nodup _ [] hnames fun _ _ => List.not_mem_nil,
    repeatedNames_of_nodup _ [] hnames' fun _ _ => List.not_mem_nil]
  refine Report.sameByType_join (hm.perm_of_places _ fun c => ?_)
    (Report.pairwise_apart hnames fun c _ => repeatedAttributes_concerns c.name _ [])
  rw [Class.relocate_name, Class.relocate_attributes, map_name_relocate]

end Passes

end WireSchema.Resolve
