import Mathlib
import WireSchema.Proofs.Graph.Relocation
import WireSchema.Proofs.Resolve.Again
import WireSchema.Proofs.Resolve.Containment
import WireSchema.Proofs.Resolve.Relocated

/-!
# Resolving types in another order

The order in which types are declared decides where their links lead and which of several ready
types comes first.  Nothing else depends on it.  The passes were shown to commute with a change of
places, and to find the same for every type; the same holds of the cycle check here, whose graph is
the same graph with its nodes renumbered.  A sorted report only depends on what is found for each
type, so both resolutions report the same.

## Main results

* `run_rearranged` — models that are the same up to the places of their types resolve to such
  models, with the same report.
* `run_rearrange` — the same of a model and any rearrangement of it, with what the orders promise.
-/

namespace WireSchema

open Resolve

section Needs

variable {n : Nat} {σ : Relocation n} {m m' : Model}

theorem Class.contained_relocate (f : Nat → Nat) (c : Class) :
    contained (c.relocate f) = (contained c).map f := by
  rw [contained, contained, List.map_append]
  congr 1
  · rw [Class.relocate_parentClass?]
    cases c.parentClass? <;> rfl
  · rw [Class.relocate_attributes, List.filterMap_map, List.map_filterMap]
    refine List.filterMap_congr fun a _ => ?_
    rw [Function.comp_apply, Attribute.relocate_isVariableList, Attribute.relocate_class?]
    cases a.isVariableList <;> rfl

/-- What a type needs in the rearranged model, it needed. -/
theorem Model.Rearranged.needs (h : m.Rearranged σ m') {a b : Nat} (hab : m'.Needs a b) :
    ∃ i j, σ.place i = a ∧ σ.place j = b ∧ m.Needs i j := by
  obtain ⟨c', hc', hb⟩ := needs_iff.mp hab
  have hlt : a < n := h.length_eq' ▸ (List.getElem?_eq_some_iff.mp hc').1
  obtain ⟨i, -, rfl⟩ := σ.exists_place_eq hlt
  rw [h.at_place] at hc'
  obtain ⟨c, hc, rfl⟩ := Option.map_eq_some_iff.mp hc'
  rw [Class.contained_relocate] at hb
  obtain ⟨j, hj, rfl⟩ := List.mem_map.mp hb
  exact ⟨i, j, rfl, rfl, needs_iff.mpr ⟨c, hc, hj⟩⟩

theorem Model.Rearranged.acyclic (h : m.Rearranged σ m') (hacyclic : m.Acyclic) : m'.Acyclic := by
  have hsteps : ∀ a b, Relation.TransGen m'.Needs a b →
      ∃ i j, σ.place i = a ∧ σ.place j = b ∧ Relation.TransGen m.Needs i j := by
    intro a b hab
    induction hab with
    | single hstep =>
        obtain ⟨i, j, hi, hj, hij⟩ := h.needs hstep
        exact ⟨i, j, hi, hj, .single hij⟩
    | tail _ hstep ih =>
        obtain ⟨i, j, hi, hj, hij⟩ := ih
        obtain ⟨j', k, hj', hk, hjk⟩ := h.needs hstep
        obtain rfl : j' = j := σ.injective (hj'.trans hj.symm)
        exact ⟨i, k, hi, hk, hij.tail hjk⟩
  intro a haa
  obtain ⟨i, j, hi, hj, hij⟩ := hsteps a a haa
  obtain rfl : i = j := σ.injective (hi.trans hj.symm)
  exact hacyclic i hij

end Needs

namespace Resolve

/-! ## The cycle check -/

section Cycles

variable {n : Nat} {σ : Relocation n} {m m' : Model}

theorem containment_relocated (h : m.Rearranged σ m') (hnames : m.classNames.Nodup) :
    Graph.Relocated σ (containment m) (containment m') := by
  have hnames' := h.classNames_perm.nodup_iff.mp hnames
  refine ⟨(containment_size hnames).trans h.length_eq,
    (containment_size hnames').trans h.length_eq', fun i => ?_⟩
  rw [containment_deps hnames, containment_deps hnames', h.at_place, h.length_eq, h.length_eq']
  cases m.classes[i]? with
  | none => rfl
  | some c =>
      simp only [Option.map_some, Option.getD_some, Class.contained_relocate, List.filter_map]
      congr 1
      exact List.filter_congr fun j _ => by simp [σ.lt_iff]

/-- The name of a node. -/
theorem nodeName_eq (hnames : m.classNames.Nodup) {i : Nat} (hi : i < m.classes.length) :
    ((nodes m)[i]?.map m.className).getD "" = m.className i := by
  rw [nodes_eq_range hnames, List.getElem?_range hi]
  rfl

theorem nodeName_place (h : m.Rearranged σ m') (hnames : m.classNames.Nodup) (i : Nat) :
    ((nodes m')[σ.place i]?.map m'.className).getD "" =
      ((nodes m)[i]?.map m.className).getD "" := by
  have hnames' := h.classNames_perm.nodup_iff.mp hnames
  by_cases hi : i < n
  · rw [nodeName_eq hnames (by rwa [h.length_eq]),
      nodeName_eq hnames' (by rwa [h.length_eq', σ.lt_iff]), h.className]
  · have hi' : ¬σ.place i < n := fun hlt => hi ((σ.lt_iff i).mp hlt)
    rw [nodes_eq_range hnames, nodes_eq_range hnames', h.length_eq, h.length_eq',
      List.getElem?_eq_none (by simpa using hi'), List.getElem?_eq_none (by simpa using hi)]
    rfl

theorem cycleError_place (h : m.Rearranged σ m') (hnames : m.classNames.Nodup)
    {members members' : List Nat} (hmembers : ∀ i, σ.place i ∈ members' ↔ i ∈ members) (i : Nat) :
    cycleError m' (nodes m') (containment m') members' (σ.place i) =
      cycleError m (nodes m) (containment m) members i := by
  have hpath := (containment_relocated h hnames).cyclePath_eq hmembers i
  have hname := nodeName_place h hnames
  simp only [cycleError, hpath, List.map_map, hname]
  congr 4
  exact funext hname

/-- Types with unique names have unique names as cycle members. -/
theorem memberNames_nodup (hnames : m.classNames.Nodup) :
    ((containment m).cycleMembers.map
      fun i => ((nodes m)[i]?.map m.className).getD "").Nodup := by
  have hsub := (containment m).cycleMembers_sublist
  have hall : (List.range (containment m).size).map
      (fun i => ((nodes m)[i]?.map m.className).getD "") = m.classNames := by
    rw [containment_size hnames]
    refine List.ext_getElem (by simp [Model.classNames]) fun i hi hi' => ?_
    have hlt : i < m.classes.length := by simpa using hi
    rw [List.getElem_map, List.getElem_range, nodeName_eq hnames hlt, Model.className,
      List.getElem?_eq_getElem hlt]
    simp [Model.classNames]
  exact (hsub.map _).nodup (hall ▸ hnames)

/-- A cycle is reported for the same types, with the same paths. -/
theorem checkCycles_sameByType (h : m.Rearranged σ m') (hnames : m.classNames.Nodup) :
    (checkCycles m).2.SameByType (checkCycles m').2 := by
  have hgraph := containment_relocated h hnames
  have hmembers := hgraph.cycleMembers_perm
  by_cases hfull : (containment m).order.length = (containment m).size
  · have hfull' := hgraph.length_order_iff.mpr hfull
    simp only [checkCycles, hfull, hfull', if_true]
    exact Report.SameByType.refl _
  · have hfull' := hgraph.length_order_iff.not.mpr hfull
    simp only [checkCycles, hfull, hfull', if_false]
    have hmem : ∀ i, σ.place i ∈ (containment m').cycleMembers ↔
        i ∈ (containment m).cycleMembers := fun i => by rw [hmembers.mem_iff, σ.mem_map_place]
    refine Report.sameByType_join ?_ (Report.pairwise_apart (memberNames_nodup hnames)
      fun i _ => cycleError_concerns m _ _ _ i)
    have hperm := hmembers.map (cycleError m' (nodes m') (containment m')
      (containment m').cycleMembers)
    rw [List.map_map] at hperm
    have hsame : (containment m).cycleMembers.map
        (cycleError m' (nodes m') (containment m') (containment m').cycleMembers ∘ σ.place) =
          (containment m).cycleMembers.map
            (cycleError m (nodes m) (containment m) (containment m).cycleMembers) :=
      List.map_congr_left fun i _ => cycleError_place h hnames hmem i
    exact (hsame ▸ hperm).symm

end Cycles

/-! ## The whole resolution -/

/-- Every resolution makes three passes. -/
theorem run_passes (catalog : Catalog) (limit : Int) (m : Model) :
    ∃ m₁ m₂, Passes ⟨catalog, m.classNames, limit⟩ m m₁ m₂ (run catalog limit m).model :=
  ⟨_, _, ⟨rfl, rfl, rfl⟩⟩

theorem onClasses_classNames (m : Model) {step : Nat → Class → Class × Report}
    (hstep : ∀ i c, (step i c).1.name = c.name) :
    (onClasses m step).1.classNames = m.classNames := by
  refine List.ext_getElem? fun i => ?_
  rw [Model.classNames, Model.classNames, List.getElem?_map, List.getElem?_map, getElem?_onClasses,
    Option.map_map]
  exact congrArg (Option.map · _) (funext fun c => hstep i c)

section Run

variable {n : Nat} {σ : Relocation n} {m m' : Model}

/-- What the passes over a model report, with the cycle check. -/
def passReport (sc : Scope) (m m₁ m₂ m₃ : Model) : Report :=
  repeatedNames [] m.classes ++ (onClasses m fun _ c => bindParent sc c).2 ++
    (onClasses m₁ (bindClass sc)).2 ++ (onClasses m₂ (bindInitialValues sc m₂)).2 ++
    (checkCycles m₃).2

/-- Passes over models that are the same up to the places of their types. -/
theorem Passes.rearranged {sc sc' : Scope} {m₁ m₂ m₃ m₁' m₂' m₃' : Model}
    (hscope : Scope.Relocated σ sc sc') (h : m.Rearranged σ m') (hnames : m.classNames.Nodup)
    (p : Passes sc m m₁ m₂ m₃) (p' : Passes sc' m' m₁' m₂' m₃') :
    m₃.Rearranged σ m₃' ∧
      (passReport sc m m₁ m₂ m₃).SameByType (passReport sc' m' m₁' m₂' m₃') := by
  have hparent : ∀ (i : Nat) (c : Class), (fun (_ : Nat) c => bindParent sc' c) (σ.place i)
      (c.relocate σ.place) = ((bindParent sc c).1.relocate σ.place, (bindParent sc c).2) :=
    fun _ c => bindParent_relocate hscope c
  have hnames₁ : m₁.classNames.Nodup := by
    rw [p.parents, onClasses_classNames m fun _ => bindParent_name sc]
    exact hnames
  have hnames₂ : m₂.classNames.Nodup := by
    rw [p.members, onClasses_classNames m₁ (bindClass_name sc)]
    exact hnames₁
  have hnames₃ : m₃.classNames.Nodup := p.classNames ▸ hnames
  have h₁ : m₁.Rearranged σ m₁' := by
    rw [p.parents, p'.parents]
    exact onClasses_rearranged h hparent
  have h₂ : m₂.Rearranged σ m₂' := by
    rw [p.members, p'.members]
    exact onClasses_rearranged h₁ (bindClass_relocate hscope)
  have h₃ : m₃.Rearranged σ m₃' := by
    rw [p.values, p'.values]
    exact onClasses_rearranged h₂ (bindInitialValues_relocate hscope h₂)
  refine ⟨h₃, ((((repeatedNames_sameByType h hnames).append ?_).append ?_).append ?_).append ?_⟩
  · exact onClasses_sameByType h hnames hparent fun _ => bindParent_concerns sc
  · exact onClasses_sameByType h₁ hnames₁ (bindClass_relocate hscope) (bindClass_concerns sc)
  · exact onClasses_sameByType h₂ hnames₂ (bindInitialValues_relocate hscope h₂)
      (bindInitialValues_concerns sc m₂)
  · exact checkCycles_sameByType h₃ hnames₃

variable (catalog : Catalog) (limit : Int)

/-- Models that are the same up to the places of their types resolve to such models, with the same
report. -/
theorem run_rearranged (h : m.Rearranged σ m') (hnames : m.classNames.Nodup) :
    (run catalog limit m).model.Rearranged σ (run catalog limit m').model ∧
      (run catalog limit m').report = (run catalog limit m).report := by
  obtain ⟨m₁, m₂, p⟩ := run_passes catalog limit m
  obtain ⟨m₁', m₂', p'⟩ := run_passes catalog limit m'
  obtain ⟨hmodel, hsame⟩ := p.rearranged (Scope.relocated h hnames catalog limit) h hnames p'
  refine ⟨hmodel, ?_⟩
  rw [run_of_passes p rfl, run_of_passes p' rfl]
  exact (Report.sort_eq_of_sameByType hsame).symm

/-- Without cycles a resolution orders the types, whether or not it bound everything. -/
theorem run_ordered (hnames : m.classNames.Nodup)
    (hacyclic : (run catalog limit m).model.Acyclic) :
    (run catalog limit m).model.Ordered (run catalog limit m).order := by
  obtain ⟨m₁, m₂, p⟩ := run_passes catalog limit m
  have horder := congrArg Resolution.order (run_of_passes p rfl)
  dsimp only at horder
  rw [horder]
  generalize (run catalog limit m).model = m₃ at p hacyclic ⊢
  exact checkCycles_ordered (p.classNames ▸ hnames) (p.needs_lt rfl) hacyclic

end Run

/-- **Resolution does not depend on the order of the types.**  With unique names a model and any
rearrangement of it both resolve or both fail, with the same error text and the same report, and to
the same model up to the rearrangement, links included.  Without cycles both orders list all types,
each after its parent and after what it holds by value. -/
theorem run_rearrange {m : Model} (hnames : m.classNames.Nodup) {places : List Nat}
    (hplaces : places.Perm (List.range m.classes.length)) (catalog : Catalog) (limit : Int) :
    let r := run catalog limit m
    let r' := run catalog limit (m.rearrange places)
    r'.succeeded = r.succeeded ∧ r'.errorText? = r.errorText? ∧ r'.report = r.report ∧
      r'.model = r.model.rearrange places ∧
      (r.model.Acyclic → r.model.Ordered r.order ∧ r'.model.Ordered r'.order) := by
  intro r r'
  have h := Model.rearranged_rearrange hplaces
  have hnames' : (m.rearrange places).classNames.Nodup := h.classNames_perm.nodup_iff.mp hnames
  obtain ⟨hmodel, hreport⟩ := run_rearranged catalog limit h hnames
  refine ⟨?_, ?_, hreport, Model.eq_rearrange hplaces hmodel,
    fun hacyclic => ⟨run_ordered catalog limit hnames hacyclic,
      run_ordered catalog limit hnames' (hmodel.acyclic hacyclic)⟩⟩
  · simp only [r, r', Resolution.succeeded, hreport]
  · simp only [r, r', Resolution.errorText?, hreport]

/-- A packet that holds a derived type, and the type that it is derived from. -/
def stacked : Model where
  classes :=
    [{ name := "Base", attributes := [{ name := "id", shape := some .primitive, type := "byte" }] },
     { name := "Derived", parent := "Base",
       initialValues := [{ setter := "setId", value := "7" }] },
     { name := "Packet"
       attributes := [{ name := "body", shape := some .reference, type := "Derived" }] }]

/-- With the packet declared first, links and order lead to other places and say the same. -/
theorem run_rearrange_stacked :
    (run .standard 3 stacked).succeeded = true ∧
      (run .standard 3 (stacked.rearrange [2, 0, 1])).succeeded = true ∧
      (run .standard 3 (stacked.rearrange [2, 0, 1])).model =
        (run .standard 3 stacked).model.rearrange [2, 0, 1] ∧
      (run .standard 3 stacked).model.Ordered (run .standard 3 stacked).order ∧
      (run .standard 3 (stacked.rearrange [2, 0, 1])).model.Ordered
        (run .standard 3 (stacked.rearrange [2, 0, 1])).order := by
  have hnames : stacked.classNames.Nodup := by decide
  have hplaces : [2, 0, 1].Perm (List.range stacked.classes.length) := by decide
  have hfirst : (run .standard 3 stacked).succeeded = true := by decide +kernel
  obtain ⟨hsucceeded, -, -, hmodel, hordered⟩ := run_rearrange hnames hplaces .standard 3
  obtain ⟨horder, horder'⟩ := hordered (run_bound hfirst).acyclic
  exact ⟨hfirst, hsucceeded.trans hfirst, hmodel, horder, horder'⟩

end Resolve

end WireSchema
