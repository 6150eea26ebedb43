import Mathlib
import WireSchema.Proofs.Graph.Cycles
import WireSchema.Proofs.Resolve.Bound

/-!
# The order of containment

A type needs its parent and what it holds by value, so it has to come after them.  If no type needs
itself, over however many steps, there is such an order of all types, and the cycle check returns
one.  What a type needs is read off its links, whether or not everything in the model was bound.

## Main results

* `containment_deps` — among unique names the containment graph has the places of the types as its
  nodes.
* `Passes.needs_lt` — whatever the passes link to is a type of the model.
* `checkCycles_ordered` — without cycles the cycle check returns all types, each after what it
  needs.
-/

namespace WireSchema

/-! ## What a type needs -/

namespace Model

/-- The type at `i` has the type at `j` as its parent or holds it by value, as a reference or as the
element of a fixed list. -/
def Needs (m : Model) (i j : Nat) : Prop :=
  ∃ c, m.classes[i]? = some c ∧
    (c.parentClass? = some j ∨
      ∃ a ∈ c.attributes, a.isVariableList = false ∧ a.class? = some j)

/-- No type needs itself, over however many steps. -/
def Acyclic (m : Model) : Prop := ∀ i, ¬Relation.TransGen m.Needs i i

/-- An order of all types in which each follows what it needs. -/
structure Ordered (m : Model) (order : List Nat) : Prop where
  perm : order.Perm (List.range m.classes.length)
  follows : ∀ i j, m.Needs i j → order.idxOf j < order.idxOf i

end Model

namespace Resolve

theorem mem_contained {c : Class} {j : Nat} :
    j ∈ contained c ↔ c.parentClass? = some j ∨
      ∃ a ∈ c.attributes, a.isVariableList = false ∧ a.class? = some j := by
  simp only [contained, List.mem_append, Option.mem_toList, List.mem_filterMap]
  refine or_congr Iff.rfl (exists_congr fun a => and_congr_right fun _ => ?_)
  cases a.isVariableList <;> simp

theorem needs_iff {m : Model} {i j : Nat} :
    m.Needs i j ↔ ∃ c, m.classes[i]? = some c ∧ j ∈ contained c := by
  simp only [Model.Needs, mem_contained]

/-- In the model of a resolution that succeeded no type needs itself. -/
theorem Bound.acyclic {m : Model} (h : Bound m) : m.Acyclic := by
  obtain ⟨rank, hrank⟩ := h.ranked
  have hfalls : ∀ i j, Relation.TransGen m.Needs i j → rank j < rank i := by
    intro i j hij
    induction hij with
    | single hstep =>
        obtain ⟨c, hc, hj⟩ := needs_iff.mp hstep
        exact hrank _ c hc _ hj
    | tail _ hstep ih =>
        obtain ⟨c, hc, hj⟩ := needs_iff.mp hstep
        exact (hrank _ c hc _ hj).trans ih
  exact fun i hi => Nat.lt_irrefl _ (hfalls i i hi)

/-! ## The graph -/

theorem findIdx?_range (n j : Nat) :
    (List.range n).findIdx? (· == j) = if j < n then some j else none := by
  by_cases hj : j < n
  · rw [if_pos hj, List.findIdx?_eq_some_iff_getElem]
    exact ⟨by simpa using hj, by simp, fun k hk => by simpa using Nat.ne_of_lt hk⟩
  · rw [if_neg hj, List.findIdx?_eq_none_iff]
    intro k hk
    have hlt : k < n := List.mem_range.mp hk
    simp only [beq_eq_false_iff_ne]
    omega

section Graph

variable {m : Model}

theorem containment_size (hnames : m.classNames.Nodup) :
    (containment m).size = m.classes.length := by
  simp [containment, nodes_eq_range hnames]

theorem containment_deps (hnames : m.classNames.Nodup) (i : Nat) :
    (containment m).deps i =
      ((m.classes[i]?.map contained).getD []).filter fun j => decide (j < m.classes.length) := by
  have hguard : (fun j => (List.range m.classes.length).findIdx? (· == j)) =
      Option.guard fun j => decide (j < m.classes.length) := by
    funext j
    simp [findIdx?_range, Option.guard]
  simp only [containment, nodes_eq_range hnames]
  by_cases hi : i < m.classes.length
  · rw [List.getElem?_range hi, Option.bind_some, List.getElem?_eq_getElem hi]
    simp only [hguard, List.filterMap_eq_filter, Option.map_some, Option.getD_some]
  · rw [List.getElem?_eq_none (by simpa using hi), List.getElem?_eq_none (by simpa using hi)]
    rfl

theorem mem_containment_deps (hnames : m.classNames.Nodup) {i j : Nat} :
    j ∈ (containment m).deps i ↔ m.Needs i j ∧ j < m.classes.length := by
  rw [containment_deps hnames, List.mem_filter, decide_eq_true_iff, needs_iff]
  cases m.classes[i]? <;> simp

/-- The nodes of a containment graph are named by the types in their places. -/
theorem filterMap_nodes (hnames : m.classNames.Nodup) {places : List Nat}
    (hlt : ∀ i ∈ places, i < m.classes.length) : places.filterMap ((nodes m)[·]?) = places := by
  rw [nodes_eq_range hnames]
  calc places.filterMap ((List.range m.classes.length)[·]?)
      = places.filterMap some :=
        List.filterMap_congr fun i hi => List.getElem?_range (hlt i hi)
    _ = places := List.filterMap_some

/-- **Without cycles the cycle check returns all types, each after what it needs.** -/
theorem checkCycles_ordered (hnames : m.classNames.Nodup)
    (hrange : ∀ i j, m.Needs i j → j < m.classes.length) (hacyclic : m.Acyclic) :
    m.Ordered (checkCycles m).1 := by
  have hsize := containment_size hnames
  have hdep : ∀ i d, d ∈ (containment m).deps i ↔ m.Needs i d := fun i d =>
    (mem_containment_deps hnames).trans (and_iff_left_of_imp (hrange i d))
  have hfull : (containment m).order.length = (containment m).size := by
    refine (Graph.Deps.length_order_iff_acyclic fun i _ d hd => ?_).mpr fun i hi => ?_
    · rw [hsize]
      exact hrange i d ((hdep i d).mp hd)
    · exact hacyclic i (Relation.TransGen.mono (fun a b hab => (hdep a b).mp hab.2) _ _ hi)
  have hplaced := Graph.Deps.order_placed (containment m)
  have horder : (checkCycles m).1 = (containment m).order := by
    simp only [checkCycles, hfull, if_true]
    exact filterMap_nodes hnames fun i hi => hsize ▸ hplaced.lt_size hi
  rw [horder]
  have hmem : ∀ i, i ∈ (containment m).order ↔ i < m.classes.length := fun i =>
    ⟨fun hi => hsize ▸ hplaced.lt_size hi,
      fun hi => Graph.Deps.mem_order_of_length hfull (hsize.symm ▸ hi)⟩
  refine ⟨?_, fun i j hij => ?_⟩
  · refine (List.perm_ext_iff_of_nodup hplaced.nodup List.nodup_range).mpr fun i => ?_
    rw [hmem, List.mem_range]
  · have hi : i < m.classes.length := by
      obtain ⟨c, hc, -⟩ := hij
      exact (List.getElem?_eq_some_iff.mp hc).1
    exact hplaced.idxOf_lt_of_dep ((hmem i).mpr hi) ((hdep i j).mpr hij)

end Graph

/-! ## Links lead into the model -/

section Links

variable {sc : Scope}

theorem bindParent_parentClass?_lt {c : Class} {j : Nat}
    (hj : (bindParent sc c).1.parentClass? = some j) : j < sc.names.length := by
  unfold bindParent at hj
  split at hj
  · split at hj
    · rename_i p hp
      obtain rfl := Option.some.inj hj
      exact Scope.class?_lt hp
    · cases hj
  · cases hj

theorem bindType_class?_lt {owner : String} {a : Attribute} {shape : Shape} {j : Nat}
    (hj : (bindType sc owner a shape).1.class? = some j) : j < sc.names.length := by
  cases shape with
  | primitive => cases h : sc.catalog.lookup a.type <;> simp [bindType, h] at hj
  | reference =>
      cases h : sc.class? a.type with
      | none => simp [bindType, h] at hj
      | some k =>
          obtain rfl : k = j := by simpa [bindType, h] using hj
          exact Scope.class?_lt h
  | fixedList n | variableList =>
      cases h : sc.catalog.lookup a.type with
      | some t => simp [bindType, h] at hj
      | none =>
          cases h' : sc.class? a.type with
          | none => simp [bindType, h, h'] at hj
          | some k =>
              obtain rfl : k = j := by simpa [bindType, h, h'] using hj
              exact Scope.class?_lt h'

theorem bindAttribute_class?_lt {owner : String} {a : Attribute} {j : Nat}
    (hj : (bindAttribute sc owner a).1.class? = some j) : j < sc.names.length := by
  unfold bindAttribute at hj
  split at hj
  · cases hj
  · exact bindType_class?_lt hj

/-- Whatever the passes link to is a type of the model. -/
theorem Passes.needs_lt {m m₁ m₂ m₃ : Model} (h : Passes sc m m₁ m₂ m₃)
    (hscope : sc.names = m.classNames) (i j : Nat) (hneeds : m₃.Needs i j) :
    j < m₃.classes.length := by
  have hlen : sc.names.length = m₃.classes.length := by
    rw [hscope, h.length, Model.classNames, List.length_map]
  obtain ⟨c₃, hc₃, hlink⟩ := hneeds
  obtain ⟨c, -, -, -, rfl⟩ := h.trace hc₃
  rw [← hlen]
  rcases hlink with hparent | ⟨a', ha', -, hclass⟩
  · rw [bindInitialValues_parentClass?, bindClass_parentClass?] at hparent
    exact bindParent_parentClass?_lt hparent
  · rw [bindInitialValues_attributes] at ha'
    obtain ⟨a, -, heq⟩ := bindClass_trace ha'
    have hfirst : (uncounted a').class? = (uncounted (bindAttribute sc _ a).1).class? :=
      congrArg Attribute.class? heq
    exact bindAttribute_class?_lt (hfirst.symm.trans hclass)

end Links

end Resolve

end WireSchema
