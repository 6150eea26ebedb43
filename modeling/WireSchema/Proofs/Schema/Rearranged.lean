import Mathlib
import WireSchema.Proofs.Graph.Relocation
import WireSchema.Schema.Model

/-!
# Models with their types in another order

Links are places in a model, so a model whose types are declared in another order has other links
even though they mean the same.  `relocate` rewrites the links of a declaration, and `Rearranged`
says of two models that they are the same up to the places of their types.  What is found by
following links is then found in the new places: chains of ancestors, attributes, and the attribute
a name means.

## Main results

* `rearrange` — the types of a model in an order given by their old places.
* `Rearranged.perm_of_places` — what two models say about their types is the same, in some order.
* `Rearranged.chain`, `Rearranged.lookupAttribute` — ancestors and attributes in their new places.
-/

namespace WireSchema

/-! ## Declarations with their links rewritten -/

/-- An attribute of a type that moved. -/
def AttrRef.relocate (f : Nat → Nat) (r : AttrRef) : AttrRef := { r with cls := f r.cls }

/-- An attribute with its links rewritten. -/
def Attribute.relocate (f : Nat → Nat) (a : Attribute) : Attribute :=
  { a with
    class? := a.class?.map f
    countField? := a.countField?.map (·.relocate f)
    countedList? := a.countedList?.map (·.relocate f) }

/-- An initial value with its link rewritten. -/
def InitialValue.relocate (f : Nat → Nat) (v : InitialValue) : InitialValue :=
  { v with target? := v.target?.map (·.relocate f) }

/-- A message type with its links rewritten. -/
def Class.relocate (f : Nat → Nat) (c : Class) : Class :=
  { c with
    attributes := c.attributes.map (·.relocate f)
    initialValues := c.initialValues.map (·.relocate f)
    parentClass? := c.parentClass?.map f }

/-- Where the type at `i` is once the types stand in the order of the given places. -/
def newPlace (places : List Nat) (i : Nat) : Nat :=
  if i < places.length then places.idxOf i else i

/-- The types of a model in another order: the type that was at `places[k]` is at `k`.  Links lead
to the same declarations as before. -/
def Model.rearrange (places : List Nat) (m : Model) : Model :=
  { m with
    classes := places.filterMap fun i => (m.classes[i]?).map (Class.relocate (newPlace places)) }

section Relocate

variable (f : Nat → Nat) (a : Attribute) (c : Class)

@[simp] theorem Attribute.relocate_name : (a.relocate f).name = a.name := rfl

@[simp] theorem Attribute.relocate_shape : (a.relocate f).shape = a.shape := rfl

@[simp] theorem Attribute.relocate_isPrimitive : (a.relocate f).isPrimitive = a.isPrimitive := rfl

@[simp] theorem Attribute.relocate_isVariableList :
    (a.relocate f).isVariableList = a.isVariableList := rfl

@[simp] theorem Attribute.relocate_shapeName : (a.relocate f).shapeName = a.shapeName := rfl

@[simp] theorem Attribute.relocate_isCount : (a.relocate f).isCount = a.isCount := rfl

@[simp] theorem Attribute.relocate_counts : (a.relocate f).counts = a.counts := rfl

@[simp] theorem Attribute.relocate_primitive? : (a.relocate f).primitive? = a.primitive? := rfl

@[simp] theorem Attribute.relocate_class? : (a.relocate f).class? = a.class?.map f := rfl

@[simp] theorem Class.relocate_name : (c.relocate f).name = c.name := rfl

@[simp] theorem Class.relocate_attributes :
    (c.relocate f).attributes = c.attributes.map (·.relocate f) := rfl

@[simp] theorem Class.relocate_parentClass? :
    (c.relocate f).parentClass? = c.parentClass?.map f := rfl

theorem Class.relocate_attributeIndex? (name : String) :
    (c.relocate f).attributeIndex? name = c.attributeIndex? name := by
  rw [Class.attributeIndex?, Class.attributeIndex?, Class.relocate_attributes, List.findIdx?_map]
  rfl

end Relocate

/-! ## Places -/

section Places

variable {n : Nat} {places : List Nat}

theorem newPlace_of_lt (h : places.Perm (List.range n)) {i : Nat} (hi : i < n) :
    newPlace places i < n ∧ places[newPlace places i]? = some i := by
  have hlen : places.length = n := by simpa using h.length_eq
  have hmem : i ∈ places := h.mem_iff.mpr (List.mem_range.mpr hi)
  have hlt : places.idxOf i < places.length := List.idxOf_lt_length_iff.mpr hmem
  rw [newPlace, if_pos (hlen ▸ hi)]
  exact ⟨hlen ▸ hlt, by rw [List.getElem?_eq_getElem hlt, List.getElem_idxOf]⟩

theorem newPlace_of_not_lt (h : places.Perm (List.range n)) {i : Nat} (hi : ¬i < n) :
    newPlace places i = i := by
  have hlen : places.length = n := by simpa using h.length_eq
  rw [newPlace, if_neg (hlen ▸ hi)]

/-- The new places of the types of a model. -/
def Relocation.ofPlaces (h : places.Perm (List.range n)) : Relocation n where
  place := newPlace places
  injective := by
    intro i j hij
    by_cases hi : i < n
    · obtain ⟨hlt, hat⟩ := newPlace_of_lt h hi
      by_cases hj : j < n
      · have hat' := (newPlace_of_lt h hj).2
        rw [← hij, hat] at hat'
        exact Option.some.inj hat'
      · rw [hij, newPlace_of_not_lt h hj] at hlt
        exact absurd hlt hj
    · by_cases hj : j < n
      · have hlt := (newPlace_of_lt h hj).1
        rw [← hij, newPlace_of_not_lt h hi] at hlt
        exact absurd hlt hi
      · rwa [newPlace_of_not_lt h hi, newPlace_of_not_lt h hj] at hij
  lt_iff := by
    intro i
    by_cases hi : i < n
    · exact ⟨fun _ => hi, fun _ => (newPlace_of_lt h hi).1⟩
    · rw [newPlace_of_not_lt h hi]

theorem filterMap_range_getElem? {α : Type} (l : List α) :
    (List.range l.length).filterMap (l[·]?) = l := by
  induction l with
  | nil => rfl
  | cons x l ih =>
      have hfirst : (x :: l)[0]? = some x := rfl
      rw [List.length_cons, List.range_succ_eq_map, List.filterMap_cons_some hfirst,
        List.filterMap_map]
      exact congrArg (x :: ·) ih

/-- Lists that hold each element in its old and its new place. -/
theorem Relocation.perm_of_places {α : Type} (σ : Relocation n) {l l' : List α}
    (hl : l.length = n) (hl' : l'.length = n) (h : ∀ i, l'[σ.place i]? = l[i]?) : l.Perm l' := by
  have hrange : (List.range n).Perm ((List.range n).map σ.place) :=
    σ.perm_map_place List.nodup_range List.nodup_range (fun j hj => List.mem_range.mp hj)
      fun i => by rw [List.mem_range, List.mem_range, σ.lt_iff]
  have hmoved : ((List.range n).map σ.place).filterMap (l'[·]?) = l := by
    rw [List.filterMap_map]
    calc (List.range n).filterMap ((l'[·]?) ∘ σ.place)
        = (List.range l.length).filterMap (l[·]?) := by
          rw [hl]
          exact congrArg (List.filterMap · _) (funext h)
      _ = l := filterMap_range_getElem? l
  have hperm := hrange.filterMap (l'[·]?)
  rw [hmoved, ← hl', filterMap_range_getElem?] at hperm
  exact hperm.symm

end Places

namespace Model

/-! ## Rearranged models -/

/-- The same model with its types in other places. -/
structure Rearranged {n : Nat} (σ : Relocation n) (m m' : Model) : Prop where
  version_eq : m'.version = m.version
  length_eq : m.classes.length = n
  length_eq' : m'.classes.length = n
  at_place : ∀ i, m'.classes[σ.place i]? = (m.classes[i]?).map (Class.relocate σ.place)

section OfPlaces

variable {m : Model} {places : List Nat}

theorem map_some_rearrange (h : places.Perm (List.range m.classes.length)) :
    (m.rearrange places).classes.map some =
      places.map fun i => (m.classes[i]?).map (Class.relocate (newPlace places)) := by
  rw [rearrange, List.map_filterMap_some_eq_filter_map_isSome, List.filter_eq_self]
  intro c hc
  obtain ⟨i, hi, rfl⟩ := List.mem_map.mp hc
  rw [List.getElem?_eq_getElem (List.mem_range.mp (h.mem_iff.mp hi))]
  rfl

theorem getElem?_rearrange (h : places.Perm (List.range m.classes.length)) (k : Nat) :
    (m.rearrange places).classes[k]? =
      (places[k]?).bind fun i => (m.classes[i]?).map (Class.relocate (newPlace places)) := by
  have hat := congrArg (·[k]?) (map_some_rearrange h)
  simp only [List.getElem?_map] at hat
  cases hk : places[k]? with
  | none =>
      rw [hk, Option.map_none, Option.map_eq_none_iff] at hat
      rw [hat, Option.bind_none]
  | some i =>
      rw [hk, Option.map_some] at hat
      obtain ⟨c, hc, hci⟩ := Option.map_eq_some_iff.mp hat
      rw [hc, Option.bind_some, hci]

theorem rearranged_rearrange (h : places.Perm (List.range m.classes.length)) :
    m.Rearranged (Relocation.ofPlaces h) (m.rearrange places) := by
  have hlen : places.length = m.classes.length := by simpa using h.length_eq
  have hat : ∀ i, (m.rearrange places).classes[newPlace places i]? =
      (m.classes[i]?).map (Class.relocate (newPlace places)) := by
    intro i
    rw [getElem?_rearrange h]
    by_cases hi : i < m.classes.length
    · rw [(newPlace_of_lt h hi).2, Option.bind_some]
    · rw [newPlace_of_not_lt h hi, List.getElem?_eq_none (by omega),
        List.getElem?_eq_none (by omega)]
      rfl
  have hcount : (m.rearrange places).classes.length = places.length := by
    simpa using congrArg List.length (map_some_rearrange h)
  exact ⟨rfl, rfl, hcount.trans hlen, hat⟩

/-- There is one model with the types of another in given places. -/
theorem eq_rearrange {n : Nat} {m' : Model} (h : places.Perm (List.range n))
    (hm' : m.Rearranged (Relocation.ofPlaces h) m') : m' = m.rearrange places := by
  obtain rfl : m.classes.length = n := hm'.length_eq
  have hr := rearranged_rearrange h
  have hclasses : m'.classes = (m.rearrange places).classes := by
    refine List.ext_getElem? fun k => ?_
    by_cases hk : k < m.classes.length
    · obtain ⟨i, -, rfl⟩ := (Relocation.ofPlaces h).exists_place_eq hk
      rw [hm'.at_place, hr.at_place]
    · rw [List.getElem?_eq_none (by rw [hm'.length_eq']; omega),
        List.getElem?_eq_none (by rw [hr.length_eq']; omega)]
  cases m'
  cases hclasses
  cases hm'.version_eq
  rfl

end OfPlaces

namespace Rearranged

variable {n : Nat} {σ : Relocation n} {m m' : Model}

/-- What two models say about their types is the same, in some order. -/
theorem perm_of_places {α : Type} (h : m.Rearranged σ m') (f : Class → α)
    (hf : ∀ c, f (c.relocate σ.place) = f c) : (m.classes.map f).Perm (m'.classes.map f) := by
  refine σ.perm_of_places ((List.length_map _).trans h.length_eq)
    ((List.length_map _).trans h.length_eq') fun i => ?_
  rw [List.getElem?_map, List.getElem?_map, h.at_place, Option.map_map]
  exact congrArg (Option.map · _) (funext hf)

theorem classNames_perm (h : m.Rearranged σ m') : m.classNames.Perm m'.classNames :=
  h.perm_of_places _ fun _ => rfl

theorem className (h : m.Rearranged σ m') (i : Nat) : m'.className (σ.place i) = m.className i := by
  rw [Model.className, Model.className, h.at_place, Option.map_map]
  rfl

theorem parentOf? (h : m.Rearranged σ m') (i : Nat) :
    m'.parentOf? (σ.place i) = (m.parentOf? i).map σ.place := by
  rw [Model.parentOf?, Model.parentOf?, h.at_place]
  cases m.classes[i]? <;> rfl

theorem chainFrom (h : m.Rearranged σ m') (fuel : Nat) :
    ∀ (seen : List Nat) (i : Nat), m'.chainFrom fuel (seen.map σ.place) (σ.place i) =
      (m.chainFrom fuel seen i).map σ.place := by
  induction fuel with
  | zero => exact fun _ _ => rfl
  | succ fuel ih =>
      intro seen i
      rw [Model.chainFrom, Model.chainFrom, σ.contains_map_place, h.parentOf?]
      split
      · rfl
      · rw [List.map_cons]
        cases m.parentOf? i with
        | none => rfl
        | some p => exact congrArg (σ.place i :: ·) (ih (i :: seen) p)

/-- The chain of a type is the chain it had, in its new places. -/
theorem chain (h : m.Rearranged σ m') (i : Nat) :
    m'.chain (σ.place i) = (m.chain i).map σ.place := by
  rw [Model.chain, Model.chain, h.length_eq, h.length_eq']
  exact h.chainFrom (n + 1) [] i

theorem lookupAttribute (h : m.Rearranged σ m') (i : Nat) (name : String) :
    m'.lookupAttribute (σ.place i) name =
      (m.lookupAttribute i name).map (·.relocate σ.place) := by
  rw [Model.lookupAttribute, Model.lookupAttribute, h.chain, List.findSome?_map,
    List.map_findSome?]
  congr 1
  funext j
  rw [Function.comp_apply, Function.comp_apply, h.at_place]
  cases m.classes[j]? with
  | none => rfl
  | some c =>
      simp only [Option.map_some, Option.bind_some, Class.relocate_attributeIndex?, Option.map_map]
      rfl

theorem attribute? (h : m.Rearranged σ m') (r : AttrRef) :
    m'.attribute? (r.relocate σ.place) = (m.attribute? r).map (·.relocate σ.place) := by
  rw [Model.attribute?, Model.attribute?, AttrRef.relocate, h.at_place]
  cases m.classes[r.cls]? with
  | none => rfl
  | some c => exact List.getElem?_map

end Rearranged

end Model

end WireSchema
