import Mathlib
import WireSchema.Proofs.Reports.Sorted
import WireSchema.Resolve

/-!
# What the findings of a resolution concern

Every step of a resolution works on one type and reports under its name.  So the findings of a step
say nothing about another type, whatever it is that they find.

## Main results

* `bindParent_concerns`, `bindClass_concerns`, `bindInitialValues_concerns` — the three steps.
* `repeatedAttributes_concerns`, `cycleError_concerns` — repeated names and cycles.
-/

namespace WireSchema.Resolve

open Report (Concerns)

variable (sc : Scope) (owner : String)

/-! ## Names -/

theorem repeatedAttributes_concerns (names : List String) :
    ∀ seen : List String, (repeatedAttributes owner seen names).Concerns owner := by
  induction names with
  | nil => exact fun _ => Concerns.empty
  | cons name rest ih =>
      intro seen
      refine Concerns.append ?_ (ih (name :: seen))
      split <;> simp

theorem bindParent_concerns (c : Class) : (bindParent sc c).2.Concerns c.name := by
  unfold bindParent
  cases c.hasParent with
  | false => exact Concerns.empty
  | true => cases sc.class? c.parent <;> simp

/-! ## Attributes -/

theorem bindType_concerns (a : Attribute) (shape : Shape) :
    (bindType sc owner a shape).2.Concerns owner := by
  cases shape with
  | primitive => cases h : sc.catalog.lookup a.type <;> simp [bindType, h]
  | reference => cases h : sc.class? a.type <;> simp [bindType, h]
  | fixedList n | variableList =>
      cases h : sc.catalog.lookup a.type with
      | some t => simp [bindType, h]
      | none => cases h' : sc.class? a.type <;> simp [bindType, h, h']

theorem checkHints_concerns (a : Attribute) (shape : Shape) :
    (checkHints owner a shape).Concerns owner := by
  refine Concerns.append (by split <;> simp) ?_
  split
  · exact Concerns.empty
  split
  · exact Concerns.warning _ _ _
  split
  · exact Concerns.empty
  split <;> simp

theorem bindAttribute_concerns (a : Attribute) :
    (bindAttribute sc owner a).2.Concerns owner := by
  unfold bindAttribute
  split
  · exact Concerns.empty
  · exact (bindType_concerns sc owner a _).append (checkHints_concerns owner _ _)

/-! ## Counts -/

section Counts

variable (ci : Nat) (attrs : List Attribute)

theorem bindPair_concerns (li pi : Nat) (list p : Attribute) :
    (bindPair owner ci attrs li pi list p).2.Concerns owner := by
  unfold bindPair
  dsimp only
  split
  · exact Concerns.empty
  split <;> simp

theorem bindList_concerns (li : Nat) (list : Attribute) :
    (bindList sc owner ci attrs li list).2.Concerns owner := by
  unfold bindList
  split
  · exact Concerns.error _ _ _ _
  · exact Concerns.error _ _ _ _
  · split
    · exact bindPair_concerns owner ci attrs li _ list _
    · exact Concerns.empty
  · exact Concerns.error _ _ _ _

theorem bindLists_concerns (places : List Nat) :
    ∀ attrs : List Attribute, (bindLists sc owner ci places attrs).2.Concerns owner := by
  induction places with
  | nil => exact fun _ => Concerns.empty
  | cons li rest ih =>
      intro attrs
      rw [bindLists]
      split
      · split
        · exact (bindList_concerns sc owner ci attrs li _).append (ih _)
        · exact ih attrs
      · exact ih attrs

theorem checkCount_concerns (p : Attribute) : (checkCount sc owner attrs p).Concerns owner := by
  unfold checkCount
  split
  · exact Concerns.error _ _ _ _
  refine Concerns.append (by split <;> simp) ?_
  split
  · exact Concerns.empty
  split
  · exact Concerns.error _ _ _ _
  dsimp only
  split
  · exact Concerns.error _ _ _ _
  · split <;> simp

theorem bindCounts_concerns : (bindCounts sc owner ci attrs).2.Concerns owner := by
  refine (bindLists_concerns sc owner ci _ _).append (Concerns.join fun r hr => ?_)
  obtain ⟨p, -, rfl⟩ := List.mem_map.mp hr
  exact checkCount_concerns sc owner _ p

end Counts

theorem bindClass_concerns (i : Nat) (c : Class) : (bindClass sc i c).2.Concerns c.name := by
  refine Concerns.append (Concerns.join fun r hr => ?_) (bindCounts_concerns sc c.name i _)
  rw [List.map_map] at hr
  obtain ⟨a, -, rfl⟩ := List.mem_map.mp hr
  exact bindAttribute_concerns sc c.name a

/-! ## Initial values -/

theorem bindInitialValue_concerns (m : Model) (i : Nat) (v : InitialValue) :
    (bindInitialValue sc m i owner v).2.Concerns owner := by
  unfold bindInitialValue
  dsimp only
  split
  · exact Concerns.error _ _ _ _
  split
  · exact Concerns.empty
  split
  · exact Concerns.error _ _ _ _
  split
  · exact Concerns.error _ _ _ _
  split
  · exact Concerns.empty
  split <;> simp

theorem bindInitialValues_concerns (m : Model) (i : Nat) (c : Class) :
    (bindInitialValues sc m i c).2.Concerns c.name := by
  refine Concerns.join fun r hr => ?_
  rw [List.map_map] at hr
  obtain ⟨v, -, rfl⟩ := List.mem_map.mp hr
  exact bindInitialValue_concerns sc c.name m i v

/-! ## Cycles -/

theorem cycleError_concerns (m : Model) (ns : List Nat) (g : Graph.Deps) (members : List Nat)
    (i : Nat) :
    (cycleError m ns g members i).Concerns ((ns[i]?.map m.className).getD "") :=
  Concerns.error _ _ _ _

end WireSchema.Resolve
