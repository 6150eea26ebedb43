import Mathlib
import WireSchema.Graph.Deps

/-!
# The order places dependencies first

`Deps.order` places one ready node at a time.  `Placed` says how such a list can come about: every
node is new, in range, and follows all of its dependencies.  From a list that holds every node one
reads off a rank that falls along dependencies, which is how the absence of cycles is used later.

## Main results

* `order_placed` — the order is a `Placed` list.
* `mem_order_of_length` — an order as long as the graph is large holds every node.
* `idxOf_lt_of_dep` — in a `Placed` list a dependency has the smaller index.
* `cycleMembers_ne_nil` — if the order misses a node, some node is reported as a cycle member.
-/

namespace WireSchema.Graph.Deps

/-- A list of nodes each of which was ready when it was added at the end. -/
inductive Placed (g : Deps) : List Nat → Prop where
  | nil : Placed g []
  | snoc {placed : List Nat} {i : Nat} (before : Placed g placed) (inRange : i < g.size)
      (fresh : i ∉ placed) (ready : ∀ d ∈ g.deps i, d ∈ placed) : Placed g (placed ++ [i])

variable {g : Deps}

/-- One round keeps a list placed: the node it adds was found ready. -/
theorem Placed.extend (fuel : Nat) {placed : List Nat} (h : g.Placed placed) :
    g.Placed (g.extend fuel placed) := by
  induction fuel generalizing placed with
  | zero => exact h
  | succ fuel ih =>
      rw [Deps.extend]
      cases hnext : g.nextReady? placed with
      | none => exact h
      | some i =>
          have hmem : i ∈ List.range g.size := List.mem_of_find?_eq_some hnext
          have hready : g.isReady placed i = true := List.find?_some hnext
          simp only [isReady, Bool.and_eq_true, Bool.not_eq_true', List.all_eq_true,
            List.contains_eq_mem, decide_eq_true_eq, decide_eq_false_iff_not] at hready
          exact ih (.snoc h (List.mem_range.mp hmem) hready.1 hready.2)

theorem order_placed (g : Deps) : g.Placed g.order := Placed.extend g.size .nil

theorem Placed.nodup {placed : List Nat} (h : g.Placed placed) : placed.Nodup := by
  induction h with
  | nil => exact List.nodup_nil
  | snoc _ _ fresh _ ih =>
      refine List.nodup_append.mpr ⟨ih, List.nodup_singleton _, ?_⟩
      intro a ha b hb
      rw [List.mem_singleton.mp hb]
      rintro rfl
      exact fresh ha

theorem Placed.lt_size {placed : List Nat} (h : g.Placed placed) {i : Nat} (hi : i ∈ placed) :
    i < g.size := by
  induction h with
  | nil => simp at hi
  | snoc _ inRange _ _ ih =>
      rcases List.mem_append.mp hi with hold | hnew
      · exact ih hold
      · rw [List.mem_singleton.mp hnew]
        exact inRange

/-- A placed list of full length holds every node. -/
theorem Placed.mem_of_length {placed : List Nat} (h : g.Placed placed)
    (hlen : placed.length = g.size) {i : Nat} (hi : i < g.size) : i ∈ placed := by
  have hsub : placed ⊆ List.range g.size := fun j hj => List.mem_range.mpr (h.lt_size hj)
  have hperm : placed.Perm (List.range g.size) :=
    (h.nodup.subperm hsub).perm_of_length_le (by simp [hlen])
  exact hperm.mem_iff.mpr (List.mem_range.mpr hi)

theorem mem_order_of_length (hlen : g.order.length = g.size) {i : Nat} (hi : i < g.size) :
    i ∈ g.order :=
  (order_placed g).mem_of_length hlen hi

theorem length_order_le (g : Deps) : g.order.length ≤ g.size := by
  have hsub : g.order ⊆ List.range g.size :=
    fun j hj => List.mem_range.mpr ((order_placed g).lt_size hj)
  simpa using ((order_placed g).nodup.subperm hsub).length_le

/-- An order that holds every node is of full length. -/
theorem length_order_of_forall_mem (hall : ∀ i < g.size, i ∈ g.order) :
    g.order.length = g.size := by
  have hsub : List.range g.size ⊆ g.order := fun i hi => hall i (List.mem_range.mp hi)
  have hge := (List.nodup_range.subperm hsub).length_le
  rw [List.length_range] at hge
  exact Nat.le_antisymm (length_order_le g) hge

/-- In a placed list every dependency of a node stands before it. -/
theorem Placed.idxOf_lt_of_dep {placed : List Nat} (h : g.Placed placed) {i d : Nat}
    (hi : i ∈ placed) (hd : d ∈ g.deps i) : placed.idxOf d < placed.idxOf i := by
  induction h with
  | nil => simp at hi
  | @snoc placed j _ _ fresh ready ih =>
      by_cases hold : i ∈ placed
      · have hlt := ih hold
        have hdm : d ∈ placed := by
          by_contra hnot
          rw [List.idxOf_eq_length hnot] at hlt
          exact absurd (List.idxOf_le_length) (Nat.not_le.mpr hlt)
        rwa [List.idxOf_append_of_mem hdm, List.idxOf_append_of_mem hold]
      · have hij : i = j := by
          rcases List.mem_append.mp hi with h1 | h1
          · exact absurd h1 hold
          · exact List.mem_singleton.mp h1
        subst hij
        have hdm : d ∈ placed := ready d hd
        rw [List.idxOf_append_of_mem hdm, List.idxOf_append_of_notMem fresh]
        exact Nat.lt_of_lt_of_le (List.idxOf_lt_length_iff.mpr hdm) (Nat.le_add_right _ _)

/-! ## Incomplete orders

A node that was never placed waits for another one.  Peeling keeps this: a node that is needed by
something left stays, so among the nodes left every one still has a dependency that is left.
-/

/-- The rounds stop early only when nothing is ready. -/
theorem nextReady?_extend (fuel : Nat) (placed : List Nat) :
    placed.length + fuel ≤ (g.extend fuel placed).length ∨
      g.nextReady? (g.extend fuel placed) = none := by
  induction fuel generalizing placed with
  | zero => exact Or.inl (Nat.le_refl _)
  | succ fuel ih =>
      rw [Deps.extend]
      cases hnext : g.nextReady? placed with
      | none => exact Or.inr hnext
      | some i =>
          rcases ih (placed ++ [i]) with hlen | hnone
          · refine Or.inl ?_
            rw [List.length_append, List.length_singleton] at hlen
            show placed.length + (fuel + 1) ≤ (g.extend fuel (placed ++ [i])).length
            omega
          · exact Or.inr hnone

/-- A node that an incomplete order misses has a dependency that it misses too. -/
theorem exists_dep_notMem_order (hlen : g.order.length ≠ g.size) {i : Nat} (hi : i < g.size)
    (hnot : i ∉ g.order) : ∃ d ∈ g.deps i, d ∉ g.order := by
  have hle : g.order.length ≤ g.size := length_order_le g
  have hnone : g.nextReady? g.order = none := by
    rcases nextReady?_extend (g := g) g.size [] with hfull | hnone
    · have hge : g.size ≤ g.order.length := by simpa [order] using hfull
      exact absurd (Nat.le_antisymm hle hge) hlen
    · exact hnone
  have hbusy := List.find?_eq_none.mp hnone i (List.mem_range.mpr hi)
  by_contra hall
  push Not at hall
  apply hbusy
  simp only [isReady, Bool.and_eq_true, Bool.not_eq_true', List.all_eq_true,
    List.contains_eq_mem, decide_eq_true_eq, decide_eq_false_iff_not]
  exact ⟨hnot, hall⟩

/-- Every node of the list depends on a node of the list. -/
def SelfNeeding (g : Deps) (left : List Nat) : Prop := ∀ i ∈ left, ∃ d ∈ g.deps i, d ∈ left

theorem mem_neededIn {left : List Nat} {i d : Nat} (hi : i ∈ left) (hd : d ∈ left)
    (hdep : d ∈ g.deps i) : d ∈ g.neededIn left := by
  refine List.mem_filter.mpr ⟨hd, List.any_eq_true.mpr ⟨i, hi, ?_⟩⟩
  simpa using hdep

theorem SelfNeeding.neededIn {left : List Nat} (h : g.SelfNeeding left) :
    g.SelfNeeding (g.neededIn left) := by
  intro i hi
  have hleft : i ∈ left := (List.mem_filter.mp hi).1
  obtain ⟨d, hdep, hd⟩ := h i hleft
  exact ⟨d, hdep, mem_neededIn hleft hd hdep⟩

theorem peel_ne_nil (fuel : Nat) {left : List Nat} (h : g.SelfNeeding left) (hne : left ≠ []) :
    g.peel fuel left ≠ [] := by
  induction fuel generalizing left with
  | zero => exact hne
  | succ fuel ih =>
      rw [peel]
      split
      · exact hne
      · obtain ⟨i, hi⟩ := List.exists_mem_of_ne_nil left hne
        obtain ⟨d, hdep, hd⟩ := h i hi
        exact ih h.neededIn (List.ne_nil_of_mem (mem_neededIn hi hd hdep))

/-- If the order misses a node, the graph has cycle members. -/
theorem cycleMembers_ne_nil (hrange : ∀ i, ∀ d ∈ g.deps i, d < g.size)
    (hlen : g.order.length ≠ g.size) : g.cycleMembers ≠ [] := by
  have hmem : ∀ i, i ∈ g.unplaced g.order ↔ i < g.size ∧ i ∉ g.order := by
    intro i
    simp [unplaced]
  refine peel_ne_nil g.size ?_ ?_
  · intro i hi
    obtain ⟨hlt, hnot⟩ := (hmem i).mp hi
    obtain ⟨d, hdep, hd⟩ := exists_dep_notMem_order hlen hlt hnot
    exact ⟨d, hdep, (hmem d).mpr ⟨hrange i d hdep, hd⟩⟩
  · intro hnil
    apply hlen
    apply length_order_of_forall_mem
    intro i hi
    by_contra hnot
    have hleft := (hmem i).mpr ⟨hi, hnot⟩
    rw [hnil] at hleft
    exact List.not_mem_nil hleft

end WireSchema.Graph.Deps
