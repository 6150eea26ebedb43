import Mathlib
import WireSchema.Graph.Path
import WireSchema.Proofs.Graph.Order

/-!
# Graphs whose nodes were renumbered

The order of a graph depends on the numbers of its nodes: of several ready nodes the smallest comes
first.  What does not depend on them is which nodes are placed at all, hence whether there is a
cycle, which nodes are its members, and the path that a breadth-first walk finds from each of them,
as that walk follows the dependencies in the order in which they are listed.

## Main results

* `Relocated.length_order_iff` — renumbering does not change whether the order is complete.
* `Relocated.cycleMembers_perm` — the cycle members are the same nodes, in some order.
* `Relocated.cyclePath_eq` — the cycle path from a node is the same path.
-/

namespace WireSchema

/-- New numbers for the numbers below `size`. -/
structure Relocation (size : Nat) where
  place : Nat → Nat
  injective : Function.Injective place
  lt_iff : ∀ i, place i < size ↔ i < size

namespace Relocation

variable {size : Nat} (σ : Relocation size)

theorem place_inj {i j : Nat} : σ.place i = σ.place j ↔ i = j := σ.injective.eq_iff

/-- Every number below the size is a new number of another. -/
theorem exists_place_eq {j : Nat} (hj : j < size) : ∃ i < size, σ.place i = j := by
  let onFin (i : Fin size) : Fin size := ⟨σ.place i, (σ.lt_iff i).mpr i.isLt⟩
  have hinj : Function.Injective onFin := by
    intro a b hab
    exact Fin.ext (σ.injective (Fin.mk.inj hab))
  obtain ⟨i, hi⟩ := Finite.injective_iff_surjective.mp hinj ⟨j, hj⟩
  exact ⟨i, i.isLt, congrArg Fin.val hi⟩

theorem mem_map_place {l : List Nat} {i : Nat} : σ.place i ∈ l.map σ.place ↔ i ∈ l :=
  List.mem_map_of_injective σ.injective

theorem contains_map_place (l : List Nat) (i : Nat) :
    (l.map σ.place).contains (σ.place i) = l.contains i := by
  rw [Bool.eq_iff_iff, List.contains_iff_mem, List.contains_iff_mem, σ.mem_map_place]

/-- Two lists without repetitions that hold each number in its old and its new place. -/
theorem perm_map_place {l l' : List Nat} (hl : l.Nodup) (hl' : l'.Nodup)
    (hlt : ∀ j ∈ l', j < size) (h : ∀ i, σ.place i ∈ l' ↔ i ∈ l) : l'.Perm (l.map σ.place) := by
  refine (List.perm_ext_iff_of_nodup hl' (hl.map σ.injective)).mpr fun j => ?_
  constructor
  · intro hj
    obtain ⟨i, -, rfl⟩ := σ.exists_place_eq (hlt j hj)
    exact σ.mem_map_place.mpr ((h i).mp hj)
  · intro hj
    obtain ⟨i, hi, rfl⟩ := List.mem_map.mp hj
    exact (h i).mpr hi

end Relocation

namespace Graph

/-- A graph with its nodes renumbered. -/
structure Relocated {size : Nat} (σ : Relocation size) (g g' : Deps) : Prop where
  size_eq : g.size = size
  size_eq' : g'.size = size
  deps_eq : ∀ i, g'.deps (σ.place i) = (g.deps i).map σ.place

/-- A walk with its nodes renumbered. -/
def Walk.relocate {size : Nat} (σ : Relocation size) (w : Walk) : Walk where
  queue := w.queue.map σ.place
  visited := w.visited.map σ.place
  from_ := w.from_.map fun p => (σ.place p.1, σ.place p.2)
  last := σ.place w.last

namespace Relocated

variable {size : Nat} {σ : Relocation size} {g g' : Deps}

/-! ## The order -/

theorem mem_deps (h : Relocated σ g g') {i d : Nat} :
    σ.place d ∈ g'.deps (σ.place i) ↔ d ∈ g.deps i := by
  rw [h.deps_eq, σ.mem_map_place]

/-- A node whose dependencies are all in the order is in the order. -/
theorem mem_order_of_deps {g : Deps} {i : Nat} (hi : i < g.size)
    (hdeps : ∀ d ∈ g.deps i, d ∈ g.order) : i ∈ g.order := by
  by_cases hlen : g.order.length = g.size
  · exact Deps.mem_order_of_length hlen hi
  · by_contra hnot
    obtain ⟨d, hd, hmiss⟩ := Deps.exists_dep_notMem_order hlen hi hnot
    exact hmiss (hdeps d hd)

theorem mem_order_of_placed (h : Relocated σ g g') {placed : List Nat} (hplaced : g.Placed placed) :
    ∀ i ∈ placed, σ.place i ∈ g'.order := by
  induction hplaced with
  | nil => exact fun i hi => by cases hi
  | @snoc placed j _ inRange _ ready ih =>
      intro i hi
      rcases List.mem_append.mp hi with hi | hi
      · exact ih i hi
      · obtain rfl := List.mem_singleton.mp hi
        refine mem_order_of_deps ?_ fun d hd => ?_
        · rw [h.size_eq', σ.lt_iff, ← h.size_eq]
          exact inRange
        · rw [h.deps_eq] at hd
          obtain ⟨e, he, rfl⟩ := List.mem_map.mp hd
          exact ih e (ready e he)

theorem mem_order_of_placed' (h : Relocated σ g g') {placed : List Nat}
    (hplaced : g'.Placed placed) : ∀ i, σ.place i ∈ placed → i ∈ g.order := by
  induction hplaced with
  | nil => exact fun i hi => by cases hi
  | @snoc placed j _ inRange _ ready ih =>
      intro i hi
      rcases List.mem_append.mp hi with hi | hi
      · exact ih i hi
      · obtain rfl := List.mem_singleton.mp hi
        have hlt : σ.place i < size := h.size_eq'.subst inRange
        refine mem_order_of_deps ?_ fun d hd => ih d (ready _ (h.mem_deps.mpr hd))
        rw [h.size_eq]
        exact (σ.lt_iff i).mp hlt

theorem mem_order_iff (h : Relocated σ g g') {i : Nat} : σ.place i ∈ g'.order ↔ i ∈ g.order :=
  ⟨h.mem_order_of_placed' (Deps.order_placed g') i, h.mem_order_of_placed (Deps.order_placed g) i⟩

/-- **Renumbering does not change whether the order is complete.** -/
theorem length_order_iff (h : Relocated σ g g') :
    g'.order.length = g'.size ↔ g.order.length = g.size := by
  constructor
  · intro hlen
    refine Deps.length_order_of_forall_mem fun i hi => h.mem_order_iff.mp ?_
    refine Deps.mem_order_of_length hlen ?_
    rwa [h.size_eq', σ.lt_iff, ← h.size_eq]
  · intro hlen
    refine Deps.length_order_of_forall_mem fun j hj => ?_
    obtain ⟨i, hi, rfl⟩ := σ.exists_place_eq (h.size_eq' ▸ hj)
    exact h.mem_order_iff.mpr (Deps.mem_order_of_length hlen (h.size_eq.symm ▸ hi))

/-! ## Cycle members -/

theorem mem_unplaced {g : Deps} {placed : List Nat} {i : Nat} :
    i ∈ g.unplaced placed ↔ i < g.size ∧ i ∉ placed := by
  simp [Deps.unplaced]

theorem unplaced_perm (h : Relocated σ g g') :
    (g'.unplaced g'.order).Perm ((g.unplaced g.order).map σ.place) := by
  refine σ.perm_map_place (List.nodup_range.filter _) (List.nodup_range.filter _) ?_ ?_
  · intro j hj
    rw [← h.size_eq']
    exact (mem_unplaced.mp hj).1
  · intro i
    rw [mem_unplaced, mem_unplaced, h.mem_order_iff, h.size_eq, h.size_eq', σ.lt_iff]

theorem neededIn_perm (h : Relocated σ g g') {left left' : List Nat}
    (hperm : left'.Perm (left.map σ.place)) :
    (g'.neededIn left').Perm ((g.neededIn left).map σ.place) := by
  have hneeded : ∀ d, (left'.any fun i => (g'.deps i).contains (σ.place d)) =
      left.any fun i => (g.deps i).contains d := by
    intro d
    rw [hperm.any_eq, List.any_map]
    congr 1
    funext i
    rw [Function.comp_apply, h.deps_eq, σ.contains_map_place]
  have hfilter : (g.neededIn left).map σ.place =
      (left.map σ.place).filter fun d => left'.any fun i => (g'.deps i).contains d := by
    rw [List.filter_map, Deps.neededIn]
    congr 1
    exact List.filter_congr fun d _ => (hneeded d).symm
  rw [hfilter]
  exact hperm.filter _

theorem peel_perm (h : Relocated σ g g') (fuel : Nat) {left left' : List Nat}
    (hperm : left'.Perm (left.map σ.place)) :
    (g'.peel fuel left').Perm ((g.peel fuel left).map σ.place) := by
  induction fuel generalizing left left' with
  | zero => exact hperm
  | succ fuel ih =>
      have hkept := h.neededIn_perm hperm
      have hlen : left'.length = left.length := by simpa using hperm.length_eq
      have hklen : (g'.neededIn left').length = (g.neededIn left).length := by
        simpa using hkept.length_eq
      rw [Deps.peel, Deps.peel]
      by_cases hdone : (g.neededIn left).length = left.length
      · rw [if_pos hdone, if_pos (by rw [hklen, hlen, hdone])]
        exact hperm
      · rw [if_neg hdone, if_neg (by rwa [hklen, hlen])]
        exact ih hkept

/-- **The cycle members are the same nodes.** -/
theorem cycleMembers_perm (h : Relocated σ g g') :
    g'.cycleMembers.Perm (g.cycleMembers.map σ.place) := by
  rw [Deps.cycleMembers, Deps.cycleMembers, h.size_eq, h.size_eq']
  exact h.peel_perm size h.unplaced_perm

/-! ## Cycle paths -/

section Walk

theorem lookup_relocate (l : List (Nat × Nat)) (n : Nat) :
    (l.map fun p => (σ.place p.1, σ.place p.2)).lookup (σ.place n) =
      (l.lookup n).map σ.place := by
  induction l with
  | nil => rfl
  | cons p l ih =>
      obtain ⟨a, b⟩ := p
      rw [List.map_cons, List.lookup_cons, List.lookup_cons, ih]
      by_cases hna : n = a
      · subst hna
        simp
      · have hne : σ.place n ≠ σ.place a := fun heq => hna (σ.injective heq)
        rw [beq_eq_false_iff_ne.mpr hna, beq_eq_false_iff_ne.mpr hne]

theorem backTo_relocate (l : List (Nat × Nat)) (start : Nat) (fuel n : Nat) :
    backTo (l.map fun p => (σ.place p.1, σ.place p.2)) (σ.place start) fuel (σ.place n) =
      (backTo l start fuel n).map σ.place := by
  induction fuel generalizing n with
  | zero => rfl
  | succ fuel ih =>
      rw [backTo, backTo]
      by_cases hstart : n = start
      · rw [if_pos hstart, if_pos (σ.place_inj.mpr hstart)]
        rfl
      · rw [if_neg hstart, if_neg (σ.place_inj.not.mpr hstart), lookup_relocate]
        cases l.lookup n with
        | none => rfl
        | some p =>
            simp only [Option.map_some]
            rw [ih, List.map_append]
            rfl

theorem pathTo_relocate (w : Walk) (start n : Nat) :
    (w.relocate σ).pathTo (σ.place start) (σ.place n) = (w.pathTo start n).map σ.place := by
  rw [Walk.pathTo, Walk.pathTo, List.map_cons]
  simp only [Walk.relocate, List.length_map]
  rw [backTo_relocate]

theorem see_relocate (w : Walk) (cur d : Nat) :
    (w.relocate σ).see (σ.place cur) (σ.place d) = (w.see cur d).relocate σ := by
  simp only [Walk.see, Walk.relocate, σ.contains_map_place]
  split
  · rfl
  · simp

theorem foldl_see_relocate (l : List Nat) (w : Walk) (cur : Nat) :
    (l.map σ.place).foldl (fun w d => w.see (σ.place cur) d) (w.relocate σ) =
      (l.foldl (fun w d => w.see cur d) w).relocate σ := by
  induction l generalizing w with
  | nil => rfl
  | cons d l ih => rw [List.map_cons, List.foldl_cons, List.foldl_cons, see_relocate, ih]

/-- A walk over renumbered nodes goes the same way. -/
theorem walkFrom_relocate (h : Relocated σ g g') {members members' : List Nat}
    (hmembers : ∀ i, σ.place i ∈ members' ↔ i ∈ members) (start : Nat) (fuel : Nat) (w : Walk) :
    walkFrom g' members' (σ.place start) fuel (w.relocate σ) =
      (walkFrom g members start fuel w).map σ.place := by
  have hnext : ∀ cur, (g'.deps (σ.place cur)).filter members'.contains =
      ((g.deps cur).filter members.contains).map σ.place := by
    intro cur
    rw [h.deps_eq, List.filter_map]
    congr 1
    refine List.filter_congr fun d _ => ?_
    rw [Function.comp_apply, Bool.eq_iff_iff, List.contains_iff_mem, List.contains_iff_mem,
      hmembers]
  induction fuel generalizing w with
  | zero => exact pathTo_relocate w start w.last
  | succ fuel ih =>
      obtain ⟨queue, visited, from_, last⟩ := w
      cases queue with
      | nil => exact pathTo_relocate ⟨[], visited, from_, last⟩ start last
      | cons cur queue =>
          have hpath := pathTo_relocate (σ := σ) ⟨queue, visited, from_, cur⟩ start cur
          have hfold := foldl_see_relocate (σ := σ) ((g.deps cur).filter members.contains)
            ⟨queue, visited, from_, cur⟩ cur
          simp only [Walk.relocate] at hpath hfold
          simp only [walkFrom, Walk.relocate, List.map_cons, hnext, σ.contains_map_place]
          split
          · rw [hpath, List.map_append]
            rfl
          · rw [hfold]
            exact ih _

end Walk

/-- **The cycle path from a node is the same path.** -/
theorem cyclePath_eq (h : Relocated σ g g') {members members' : List Nat}
    (hmembers : ∀ i, σ.place i ∈ members' ↔ i ∈ members) (start : Nat) :
    cyclePath g' members' (σ.place start) = (cyclePath g members start).map σ.place := by
  rw [cyclePath, cyclePath, h.size_eq, h.size_eq']
  exact h.walkFrom_relocate hmembers start (size + 1) ⟨[start], [start], [], start⟩

end Relocated

end Graph

end WireSchema
