import Mathlib
import WireSchema.Proofs.Graph.Least

/-!
# Cycles in a dependency graph

A node that is never placed waits for another such node, that one for a third, and so on; as there
are finitely many nodes the walk comes back to one of them.  So the order misses exactly the nodes
from which a cycle is reached.  Peeling is the same argument against the arrows: what it leaves is
needed by something that it leaves, hence reached from a cycle as well.

## Main results

* `exists_cycle` — where every one of finitely many things leads to another, a cycle is reached.
* `mem_order_iff` — the order holds the nodes that do not reach a cycle.
* `mem_cycleMembers_iff` — the cycle members are the nodes with a cycle before and one after them.
-/

namespace WireSchema.Graph

open Relation (TransGen ReflTransGen)

/-! ## Walks on finitely many nodes -/

section Walks

variable {r : Nat → Nat → Prop}

/-- The node leads back to itself. -/
def OnCycle (r : Nat → Nat → Prop) (i : Nat) : Prop := TransGen r i i

/-- The node is on a cycle or leads to one. -/
def ReachesCycle (r : Nat → Nat → Prop) (i : Nat) : Prop := ∃ c, ReflTransGen r i c ∧ OnCycle r c

theorem OnCycle.reaches {i : Nat} (h : OnCycle r i) : ReachesCycle r i := ⟨i, .refl, h⟩

/-- **Whoever always goes on comes back.**  If every node of a list leads to another node of it,
each of them reaches a cycle: of the infinitely many places of a walk two are the same. -/
theorem exists_cycle {l : List Nat} (h : ∀ i ∈ l, ∃ j ∈ l, r i j) {i : Nat} (hi : i ∈ l) :
    ReachesCycle r i := by
  choose next hmem hstep using h
  let go (x : {x // x ∈ l}) : {x // x ∈ l} := ⟨next x x.2, hmem x x.2⟩
  have hwalk : ∀ (n : Nat) (x : {x // x ∈ l}), ReflTransGen r x.1 (go^[n] x).1 := by
    intro n
    induction n with
    | zero => exact fun x => .refl
    | succ n ih => exact fun x => .head (hstep x x.2) (ih (go x))
  have hmove : ∀ (n : Nat) (x : {x // x ∈ l}), TransGen r x.1 (go^[n + 1] x).1 := fun n x =>
    .head' (hstep x x.2) (hwalk n (go x))
  have hfinite : Finite {x // x ∈ l} := l.finite_toSet
  obtain ⟨m, n, hne, hsame⟩ :=
    Finite.exists_ne_map_eq_of_infinite fun n : Nat => go^[n] ⟨i, hi⟩
  wlog hlt : m < n generalizing m n
  · exact this n m hne.symm hsame.symm (by omega)
  obtain ⟨k, rfl⟩ : ∃ k, n = (k + 1) + m := ⟨n - m - 1, by omega⟩
  refine ⟨(go^[m] ⟨i, hi⟩).1, hwalk m ⟨i, hi⟩, ?_⟩
  have hback := hmove k (go^[m] ⟨i, hi⟩)
  rw [← Function.iterate_add_apply, ← hsame] at hback
  exact hback

/-- A node that reaches a cycle leads to another one that does. -/
theorem ReachesCycle.step {i : Nat} (h : ReachesCycle r i) : ∃ j, r i j ∧ ReachesCycle r j := by
  obtain ⟨c, hpath, hcycle⟩ := h
  rcases ReflTransGen.cases_head hpath with rfl | ⟨j, hij, hrest⟩
  · obtain ⟨j, hij, hback⟩ := TransGen.head'_iff.mp hcycle
    exact ⟨j, hij, i, hback, hcycle⟩
  · exact ⟨j, hij, c, hrest, hcycle⟩

end Walks

namespace Deps

variable {g : Deps}

/-- The node `i` depends on `d`. -/
def Needs (g : Deps) (i d : Nat) : Prop := i < g.size ∧ d ∈ g.deps i

/-- Nodes depend on nodes only. -/
def Closed (g : Deps) : Prop := ∀ i < g.size, ∀ d ∈ g.deps i, d < g.size

/-! ## The nodes that are placed -/

/-- What a node of the order needs stands before it. -/
theorem needs_order {i d : Nat} (hi : i ∈ g.order) (h : g.Needs i d) :
    d ∈ g.order ∧ g.order.idxOf d < g.order.idxOf i := by
  have hlt := (order_placed g).idxOf_lt_of_dep hi h.2
  exact ⟨List.idxOf_lt_length_iff.mp (hlt.trans (List.idxOf_lt_length_iff.mpr hi)), hlt⟩

/-- Along a walk from a node of the order places fall. -/
theorem idxOf_order_lt {i d : Nat} (hi : i ∈ g.order) (h : TransGen g.Needs i d) :
    g.order.idxOf d < g.order.idxOf i := by
  have hall : d ∈ g.order ∧ g.order.idxOf d < g.order.idxOf i := by
    induction h with
    | single hstep => exact needs_order hi hstep
    | tail _ hstep ih =>
        obtain ⟨hmem, hlt⟩ := needs_order ih.1 hstep
        exact ⟨hmem, hlt.trans ih.2⟩
  exact hall.2

theorem reaches_order {i d : Nat} (hi : i ∈ g.order) (h : ReflTransGen g.Needs i d) :
    d ∈ g.order := by
  induction h with
  | refl => exact hi
  | tail _ hstep ih => exact (needs_order ih hstep).1

theorem mem_unplaced_order {i : Nat} : i ∈ g.unplaced g.order ↔ i < g.size ∧ i ∉ g.order := by
  simp [unplaced]

/-- A node that is not placed waits for another one. -/
theorem exists_unplaced_needed (hclosed : g.Closed) {i : Nat} (hi : i ∈ g.unplaced g.order) :
    ∃ d ∈ g.unplaced g.order, g.Needs i d := by
  obtain ⟨hlt, hnot⟩ := mem_unplaced_order.mp hi
  have hshort : g.order.length ≠ g.size := fun hlen => hnot (mem_order_of_length hlen hlt)
  obtain ⟨d, hdep, hmiss⟩ := exists_dep_notMem_order hshort hlt hnot
  exact ⟨d, mem_unplaced_order.mpr ⟨hclosed i hlt d hdep, hmiss⟩, hlt, hdep⟩

/-- **The order holds the nodes that do not reach a cycle.** -/
theorem mem_order_iff (hclosed : g.Closed) {i : Nat} :
    i ∈ g.order ↔ i < g.size ∧ ¬ReachesCycle g.Needs i := by
  constructor
  · intro hi
    refine ⟨(order_placed g).lt_size hi, ?_⟩
    rintro ⟨c, hpath, hcycle⟩
    exact Nat.lt_irrefl _ (idxOf_order_lt (reaches_order hi hpath) hcycle)
  · rintro ⟨hlt, hfree⟩
    by_contra hnot
    exact hfree (exists_cycle (fun j hj => exists_unplaced_needed hclosed hj)
      (mem_unplaced_order.mpr ⟨hlt, hnot⟩))

theorem ReachesCycle.lt_size {i : Nat} (h : ReachesCycle g.Needs i) : i < g.size := by
  obtain ⟨d, hstep, -⟩ := h.step
  exact hstep.1

/-- The nodes that are not placed are those that reach a cycle. -/
theorem mem_unplaced_iff (hclosed : g.Closed) {i : Nat} :
    i ∈ g.unplaced g.order ↔ ReachesCycle g.Needs i := by
  rw [mem_unplaced_order, mem_order_iff hclosed, not_and, not_not]
  exact ⟨fun h => h.2 h.1, fun h => ⟨ReachesCycle.lt_size h, fun _ => h⟩⟩

/-- **The order is complete exactly without cycles.** -/
theorem length_order_iff_acyclic (hclosed : g.Closed) :
    g.order.length = g.size ↔ ∀ i, ¬OnCycle g.Needs i := by
  constructor
  · intro hlen i hi
    have hmem := mem_order_of_length hlen (ReachesCycle.lt_size hi.reaches)
    exact ((mem_order_iff hclosed).mp hmem).2 hi.reaches
  · intro hfree
    refine length_order_of_forall_mem fun i hi => (mem_order_iff hclosed).mpr ⟨hi, ?_⟩
    rintro ⟨c, -, hcycle⟩
    exact hfree c hcycle

/-! ## The nodes that peeling leaves -/

theorem peel_sublist (fuel : Nat) (left : List Nat) : (g.peel fuel left).Sublist left := by
  induction fuel generalizing left with
  | zero => exact .refl left
  | succ fuel ih =>
      rw [peel]
      split
      · exact .refl left
      · exact (ih _).trans List.filter_sublist

theorem cycleMembers_sublist (g : Deps) : g.cycleMembers.Sublist (List.range g.size) :=
  (peel_sublist g.size _).trans List.filter_sublist

theorem mem_neededIn_iff {left : List Nat} {d : Nat} :
    d ∈ g.neededIn left ↔ d ∈ left ∧ ∃ i ∈ left, d ∈ g.deps i := by
  simp [neededIn]

/-- Nodes that need each other in turn are never dropped. -/
theorem mem_peel (fuel : Nat) (keep : Nat → Prop)
    (hneeded : ∀ d, keep d → ∃ i, keep i ∧ d ∈ g.deps i) {left : List Nat}
    (hleft : ∀ i, keep i → i ∈ left) : ∀ i, keep i → i ∈ g.peel fuel left := by
  induction fuel generalizing left with
  | zero => exact hleft
  | succ fuel ih =>
      rw [peel]
      split
      · exact hleft
      · refine ih fun d hd => ?_
        obtain ⟨i, hi, hdep⟩ := hneeded d hd
        exact mem_neededIn_iff.mpr ⟨hleft d hd, i, hleft i hi, hdep⟩

/-- With as many rounds as there are nodes left, peeling ends where every node is needed. -/
theorem needed_of_mem_peel (fuel : Nat) {left : List Nat} (hfuel : left.length ≤ fuel) :
    ∀ d ∈ g.peel fuel left, ∃ i ∈ g.peel fuel left, d ∈ g.deps i := by
  induction fuel generalizing left with
  | zero =>
      intro d hd
      rw [List.length_eq_zero_iff.mp (Nat.le_zero.mp hfuel)] at hd
      cases hd
  | succ fuel ih =>
      have hsub : (g.neededIn left).Sublist left := List.filter_sublist
      rw [peel]
      split
      · rename_i hdone
        intro d hd
        rw [← hsub.eq_of_length hdone] at hd
        exact (mem_neededIn_iff.mp hd).2
      · rename_i hdropped
        have hle := hsub.length_le
        exact ih (by omega)

/-- The node is reached from a cycle, or on one. -/
def FromCycle (g : Deps) (i : Nat) : Prop := ReachesCycle (Function.swap g.Needs) i

/-- **The cycle members are the nodes with a cycle before and a cycle after them.** -/
theorem mem_cycleMembers_iff (hclosed : g.Closed) {i : Nat} :
    i ∈ g.cycleMembers ↔ g.FromCycle i ∧ ReachesCycle g.Needs i := by
  have hfuel : (g.unplaced g.order).length ≤ g.size := by
    simpa [unplaced] using List.length_filter_le (fun i => !g.order.contains i) (List.range g.size)
  have hsub : g.cycleMembers ⊆ g.unplaced g.order := (peel_sublist g.size _).subset
  constructor
  · intro hi
    refine ⟨exists_cycle (l := g.cycleMembers) (fun d hd => ?_) hi,
      (mem_unplaced_iff hclosed).mp (hsub hi)⟩
    obtain ⟨j, hj, hdep⟩ := needed_of_mem_peel g.size hfuel d hd
    exact ⟨j, hj, (mem_unplaced_order.mp (hsub hj)).1, hdep⟩
  · intro hi
    -- A node between cycles is needed by another one: the one before it on the way from the cycle.
    refine mem_peel g.size (fun i => g.FromCycle i ∧ ReachesCycle g.Needs i) ?_ ?_ i hi
    · rintro d ⟨hfrom, hto⟩
      obtain ⟨j, hstep, hj⟩ := hfrom.step
      obtain ⟨c, hpath, hcycle⟩ := hto
      exact ⟨j, ⟨hj, c, .head hstep hpath, hcycle⟩, hstep.2⟩
    · exact fun j hj => (mem_unplaced_iff hclosed).mpr hj.2

end Deps

end WireSchema.Graph
