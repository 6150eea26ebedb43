import Mathlib
import WireSchema.Graph.Queue
import WireSchema.Proofs.Graph.Least

/-!
# The queue keeps the order

The counts of the queue are right whenever no release is pending: a node counts the entries of its
row that are not placed.  So the nodes that count nothing are those that are ready, and as they are
kept sorted the first of them is the node that `Deps.order` finds by looking through all.

Between placing a node and releasing those that depend on it the counts are too large.  `Tracks`
has the releases that are still owed, and each release pays one of them.

## Main results

* `Tracks.release` — a release pays one of the releases that are owed.
* `Tracks.nextReady?` — the first of the queue is the smallest ready node.
* `queued_eq_order` — the queue places the nodes in order.
-/

namespace WireSchema.Graph

/-! ## Sorted lists -/

namespace Queue

theorem mem_insert {i j : Nat} {l : List Nat} : i ∈ insert j l ↔ i = j ∨ i ∈ l := by
  induction l with
  | nil => simp [insert]
  | cons k rest ih =>
      rw [insert]
      split
      · exact List.mem_cons
      · rw [List.mem_cons, ih, List.mem_cons]
        exact or_left_comm

theorem insert_sorted {j : Nat} {l : List Nat} (h : l.Pairwise (· < ·)) (hj : j ∉ l) :
    (insert j l).Pairwise (· < ·) := by
  induction l with
  | nil => exact List.pairwise_singleton _ _
  | cons k rest ih =>
      obtain ⟨hhead, htail⟩ := List.pairwise_cons.mp h
      obtain ⟨hne, hrest⟩ := not_or.mp (List.mem_cons.not.mp hj)
      rw [insert]
      split
      · refine List.pairwise_cons.mpr ⟨fun i hi => ?_, h⟩
        rcases List.mem_cons.mp hi with rfl | hi
        · omega
        · have := hhead i hi
          omega
      · refine List.pairwise_cons.mpr ⟨fun i hi => ?_, ih htail hrest⟩
        rcases mem_insert.mp hi with rfl | hi
        · omega
        · exact hhead i hi

end Queue

namespace Deps

variable {g : Deps} {q : Queue}

/-! ## What the queue counts -/

/-- How many entries of a node are not placed. -/
def missing (g : Deps) (placed : List Nat) (j : Nat) : Nat :=
  (g.deps j).countP fun d => !placed.contains d

theorem missing_eq_zero {placed : List Nat} {j : Nat} :
    g.missing placed j = 0 ↔ ∀ d ∈ g.deps j, d ∈ placed := by
  simp [missing, List.countP_eq_zero]

/-- Placing a node leaves every other node with as many entries less as it lists that node. -/
theorem missing_snoc {placed : List Nat} {i : Nat} (hi : i ∉ placed) (j : Nat) :
    g.missing (placed ++ [i]) j + (g.deps j).count i = g.missing placed j := by
  unfold missing
  induction g.deps j with
  | nil => rfl
  | cons d rest ih =>
      rw [List.countP_cons, List.countP_cons, List.count_cons]
      by_cases hd : d = i
      · subst hd
        simp only [List.contains_eq_mem, List.mem_append, List.mem_singleton, or_true, hi,
          decide_true, decide_false, Bool.not_true, Bool.not_false, beq_self_eq_true, if_true,
          Bool.false_eq_true, if_false] at ih ⊢
        omega
      · simp only [List.contains_eq_mem, List.mem_append, List.mem_singleton, hd, or_false,
          beq_eq_false_iff_ne.mpr hd, Bool.false_eq_true, if_false] at ih ⊢
        omega

/-- Every node is released as often as it lists the node that was placed. -/
theorem count_dependents {i j : Nat} (hj : j < g.size) :
    (g.dependents i).count j = (g.deps j).count i := by
  have hall : ∀ n, ((List.range n).flatMap fun k => List.replicate ((g.deps k).count i) k).count j =
      if j < n then (g.deps j).count i else 0 := by
    intro n
    induction n with
    | zero => rfl
    | succ n ih =>
        rw [List.range_succ, List.flatMap_append, List.count_append, ih, List.flatMap_singleton,
          List.count_replicate]
        by_cases hjn : j = n
        · subst hjn
          simp
        · have hiff : j < n + 1 ↔ j < n := by omega
          simp [hiff, Ne.symm hjn]
  rw [dependents, hall, if_pos hj]

theorem mem_dependents {i j : Nat} (h : j ∈ g.dependents i) : j < g.size ∧ i ∈ g.deps j := by
  obtain ⟨k, hk, hmem⟩ := List.mem_flatMap.mp h
  obtain ⟨hcount, rfl⟩ := List.mem_replicate.mp hmem
  exact ⟨List.mem_range.mp hk, List.count_pos_iff.mp (Nat.pos_of_ne_zero hcount)⟩

/-! ## The state of the queue -/

/-- A queue that still has to release the nodes `owed`: its counts are right once it has, and those
that count nothing any more are ready. -/
structure Tracks (g : Deps) (owed : List Nat) (q : Queue) : Prop where
  waiting : ∀ j < g.size, q.waiting[j]? = some (g.missing q.placed j + owed.count j)
  sorted : q.ready.Pairwise (· < ·)
  ready : ∀ j, j ∈ q.ready ↔ j < g.size ∧ j ∉ q.placed ∧ q.waiting[j]? = some 0
  owed : ∀ j ∈ owed, j < g.size ∧ j ∉ q.placed

theorem Tracks.release {j : Nat} {owed : List Nat} (h : g.Tracks (j :: owed) q) :
    g.Tracks owed (q.release j) ∧ (q.release j).placed = q.placed := by
  obtain ⟨hlt, hfresh⟩ := h.owed j List.mem_cons_self
  have hcount := h.waiting j hlt
  have hnotReady : j ∉ q.ready := by
    intro hj
    rw [((h.ready j).mp hj).2.2, List.count_cons_self] at hcount
    simp at hcount
  have hwaiting : ∀ k < g.size, (q.waiting.modify j (· - 1))[k]? =
      some (g.missing q.placed k + owed.count k) := by
    intro k hk
    rw [Array.getElem?_modify, h.waiting k hk]
    by_cases hjk : j = k
    · subst hjk
      simp [List.count_cons_self]
    · simp [hjk, List.count_cons_of_ne hjk]
  have hother : ∀ k, k ≠ j → (q.waiting.modify j (· - 1))[k]? = q.waiting[k]? := by
    intro k hk
    rw [Array.getElem?_modify, if_neg (Ne.symm hk)]
  have howed : ∀ k ∈ owed, k < g.size ∧ k ∉ q.placed := fun k hk =>
    h.owed k (List.mem_cons_of_mem _ hk)
  unfold Queue.release
  simp only
  split
  · rename_i hzero
    refine ⟨⟨hwaiting, Queue.insert_sorted h.sorted hnotReady, fun k => ?_, howed⟩, rfl⟩
    rw [Queue.mem_insert]
    by_cases hk : k = j
    · subst hk
      simp [hlt, hfresh, hzero]
    · simp only [hk, false_or, hother k hk]
      exact h.ready k
  · rename_i hleft
    refine ⟨⟨hwaiting, h.sorted, fun k => ?_, howed⟩, rfl⟩
    by_cases hk : k = j
    · subst hk
      simp only [hnotReady, false_iff]
      exact fun hready => hleft hready.2.2
    · simp only [hother k hk]
      exact h.ready k

theorem Tracks.release_all {owed : List Nat} (h : g.Tracks owed q) :
    g.Tracks [] (owed.foldl .release q) ∧ (owed.foldl .release q).placed = q.placed := by
  induction owed generalizing q with
  | nil => exact ⟨h, rfl⟩
  | cons j owed ih =>
      obtain ⟨hnext, hsame⟩ := h.release
      obtain ⟨hrest, hplaced⟩ := ih hnext
      exact ⟨hrest, hplaced.trans hsame⟩

/-- **Whoever counts nothing is ready**, so the first of the queue is the smallest ready node. -/
theorem Tracks.nextReady? (h : g.Tracks [] q) : g.nextReady? q.placed = q.ready.head? := by
  have hready : ∀ j, j < g.size → (g.isReady q.placed j = true ↔ j ∈ q.ready) := by
    intro j hj
    rw [h.ready, h.waiting j hj]
    simp only [isReady, Bool.and_eq_true, Bool.not_eq_true', List.all_eq_true,
      List.contains_eq_mem, decide_eq_true_eq, decide_eq_false_iff_not, List.count_nil,
      Nat.add_zero,
      Option.some.injEq, missing_eq_zero, hj, true_and]
  cases hq : q.ready with
  | nil =>
      refine List.find?_eq_none.mpr fun j hj hbusy => ?_
      have hmem := (hready j (List.mem_range.mp hj)).mp hbusy
      rw [hq] at hmem
      cases hmem
  | cons i rest =>
      have hi : i ∈ q.ready := hq ▸ List.mem_cons_self
      have hlt := ((h.ready i).mp hi).1
      obtain ⟨j, hnext, hle⟩ := exists_nextReady? hlt ((hready i hlt).mpr hi)
      have hj := List.mem_range.mp (List.mem_of_find?_eq_some hnext)
      have hmem := (hready j hj).mp (List.find?_some hnext)
      rw [hnext, List.head?_cons]
      have hsorted := h.sorted
      rw [hq] at hmem hsorted
      rcases List.mem_cons.mp hmem with rfl | hmem
      · rfl
      · have := (List.pairwise_cons.mp hsorted).1 j hmem
        omega

/-- The first node of the queue has its turn. -/
theorem Tracks.turn (h : g.Tracks [] q) (hplaced : g.Placed q.placed) {i : Nat} {ready : List Nat}
    (hq : q.ready = i :: ready) : g.Placed (q.placed ++ [i]) ∧
      g.Tracks (g.dependents i) { q with ready, placed := q.placed ++ [i] } := by
  have hi : i ∈ q.ready := hq ▸ List.mem_cons_self
  obtain ⟨hlt, hfresh, hzero⟩ := (h.ready i).mp hi
  have hdeps : ∀ d ∈ g.deps i, d ∈ q.placed := by
    rw [h.waiting i hlt, List.count_nil, Nat.add_zero] at hzero
    exact missing_eq_zero.mp (Option.some.inj hzero)
  have hsorted := h.sorted
  rw [hq] at hsorted
  obtain ⟨hleast, hrest⟩ := List.pairwise_cons.mp hsorted
  have hsnoc := Placed.snoc hplaced hlt hfresh hdeps
  refine ⟨hsnoc, ?_, hrest, fun j => ?_, fun j hj => ?_⟩
  · intro j hj
    rw [h.waiting j hj, count_dependents hj, missing_snoc hfresh, List.count_nil, Nat.add_zero]
  · have hj := h.ready j
    rw [hq, List.mem_cons] at hj
    simp only [List.mem_append, List.mem_singleton, not_or]
    constructor
    · intro hmem
      obtain ⟨hlt, hnot, hzero⟩ := hj.mp (.inr hmem)
      have := hleast j hmem
      exact ⟨hlt, ⟨hnot, by omega⟩, hzero⟩
    · rintro ⟨hlt, ⟨hnot, hne⟩, hzero⟩
      exact (hj.mpr ⟨hlt, hnot, hzero⟩).resolve_left hne
  · -- A node that was placed has all its entries before it, and `i` is new.
    obtain ⟨hjlt, hdep⟩ := mem_dependents hj
    refine ⟨hjlt, fun hmem => ?_⟩
    have hbefore := hsnoc.idxOf_lt_of_dep hmem hdep
    rw [List.idxOf_append_of_notMem hfresh, List.idxOf_cons_self] at hbefore
    have hall := List.idxOf_lt_length_iff.mpr hmem
    simp only [List.length_append, List.length_singleton] at hall
    omega

theorem drain_eq_extend (fuel : Nat) (h : g.Tracks [] q) (hplaced : g.Placed q.placed) :
    (g.drain fuel q).placed = g.extend fuel q.placed := by
  induction fuel generalizing q with
  | zero => rfl
  | succ fuel ih =>
      rw [drain, extend, h.nextReady?]
      cases hq : q.ready with
      | nil => rfl
      | cons i ready =>
          obtain ⟨hsnoc, hturn⟩ := h.turn hplaced hq
          obtain ⟨hnext, hsame⟩ := hturn.release_all
          simp only [List.head?_cons]
          rw [ih hnext (hsame ▸ hsnoc), hsame]

theorem queue_tracks (g : Deps) : g.Tracks [] g.queue := by
  have hwaiting : ∀ j < g.size, g.queue.waiting[j]? = some (g.deps j).length := by
    intro j hj
    simp [queue, hj]
  refine ⟨fun j hj => ?_, List.pairwise_lt_range.filter _, fun j => ?_, fun j hj => ?_⟩
  · rw [hwaiting j hj]
    simp [missing, queue]
  · constructor
    · intro hmem
      obtain ⟨hrange, hempty⟩ := List.mem_filter.mp hmem
      have hj := List.mem_range.mp hrange
      refine ⟨hj, List.not_mem_nil, ?_⟩
      rw [hwaiting j hj, List.isEmpty_iff.mp hempty, List.length_nil]
    · rintro ⟨hj, -, hzero⟩
      rw [hwaiting j hj, Option.some.injEq, List.length_eq_zero_iff] at hzero
      exact List.mem_filter.mpr ⟨List.mem_range.mpr hj, List.isEmpty_iff.mpr hzero⟩
  · cases hj

/-- **The queue places the nodes in order.** -/
theorem queued_eq_order (g : Deps) : g.queued = g.order :=
  drain_eq_extend g.size (queue_tracks g) .nil

end Deps

end WireSchema.Graph
