import Mathlib
import WireSchema.Graph.Order
import WireSchema.Proofs.Graph.Cycles
import WireSchema.Proofs.Graph.Queue

/-!
# The order of given dependencies is exact

What is proved about graphs in `Least`, `Cycles` and `Queue` is put together for dependencies as
they are given, where an entry that is listed twice or a node that lists itself is allowed.

## Main results

* `order_exact` — the order is the least one, or all that can be placed with the error `cycle`.
* `cycleMembers_exact` — the nodes on cycles and between cycles, in increasing order.
-/

namespace WireSchema.Graph

open Relation (TransGen ReflTransGen)

/-- Every node of a list stands after all that it needs. -/
def Sorted (needs : Nat → Nat → Prop) (l : List Nat) : Prop :=
  ∀ before i rest, l = before ++ i :: rest → ∀ d, needs i d → d ∈ before

namespace Rows

/-- Every entry is a node. -/
def InRange (g : Rows) : Prop := ∀ i < g.size, ∀ d ∈ g.row i, 0 ≤ d ∧ d < g.size

instance (g : Rows) : Decidable g.InRange :=
  inferInstanceAs (Decidable (∀ i < g.size, ∀ d ∈ g.row i, 0 ≤ d ∧ d < g.size))

/-- The node `i` lists `d`. -/
def Needs (g : Rows) (i d : Nat) : Prop := i < g.size ∧ (d : Int) ∈ g.row i

/-- No node leads back to itself. -/
def Acyclic (g : Rows) : Prop := ∀ i, ¬OnCycle g.Needs i

variable {g : Rows}

/-! ## The graph of the entries -/

theorem outOfRange?_eq_none (h : g.InRange) : g.outOfRange? = none := by
  rw [outOfRange?, List.findSome?_eq_none_iff]
  intro i hi
  rw [Option.map_eq_none_iff, List.find?_eq_none]
  intro d hd
  have hin := h i (List.mem_range.mp hi) d hd
  simp only [decide_eq_true_eq, not_or]
  omega

theorem mem_deps {i d : Nat} : d ∈ g.toDeps.deps i ↔ (d : Int) ∈ g.row i ∧ d < g.size := by
  simp only [toDeps, List.mem_filterMap]
  constructor
  · rintro ⟨e, he, hsome⟩
    split at hsome
    · rename_i hin
      obtain rfl := Option.some.inj hsome
      exact ⟨by rwa [Int.toNat_of_nonneg hin.1], by omega⟩
    · cases hsome
  · rintro ⟨hd, hlt⟩
    exact ⟨d, hd, by simp [hlt]⟩

theorem closed_toDeps (g : Rows) : g.toDeps.Closed := fun _ _ _ hd => (mem_deps.mp hd).2

theorem needs_toDeps (h : g.InRange) : g.toDeps.Needs = g.Needs := by
  funext i d
  refine propext (and_congr_right fun hi => ?_)
  rw [mem_deps]
  refine and_iff_left_of_imp fun hd => ?_
  have hin := h i hi d hd
  omega

theorem follows_toDeps (h : g.InRange) {l : List Nat} (hl : ∀ i ∈ l, i < g.size) :
    g.toDeps.Follows l ↔ Sorted g.Needs l := by
  have hnode : ∀ before i rest, l = before ++ i :: rest → i < g.size := by
    rintro before i rest rfl
    exact hl i (by simp)
  constructor
  · intro hfollows before i rest hsplit d hd
    exact hfollows before i rest hsplit d ((needs_toDeps h ▸ hd : g.toDeps.Needs i d)).2
  · intro hsorted before i rest hsplit d hd
    have hneeds : g.toDeps.Needs i d := ⟨hnode before i rest hsplit, hd⟩
    exact hsorted before i rest hsplit d (needs_toDeps h ▸ hneeds)

/-! ## The order -/

theorem order_eq (h : g.InRange) : g.order =
    (g.toDeps.order, if g.toDeps.order.length = g.size then none else some .cycle) := by
  simp only [order, outOfRange?_eq_none h, Deps.queued_eq_order]

theorem sorted_order (h : g.InRange) : Sorted g.Needs g.toDeps.order :=
  (follows_toDeps h fun _ hi => (Deps.order_placed g.toDeps).lt_size hi).mp
    (Deps.order_placed g.toDeps).follows

theorem acyclic_iff (h : g.InRange) : g.Acyclic ↔ g.toDeps.order.length = g.size := by
  rw [Acyclic, ← needs_toDeps h]
  exact (Deps.length_order_iff_acyclic (closed_toDeps g)).symm

/-- **The order is exact.**  Without cycles it is the lexicographically least arrangement of all
nodes in which each follows what it needs.  With a cycle it holds, once each and after what they
need, exactly the nodes that do not lead to a cycle, and this is reported. -/
theorem order_exact (h : g.InRange) :
    (g.Acyclic → ∃ l, g.order = (l, none) ∧ l.Perm (List.range g.size) ∧ Sorted g.Needs l ∧
      ∀ l', l'.Perm (List.range g.size) → Sorted g.Needs l' → l = l' ∨ List.Lex (· < ·) l l') ∧
    (¬g.Acyclic → ∃ l, g.order = (l, some .cycle) ∧ l.Nodup ∧ Sorted g.Needs l ∧
      ∀ i, i ∈ l ↔ i < g.size ∧ ¬ReachesCycle g.Needs i) := by
  have hplaced := Deps.order_placed g.toDeps
  constructor
  · intro hacyclic
    have hlen := (acyclic_iff h).mp hacyclic
    refine ⟨g.toDeps.order, by rw [order_eq h, if_pos hlen], ?_, sorted_order h, ?_⟩
    · refine (List.perm_ext_iff_of_nodup hplaced.nodup List.nodup_range).mpr fun i => ?_
      rw [List.mem_range]
      exact ⟨hplaced.lt_size, Deps.mem_order_of_length hlen⟩
    · intro l' hperm hsorted
      refine Deps.order_least hperm ((follows_toDeps h fun i hi => ?_).mpr hsorted)
      exact List.mem_range.mp (hperm.mem_iff.mp hi)
  · intro hcyclic
    have hlen := (acyclic_iff h).not.mp hcyclic
    refine ⟨g.toDeps.order, by rw [order_eq h, if_neg hlen], hplaced.nodup, sorted_order h, ?_⟩
    intro i
    rw [← needs_toDeps h]
    exact Deps.mem_order_iff (closed_toDeps g)

/-- Two ways from one node to another, a part of one listed twice. -/
def diamond : Rows := ⟨4, [[1, 2, 1], [3], [3], []]⟩

/-- Two nodes that list themselves, a node between them, one before and one after. -/
def tangle : Rows := ⟨5, [[0, 1], [2], [2, 4], [0], []]⟩

theorem tangle_cyclic : ¬tangle.Acyclic := fun h => h 0 (.single ⟨by decide, by decide⟩)

/-- The diamond has a least order, of the tangle only the last node can be placed. -/
theorem order_exact_samples : diamond.InRange ∧ diamond.Acyclic ∧ tangle.InRange ∧
    ¬tangle.Acyclic ∧
    (diamond.order = ([3, 1, 2, 0], none) ∧ ∀ l, l.Perm (List.range 4) → Sorted diamond.Needs l →
      [3, 1, 2, 0] = l ∨ List.Lex (· < ·) [3, 1, 2, 0] l) ∧
    tangle.order = ([4], some .cycle) ∧
      ∀ i, i ∈ [4] ↔ i < 5 ∧ ¬ReachesCycle tangle.Needs i := by
  have hdiamond : diamond.InRange := by decide
  have htangle : tangle.InRange := by decide
  have hacyclic : diamond.Acyclic := (acyclic_iff hdiamond).mpr (by decide)
  have hfull : diamond.order = ([3, 1, 2, 0], none) := by decide
  have hpart : tangle.order = ([4], some .cycle) := by decide
  obtain ⟨l, hl, -, -, hleast⟩ := (order_exact hdiamond).1 hacyclic
  obtain ⟨k, hk, -, -, hmem⟩ := (order_exact htangle).2 tangle_cyclic
  rw [hfull] at hl
  rw [hpart] at hk
  cases hl
  cases hk
  exact ⟨hdiamond, hacyclic, htangle, tangle_cyclic, ⟨hfull, hleast⟩, hpart, hmem⟩

/-! ## The cycle members -/

theorem fromCycle_iff (h : g.InRange) {i : Nat} :
    g.toDeps.FromCycle i ↔ ∃ c, OnCycle g.Needs c ∧ ReflTransGen g.Needs c i := by
  rw [Deps.FromCycle, needs_toDeps h, ReachesCycle]
  refine exists_congr fun c => ?_
  rw [OnCycle, Relation.reflTransGen_swap, Relation.transGen_swap]
  exact and_comm

/-- **The cycle members are exact.**  They are, in increasing order, the nodes on a cycle and those
on a way from one cycle to another; there are none exactly if there is no cycle. -/
theorem cycleMembers_exact (h : g.InRange) :
    g.cycleMembers.Pairwise (· < ·) ∧
    (∀ i, i ∈ g.cycleMembers ↔ OnCycle g.Needs i ∨
      ∃ c c', OnCycle g.Needs c ∧ OnCycle g.Needs c' ∧ TransGen g.Needs c i ∧
          TransGen g.Needs i c') ∧
    (g.cycleMembers = [] ↔ g.Acyclic) := by
  have heq : g.cycleMembers = g.toDeps.cycleMembers := by
    simp only [cycleMembers, outOfRange?_eq_none h]
  have hmem : ∀ i, i ∈ g.cycleMembers ↔ OnCycle g.Needs i ∨
      ∃ c c', OnCycle g.Needs c ∧ OnCycle g.Needs c' ∧ TransGen g.Needs c i ∧
        TransGen g.Needs i c' := by
    intro i
    rw [heq, Deps.mem_cycleMembers_iff (closed_toDeps g), fromCycle_iff h, needs_toDeps h]
    constructor
    · rintro ⟨⟨c, hc, hfrom⟩, c', hto, hc'⟩
      rcases Relation.reflTransGen_iff_eq_or_transGen.mp hfrom with rfl | hfrom
      · exact .inl hc
      · rcases Relation.reflTransGen_iff_eq_or_transGen.mp hto with rfl | hto
        · exact .inl hc'
        · exact .inr ⟨c, c', hc, hc', hfrom, hto⟩
    · rintro (hi | ⟨c, c', hc, hc', hfrom, hto⟩)
      · exact ⟨⟨i, hi, .refl⟩, hi.reaches⟩
      · exact ⟨⟨c, hc, hfrom.to_reflTransGen⟩, c', hto.to_reflTransGen, hc'⟩
  refine ⟨?_, hmem, ?_⟩
  · rw [heq]
    exact List.pairwise_lt_range.sublist (Deps.cycleMembers_sublist g.toDeps)
  · rw [List.eq_nil_iff_forall_not_mem]
    constructor
    · exact fun hnone i hi => hnone i ((hmem i).mpr (.inl hi))
    · intro hacyclic i hi
      rcases (hmem i).mp hi with hi | ⟨c, -, hc, -⟩
      · exact hacyclic i hi
      · exact hacyclic c hc

/-- In the tangle the node between the two cycles is a member, those before and after are not. -/
theorem cycleMembers_exact_tangle : tangle.InRange ∧ tangle.cycleMembers = [0, 1, 2] ∧
    (∀ i, i ∈ [0, 1, 2] ↔ OnCycle tangle.Needs i ∨ ∃ c c', OnCycle tangle.Needs c ∧
      OnCycle tangle.Needs c' ∧ TransGen tangle.Needs c i ∧ TransGen tangle.Needs i c') ∧
    ¬tangle.Acyclic := by
  have hrange : tangle.InRange := by decide
  have hmembers : tangle.cycleMembers = [0, 1, 2] := by decide
  obtain ⟨-, hmem, hnone⟩ := cycleMembers_exact hrange
  rw [hmembers] at hmem hnone
  exact ⟨hrange, hmembers, hmem, fun h => List.cons_ne_nil _ _ (hnone.mpr h)⟩

end Rows

end WireSchema.Graph
