import Mathlib
import WireSchema.Proofs.Graph.Order

/-!
# The order is the least one

Many lists place every node after its dependencies.  `Deps.order` takes the smallest ready node each
time, so where it first differs from another such list it has the smaller node: the other list's
node was ready there too.  Read from the left, node by node, the order is therefore the least of
them.

## Main results

* `order_least` — the order is lexicographically least among the lists that hold every node once
  and each after its dependencies.
* `order_length_of_ranked` — where a number falls along dependencies the order holds every node.
* `Placed.follows` — in a `Placed` list every node follows its dependencies.
-/

namespace WireSchema.Graph.Deps

/-- Every node of a list stands after all it depends on. -/
def Follows (g : Deps) (l : List Nat) : Prop :=
  ∀ before i rest, l = before ++ i :: rest → ∀ d ∈ g.deps i, d ∈ before

variable {g : Deps}

theorem Placed.follows {placed : List Nat} (h : g.Placed placed) : g.Follows placed := by
  induction h with
  | nil =>
      intro before i rest hsplit
      simp at hsplit
  | @snoc placed j _ _ _ ready ih =>
      intro before i rest hsplit d hd
      rcases List.eq_nil_or_concat rest with rfl | ⟨rest, k, rfl⟩
      · obtain ⟨rfl, hji⟩ := List.append_inj' hsplit rfl
        obtain rfl : j = i := by simpa using hji
        exact ready d hd
      · have hlast : placed ++ [j] = (before ++ i :: rest) ++ [k] := by simpa using hsplit
        obtain ⟨hfront, -⟩ := List.append_inj' hlast rfl
        exact ih before i rest hfront d hd

/-- Placing more nodes adds them at the end. -/
theorem exists_extend_eq (fuel : Nat) (placed : List Nat) :
    ∃ added, g.extend fuel placed = placed ++ added := by
  induction fuel generalizing placed with
  | zero => exact ⟨[], by rw [extend, List.append_nil]⟩
  | succ fuel ih =>
      rw [extend]
      cases g.nextReady? placed with
      | none => exact ⟨[], by rw [List.append_nil]⟩
      | some i =>
          obtain ⟨added, hadded⟩ := ih (placed ++ [i])
          exact ⟨i :: added, by simp [hadded]⟩

/-- A ready node is not smaller than the one that is placed next. -/
theorem exists_nextReady? {placed : List Nat} {r : Nat} (hr : r < g.size)
    (hready : g.isReady placed r = true) : ∃ i, g.nextReady? placed = some i ∧ i ≤ r := by
  cases hnext : g.nextReady? placed with
  | none =>
      have hbusy := List.find?_eq_none.mp hnext r (List.mem_range.mpr hr)
      exact absurd hready hbusy
  | some i =>
      refine ⟨i, rfl, ?_⟩
      by_contra hlt
      obtain ⟨-, before, rest, hsplit, hfirst⟩ := List.find?_eq_some_iff_append.mp hnext
      have hmem : r ∈ before := by
        have hpair : (before ++ i :: rest).Pairwise (· < ·) := hsplit ▸ List.pairwise_lt_range
        have hr' : r ∈ before ++ i :: rest := hsplit ▸ List.mem_range.mpr hr
        rcases List.mem_append.mp hr' with hr' | hr'
        · exact hr'
        · have hge := (List.pairwise_append.mp hpair).2.1
          rcases List.mem_cons.mp hr' with rfl | hr'
          · omega
          · have := (List.pairwise_cons.mp hge).1 r hr'
            omega
      have hno := hfirst r hmem
      rw [hready] at hno
      cases hno

/-- Lists with a common beginning compare as what follows it. -/
theorem lex_append {common xs ys : List Nat} (h : List.Lex (· < ·) xs ys) :
    List.Lex (· < ·) (common ++ xs) (common ++ ys) := by
  induction common with
  | nil => exact h
  | cons _ _ ih => exact .cons ih

/-- From a common beginning on, no legal way to go on is less than the order's. -/
theorem extend_least (rest : List Nat) : ∀ {fuel : Nat} {placed : List Nat},
    rest.length ≤ fuel → (placed ++ rest).Perm (List.range g.size) → g.Follows (placed ++ rest) →
      g.extend fuel placed = placed ++ rest ∨
        List.Lex (· < ·) (g.extend fuel placed) (placed ++ rest) := by
  induction rest with
  | nil =>
      intro fuel placed _ hperm _
      left
      cases fuel with
      | zero => rw [extend, List.append_nil]
      | succ fuel =>
          have hnone : g.nextReady? placed = none := by
            refine List.find?_eq_none.mpr fun i hi hready => ?_
            have hmem : i ∈ placed := by simpa using hperm.mem_iff.mpr hi
            simp [isReady, hmem] at hready
          rw [extend, hnone, List.append_nil]
  | cons r rest ih =>
      intro fuel placed hfuel hperm hfollows
      obtain ⟨fuel, rfl⟩ : ∃ n, fuel = n + 1 := ⟨fuel - 1, by simp at hfuel; omega⟩
      have hr : r < g.size := List.mem_range.mp (hperm.mem_iff.mp (by simp))
      have hnodup : (placed ++ r :: rest).Nodup := hperm.nodup_iff.mpr List.nodup_range
      have hfresh : r ∉ placed := by
        intro hmem
        exact (List.nodup_append.mp hnodup).2.2 r hmem r List.mem_cons_self rfl
      have hready : g.isReady placed r = true := by
        simp only [isReady, Bool.and_eq_true, Bool.not_eq_true', List.all_eq_true,
          List.contains_eq_mem, decide_eq_true_eq, decide_eq_false_iff_not]
        exact ⟨hfresh, hfollows placed r rest rfl⟩
      obtain ⟨i, hnext, hle⟩ := exists_nextReady? hr hready
      rw [extend, hnext]
      by_cases hir : i = r
      · subst hir
        have hsplit : placed ++ i :: rest = (placed ++ [i]) ++ rest := by simp
        rw [hsplit] at hperm hfollows ⊢
        exact ih (by simpa using hfuel) hperm hfollows
      · -- The order takes a smaller node here, whatever it does afterwards.
        right
        obtain ⟨added, hadded⟩ := exists_extend_eq (g := g) fuel (placed ++ [i])
        have hlt : i < r := by omega
        show List.Lex (· < ·) (g.extend fuel (placed ++ [i])) (placed ++ r :: rest)
        rw [hadded, List.append_assoc]
        exact lex_append (.rel hlt)

/-- **The order is the least** of all lists that hold every node once and each after its
dependencies. -/
theorem order_least {l : List Nat} (hperm : l.Perm (List.range g.size)) (hl : g.Follows l) :
    g.order = l ∨ List.Lex (· < ·) g.order l := by
  have hlen : l.length ≤ g.size := by simpa using hperm.length_eq.le
  have hperm' : ([] ++ l).Perm (List.range g.size) := hperm
  exact extend_least l hlen hperm' hl

/-- Where a number falls along dependencies the order holds every node. -/
theorem order_length_of_ranked (rank : Nat → Nat)
    (hrank : ∀ i < g.size, ∀ d ∈ g.deps i, d < g.size ∧ rank d < rank i) :
    g.order.length = g.size := by
  by_contra hlen
  have hall : ∀ n i, rank i < n → i < g.size → i ∈ g.order := by
    intro n
    induction n with
    | zero =>
        intro i hlt _
        omega
    | succ n ih =>
        intro i hlt hi
        by_contra hnot
        obtain ⟨d, hd, hmiss⟩ := exists_dep_notMem_order hlen hi hnot
        obtain ⟨hdsize, hfall⟩ := hrank i hi d hd
        exact hmiss (ih d (by omega) hdsize)
  exact hlen (length_order_of_forall_mem fun i hi => hall _ i (Nat.lt_succ_self _) hi)

end WireSchema.Graph.Deps
