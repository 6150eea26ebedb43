import Mathlib
import WireSchema.Proofs.Graph.Exact
import WireSchema.Proofs.Graph.Search

/-!
# The reported way to a cycle

For every cycle member a way is reported that starts there.  A member on a cycle is met again, by a
shortest cycle.  A member that only lies between cycles is not: the walk sees every member that it
leads to and ends when nothing is left, so the way reported leads to the member that was seen last.
That is one at the greatest distance, and says nothing about cycles: the way may lead past the first
cycle it reaches, or end at a member that is on none.

Members never lead out of the members and back: what lies between a node that a cycle leads to and
one that leads to a cycle is a member itself.  So distances among the members are distances in the
whole graph.

## Main results

* `within_of_chain` — what lies between members is a member.
* `cyclePath_shortest` — from a node on a cycle, a shortest cycle through it.
* `cyclePath_farthest` — from a node between cycles, a shortest way to a member as far as any.
-/

namespace WireSchema.Graph

open Relation (TransGen ReflTransGen)

variable {g : Deps} {start : Nat}

/-! ## Ways among the members -/

namespace Deps

/-- A dependency between cycle members. -/
def Within (g : Deps) (i d : Nat) : Prop :=
  i ∈ g.cycleMembers ∧ d ∈ g.cycleMembers ∧ g.Needs i d

theorem lt_size_of_mem {i : Nat} (hi : i ∈ g.cycleMembers) : i < g.size :=
  List.mem_range.mp ((cycleMembers_sublist g).subset hi)

/-- **What lies between members is a member.** -/
theorem within_of_chain (hclosed : g.Closed) {n : Nat} (hn : ReachesCycle g.Needs n)
    {path : List Nat} : ∀ {a : Nat}, g.FromCycle a → (a :: path).IsChain g.Needs →
      (a :: path).getLast? = some n →
      ReachesCycle g.Needs a ∧ (a :: path).IsChain g.Within := by
  induction path with
  | nil =>
      intro a _ _ hlast
      obtain rfl : a = n := by simpa using hlast
      exact ⟨hn, .singleton a⟩
  | cons b path ih =>
      intro a hfrom hchain hlast
      obtain ⟨hstep, hrest⟩ := List.isChain_cons_cons.mp hchain
      have hfrom' : g.FromCycle b := by
        obtain ⟨c, hpath, hcycle⟩ := hfrom
        exact ⟨c, .head hstep hpath, hcycle⟩
      obtain ⟨hto, hwithin⟩ := ih hfrom' hrest (by rwa [List.getLast?_cons_cons] at hlast)
      have hto' : ReachesCycle g.Needs a := by
        obtain ⟨c, hpath, hcycle⟩ := hto
        exact ⟨c, .head hstep hpath, hcycle⟩
      exact ⟨hto', .cons_cons ⟨(mem_cycleMembers_iff hclosed).mpr ⟨hfrom, hto'⟩,
        (mem_cycleMembers_iff hclosed).mpr ⟨hfrom', hto⟩, hstep⟩ hwithin⟩

theorem Within.leads {i d : Nat} (h : g.Within i d) : g.Leads g.cycleMembers i d :=
  ⟨h.2.2.2, h.2.1⟩

/-- The walk stays among the members. -/
theorem within_of_leads {path : List Nat} : ∀ {a : Nat}, a ∈ g.cycleMembers →
    (a :: path).IsChain (g.Leads g.cycleMembers) → (a :: path).IsChain g.Within := by
  induction path with
  | nil => exact fun _ _ => .singleton _
  | cons b path ih =>
      intro a ha hchain
      obtain ⟨hstep, hrest⟩ := List.isChain_cons_cons.mp hchain
      exact .cons_cons ⟨ha, hstep.2, lt_size_of_mem ha, hstep.1⟩ (ih hstep.2 hrest)

theorem OnCycle.mem_cycleMembers (hclosed : g.Closed) (h : OnCycle g.Needs start) :
    start ∈ g.cycleMembers :=
  (mem_cycleMembers_iff hclosed).mpr
    ⟨⟨start, .refl, Relation.transGen_swap.mpr h⟩, h.reaches⟩

/-- A node on a cycle has a way back to itself. -/
theorem OnCycle.exists_chain {r : Nat → Nat → Prop} (h : OnCycle r start) :
    ∃ other, (start :: other ++ [start]).IsChain r := by
  obtain ⟨n, hpath, hback⟩ := TransGen.tail'_iff.mp h
  obtain ⟨other, hchain, hlast⟩ := List.exists_isChain_cons_of_relationReflTransGen hpath
  refine ⟨other, isChain_snoc hchain ?_ hback⟩
  rw [List.getLast?_eq_some_getLast (List.cons_ne_nil start other), hlast]

/-- A way back to the start shows that it is on a cycle. -/
theorem onCycle_of_chain {r : Nat → Nat → Prop} {other : List Nat}
    (h : (start :: other ++ [start]).IsChain r) : OnCycle r start := by
  obtain ⟨hfront, -, hback⟩ := List.isChain_append.mp h
  have hlast := List.getLast?_eq_some_getLast (List.cons_ne_nil start other)
  exact .tail' (List.relationReflTransGen_of_exists_isChain_cons other hfront rfl)
    (hback _ hlast start rfl)

end Deps

/-! ## The walk from a member -/

/-- **The walk from a cycle member ends**, and what it gives when nothing bounds it is the reported
way. -/
theorem ends_cyclePath (hstart : start ∈ g.cycleMembers) :
    Ends g g.cycleMembers start (Walk.at start) (cyclePath g g.cycleMembers start) := by
  refine (explored_at hstart).ends_walkFrom (g.size + 1) ?_
  have hlen := (Deps.cycleMembers_sublist g).length_le
  have hpos := List.length_pos_of_mem hstart
  rw [List.length_range] at hlen
  simp only [Walk.at, List.length_singleton]
  omega

section Explored

variable {members : List Nat} {level : Nat → Nat} {w : Walk}

/-- A way back to a seen node is as long as its level and meets no node twice. -/
theorem Explored.of_traced (h : Explored g members start level w) {n : Nat} {path : List Nat}
    (hn : n ∈ w.visited) (hback : Traced w.from_ start n path) :
    path.length = level n ∧ (start :: path).getLast? = some n ∧
      (start :: path).IsChain (g.Leads members) ∧ (start :: path).Nodup := by
  obtain ⟨path', htraced, hlen, hlast, hchain, -, hrise⟩ := h.exists_traced hn
  obtain rfl : path = path' := by
    rw [← hback.backTo_eq (Nat.lt_succ_of_le (Nat.le_max_left path.length path'.length)),
      htraced.backTo_eq (Nat.lt_succ_of_le (Nat.le_max_right path.length path'.length))]
  refine ⟨hlen, hlast, hchain, hrise.imp fun hab heq => ?_⟩
  rw [heq] at hab
  exact lt_irrefl _ hab

/-- No way back to the start is shorter than through the front of the queue. -/
theorem Explored.level_le_of_cycle (h : Explored g members start level w) {other : List Nat}
    (hcycle : (start :: other ++ [start]).IsChain (g.Leads members)) :
    ∃ a ∈ w.queue, level a ≤ other.length := by
  by_contra hfar
  push Not at hfar
  obtain ⟨hfront, -, hback⟩ := List.isChain_append.mp hcycle
  have hlast := List.getLast?_eq_some_getLast (List.cons_ne_nil start other)
  obtain ⟨hseen, hdone, -⟩ := h.mem_visited_of_chain hfront hlast hfar
  exact (h.onward _ hseen hdone start (hback _ hlast start rfl)).1 rfl

/-- With nothing left in the queue every member that is led to was seen at its distance. -/
theorem Explored.level_le_of_way (h : Explored g g.cycleMembers start level w)
    (hidle : w.queue = []) (hclosed : g.Closed) {n : Nat} (hn : n ∈ g.cycleMembers)
    {other : List Nat} (hother : (start :: other).IsChain g.Needs)
    (hend : (start :: other).getLast? = some n) : n ∈ w.visited ∧ level n ≤ other.length := by
  have hfrom := ((Deps.mem_cycleMembers_iff hclosed).mp (h.inside start h.start_seen)).1
  have hto := ((Deps.mem_cycleMembers_iff hclosed).mp hn).2
  have hwithin := (Deps.within_of_chain hclosed hto hfrom hother hend).2
  obtain ⟨hvisited, -, hlevel⟩ := h.mem_visited_of_chain
    (hwithin.imp fun _ _ => Deps.Within.leads) hend (by simp [hidle])
  exact ⟨hvisited, hlevel⟩

/-- What was visited last is then as far as any member that is led to. -/
theorem Explored.level_le_last (h : Explored g g.cycleMembers start level w)
    (hidle : w.queue = []) (hclosed : g.Closed) {n : Nat} (hn : n ∈ g.cycleMembers)
    (hreach : ReflTransGen g.Needs start n) : n ∈ w.visited ∧ level n ≤ level w.last := by
  obtain ⟨other, hother, hend⟩ := List.exists_isChain_cons_of_relationReflTransGen hreach
  obtain ⟨hvisited, -⟩ := h.level_le_of_way hidle hclosed hn hother
    (by rw [List.getLast?_eq_some_getLast (List.cons_ne_nil start other), hend])
  exact ⟨hvisited, h.last_level n hvisited (by simp [hidle])⟩

/-- A node between cycles is not where its walk ends. -/
theorem Explored.last_ne_start (h : Explored g g.cycleMembers start level w)
    (hidle : w.queue = []) (hclosed : g.Closed) (hoff : ¬OnCycle g.Needs start) :
    w.last ≠ start := by
  intro heq
  obtain ⟨hfrom, hto⟩ := (Deps.mem_cycleMembers_iff hclosed).mp (h.inside start h.start_seen)
  obtain ⟨d, hstep, hd⟩ := hto.step
  have hdmem : d ∈ g.cycleMembers := (Deps.mem_cycleMembers_iff hclosed).mpr
    ⟨hfrom.imp fun c hc => ⟨.head hstep hc.1, hc.2⟩, hd⟩
  obtain ⟨hvisited, hlevel⟩ := h.level_le_last hidle hclosed hdmem (.single hstep)
  obtain ⟨p, -, -, -, hup⟩ := h.parent d hvisited fun heq => hoff (.single (heq ▸ hstep))
  rw [heq, h.start_level] at hlevel
  omega

end Explored

/-- **A shortest cycle is reported.**  For a node on a cycle the search ends.  What it reports
begins and ends with the node, goes along dependencies between cycle members, and meets no other
node twice; no cycle through the node is shorter. -/
theorem cyclePath_shortest (hclosed : g.Closed) (hstart : OnCycle g.Needs start) :
    Ends g g.cycleMembers start (Walk.at start) (cyclePath g g.cycleMembers start) ∧
    ∃ between, cyclePath g g.cycleMembers start = start :: between ++ [start] ∧
      (start :: between).Nodup ∧ (start :: between ++ [start]).IsChain g.Within ∧
      ∀ other, (start :: other ++ [start]).IsChain g.Needs → between.length ≤ other.length := by
  have hmem := Deps.OnCycle.mem_cycleMembers hclosed hstart
  have hfrom := ((Deps.mem_cycleMembers_iff hclosed).mp hmem).1
  have hends := ends_cyclePath hmem
  -- Cycles in the graph are cycles that the walk can follow.
  have hleads : ∀ other, (start :: other ++ [start]).IsChain g.Needs →
      (start :: other ++ [start]).IsChain (g.Leads g.cycleMembers) := by
    intro other hother
    have hlast : (start :: (other ++ [start])).getLast? = some start := by
      rw [← List.cons_append, List.getLast?_concat]
    exact (Deps.within_of_chain hclosed hstart.reaches hfrom hother hlast).2.imp
      fun _ _ => Deps.Within.leads
  obtain ⟨level, w, h, ⟨cur, queue, path, hqueue, hmeets, hback, hresult⟩ |
    ⟨path, hqueue, -, -⟩⟩ := hends.outcome (explored_at hmem)
  · have hcur : cur ∈ w.queue := hqueue ▸ List.mem_cons_self
    obtain ⟨hlen, hlast, hchain, hnodup⟩ := h.of_traced (h.queued cur hcur) hback
    refine ⟨hends, path, hresult, hnodup,
      Deps.within_of_leads hmem (isChain_snoc hchain hlast hmeets), fun other hother => ?_⟩
    · obtain ⟨a, ha, hle⟩ := h.level_le_of_cycle (hleads other hother)
      have hfront : level cur ≤ level a := by
        rw [hqueue] at ha
        rcases List.mem_cons.mp ha with rfl | ha
        · exact le_rfl
        · exact (List.pairwise_cons.mp (hqueue ▸ h.sorted)).1 a ha
      exact hlen.le.trans (hfront.trans hle)
  · obtain ⟨other, hother⟩ := Deps.OnCycle.exists_chain hstart
    obtain ⟨a, ha, -⟩ := h.level_le_of_cycle (hleads other hother)
    rw [hqueue] at ha
    cases ha

/-- Two cycles through one node, the longer of which comes first. -/
def detour : Rows := ⟨4, [[1, 2], [3], [0], [0]]⟩

theorem cyclePath_shortest_detour : detour.toDeps.Closed ∧ OnCycle detour.toDeps.Needs 0 ∧
    cyclePath detour.toDeps detour.toDeps.cycleMembers 0 = [0, 2, 0] ∧
    ∀ other, (0 :: other ++ [0]).IsChain detour.toDeps.Needs → 1 ≤ other.length := by
  have hclosed := Rows.closed_toDeps detour
  have hcycle : OnCycle detour.toDeps.Needs 0 :=
    .tail (.single (⟨by decide, by decide⟩ : detour.toDeps.Needs 0 2)) ⟨by decide, by decide⟩
  have hpath : cyclePath detour.toDeps detour.toDeps.cycleMembers 0 = [0, 2, 0] := by decide
  obtain ⟨-, between, hbetween, -, -, hshort⟩ := cyclePath_shortest hclosed hcycle
  have hlen := congrArg List.length (hpath.symm.trans hbetween)
  have hone : between.length = 1 := by simpa using hlen.symm
  exact ⟨hclosed, hcycle, hpath, hone ▸ hshort⟩

/-- **Between cycles the farthest member is reported.**  For a cycle member that is on no cycle the
search ends.  What it reports begins with the node and goes along dependencies between cycle members
to another one, meeting no node twice; no way to that one is shorter, and no member that the node
leads to is further away. -/
theorem cyclePath_farthest (hclosed : g.Closed) (hmem : start ∈ g.cycleMembers)
    (hoff : ¬OnCycle g.Needs start) :
    Ends g g.cycleMembers start (Walk.at start) (cyclePath g g.cycleMembers start) ∧
    ∃ way last, cyclePath g g.cycleMembers start = start :: way ∧ way.getLast? = some last ∧
      (start :: way).Nodup ∧ (start :: way).IsChain g.Within ∧
      (∀ other, (start :: other).IsChain g.Needs → (start :: other).getLast? = some last →
        way.length ≤ other.length) ∧
      ∀ n ∈ g.cycleMembers, ReflTransGen g.Needs start n → ∃ other,
        (start :: other).IsChain g.Within ∧ (start :: other).getLast? = some n ∧
        other.length ≤ way.length := by
  have hends := ends_cyclePath hmem
  obtain ⟨level, w, h, ⟨cur, queue, path, hqueue, hmeets, hback, -⟩ |
    ⟨path, hqueue, hback, hresult⟩⟩ := hends.outcome (explored_at hmem)
  · -- Coming back to the start would be a cycle.
    have hcur : cur ∈ w.queue := hqueue ▸ List.mem_cons_self
    obtain ⟨-, hlast, hchain, -⟩ := h.of_traced (h.queued cur hcur) hback
    have hwithin := Deps.within_of_leads hmem (isChain_snoc hchain hlast hmeets)
    exact absurd (Deps.onCycle_of_chain (hwithin.imp fun _ _ hstep => hstep.2.2)) hoff
  obtain ⟨hlen, hlast, hchain, hnodup⟩ := h.of_traced h.last_seen hback
  have hlast' : path.getLast? = some w.last := by
    cases path with
    | nil => exact absurd (by simpa using hlast.symm) (h.last_ne_start hqueue hclosed hoff)
    | cons x rest => rwa [List.getLast?_cons_cons] at hlast
  refine ⟨hends, path, w.last, hresult, hlast', hnodup, Deps.within_of_leads hmem hchain,
    fun other hother hend => ?_, fun n hn hreach => ?_⟩
  · have hlevel := (h.level_le_of_way hqueue hclosed (h.inside _ h.last_seen) hother hend).2
    exact hlen.le.trans hlevel
  · obtain ⟨hvisited, hlevel⟩ := h.level_le_last hqueue hclosed hn hreach
    obtain ⟨other, -, hother, hend, hleads, -⟩ := h.exists_traced hvisited
    exact ⟨other, Deps.within_of_leads hmem hleads, hend, by omega⟩

/-- A cycle, a node between, and a cycle of two. -/
def relay : Rows := ⟨4, [[0, 1], [2], [3], [2]]⟩

theorem relay_between : 1 ∈ relay.toDeps.cycleMembers ∧ ¬OnCycle relay.toDeps.Needs 1 := by
  refine ⟨by decide, fun h => ?_⟩
  have hpast : ∀ n, TransGen relay.toDeps.Needs 1 n → n = 2 ∨ n = 3 := by
    intro n hn
    induction hn with
    | single hstep => exact .inl (by simpa using (show _ ∈ [2] from hstep.2))
    | tail _ hstep ih =>
        rcases ih with rfl | rfl
        · exact .inr (by simpa using (show _ ∈ [3] from hstep.2))
        · exact .inl (by simpa using (show _ ∈ [2] from hstep.2))
  simpa using hpast 1 h

/-- The way from the node between leads through the cycle to its far side. -/
theorem cyclePath_farthest_relay : relay.toDeps.Closed ∧ 1 ∈ relay.toDeps.cycleMembers ∧
    ¬OnCycle relay.toDeps.Needs 1 ∧
    cyclePath relay.toDeps relay.toDeps.cycleMembers 1 = [1, 2, 3] ∧
    ∀ n ∈ relay.toDeps.cycleMembers, ReflTransGen relay.toDeps.Needs 1 n → ∃ other,
      (1 :: other).IsChain relay.toDeps.Within ∧ (1 :: other).getLast? = some n ∧
      other.length ≤ 2 := by
  have hclosed := Rows.closed_toDeps relay
  obtain ⟨hmem, hoff⟩ := relay_between
  have hpath : cyclePath relay.toDeps relay.toDeps.cycleMembers 1 = [1, 2, 3] := by decide
  obtain ⟨-, way, last, hway, -, -, -, -, hfar⟩ := cyclePath_farthest hclosed hmem hoff
  obtain rfl : [2, 3] = way := (List.cons.inj (hpath.symm.trans hway)).2
  exact ⟨hclosed, hmem, hoff, hpath, hfar⟩

/-- The first node on a cycle is not where the way ends. -/
theorem cyclePath_passes_cycle : relay.toDeps.Closed ∧ 1 ∈ relay.toDeps.cycleMembers ∧
    ¬OnCycle relay.toDeps.Needs 1 ∧
    ¬∃ way last, cyclePath relay.toDeps relay.toDeps.cycleMembers 1 = way ++ [last] ∧
      OnCycle relay.toDeps.Needs last ∧ ∀ i ∈ way, ¬OnCycle relay.toDeps.Needs i := by
  refine ⟨Rows.closed_toDeps relay, relay_between.1, relay_between.2, ?_⟩
  rintro ⟨way, last, hpath, -, hfirst⟩
  have hvalue : cyclePath relay.toDeps relay.toDeps.cycleMembers 1 = [1, 2] ++ [3] := by decide
  obtain ⟨rfl, -⟩ := List.append_inj' (hvalue.symm.trans hpath) rfl
  exact hfirst 2 (by simp)
    (.tail (.single (⟨by decide, by decide⟩ : relay.toDeps.Needs 2 3)) ⟨by decide, by decide⟩)

end WireSchema.Graph
