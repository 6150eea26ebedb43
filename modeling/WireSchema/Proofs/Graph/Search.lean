import Mathlib
import WireSchema.Graph.Path

/-!
# The breadth-first walk

The walk sees nodes in the order of their distance from the start.  `Explored` says so with a level
for every node that was seen: the node it was first seen from is one level lower, the queue is
sorted by level and never reaches further than one level past its front, and a node that had its
turn leads to seen nodes only, at most one level up, and not back to the start.  One visit keeps all
this, so the level of a seen node is its distance, and the first node found to lead back to the
start is at the least distance at which there is one.

The walk is written with a bound on its rounds, and so is the way back through it.  `Ends` and
`Traced` say what comes out without any bound; the bounds are never reached.

## Main results

* `Explored.after` — one visit keeps the invariant.
* `Explored.exists_traced` — a seen node has a way back to the start of the length of its level.
* `Explored.mem_visited_of_chain` — nodes that are nearer than the queue were seen at their
  distance.
* `Explored.ends_walkFrom` — the walk ends within its bound.
* `Ends.outcome` — how it ends: at a node that leads back to the start, or with nothing left to see.
-/

namespace WireSchema.Graph

/-! ## The way back -/

/-- Going back from a node along `from_` leads to `start`; `path` holds the nodes from just after
the start to the node. -/
inductive Traced (from_ : List (Nat × Nat)) (start : Nat) : Nat → List Nat → Prop where
  | start : Traced from_ start start []
  | step {n p : Nat} {path : List Nat} (away : n ≠ start) (seen : from_.lookup n = some p)
      (before : Traced from_ start p path) : Traced from_ start n (path ++ [n])

theorem Traced.backTo_eq {from_ : List (Nat × Nat)} {start n : Nat} {path : List Nat}
    (h : Traced from_ start n path) :
    ∀ {fuel : Nat}, path.length < fuel → backTo from_ start fuel n = path := by
  induction h with
  | start =>
      intro fuel hfuel
      obtain ⟨fuel, rfl⟩ : ∃ k, fuel = k + 1 := ⟨fuel - 1, by simp at hfuel; omega⟩
      rw [backTo, if_pos rfl]
  | step away seen _ ih =>
      intro fuel hfuel
      obtain ⟨fuel, rfl⟩ : ∃ k, fuel = k + 1 := ⟨fuel - 1, by simp at hfuel; omega⟩
      rw [backTo, if_neg away, seen]
      exact congrArg (· ++ [_]) (ih (by simpa using hfuel))

/-! ## One visit -/

namespace Deps

/-- The walk goes on from `i` to `d`. -/
def Leads (g : Deps) (members : List Nat) (i d : Nat) : Prop := d ∈ g.deps i ∧ d ∈ members

theorem mem_filter_deps {g : Deps} {members : List Nat} {i d : Nat} :
    d ∈ (g.deps i).filter members.contains ↔ g.Leads members i d := by
  simp [Leads]

end Deps

namespace Walk

/-- The walk after a visit to `cur` that saw the nodes `fresh`, when `queue` is what is left of the
queue. -/
def after (w : Walk) (cur : Nat) (queue fresh : List Nat) : Walk where
  queue := queue ++ fresh
  visited := fresh.reverse ++ w.visited
  from_ := (fresh.map (·, cur)).reverse ++ w.from_
  last := cur

/-- The nodes seen from `cur` join the queue at its end; each of them is new, and is noted with
`cur`. -/
theorem exists_fresh (cur : Nat) (ds : List Nat) (w : Walk) : ∃ fresh : List Nat,
    ds.foldl (fun w d => w.see cur d) w =
        { w with
          queue := w.queue ++ fresh
          visited := fresh.reverse ++ w.visited
          from_ := (fresh.map (·, cur)).reverse ++ w.from_ } ∧
      fresh.Nodup ∧ ∀ d, d ∈ fresh ↔ d ∈ ds ∧ d ∉ w.visited := by
  induction ds generalizing w with
  | nil => exact ⟨[], by simp, .nil, by simp⟩
  | cons d ds ih =>
      rw [List.foldl_cons]
      by_cases hd : d ∈ w.visited
      · have hsee : w.see cur d = w := by simp [see, hd]
        obtain ⟨fresh, heq, hnodup, hmem⟩ := ih w
        refine ⟨fresh, by rw [hsee]; exact heq, hnodup, fun x => ?_⟩
        rw [hmem, List.mem_cons]
        refine ⟨fun h => ⟨.inr h.1, h.2⟩, ?_⟩
        rintro ⟨rfl | hx, hnew⟩
        · exact absurd hd hnew
        · exact ⟨hx, hnew⟩
      · have hsee : w.see cur d = { w with
            queue := w.queue ++ [d], visited := d :: w.visited, from_ := (d, cur) :: w.from_ } := by
          simp [see, hd]
        obtain ⟨fresh, heq, hnodup, hmem⟩ := ih (w.see cur d)
        have hfresh : ∀ x, x ∈ fresh ↔ x ∈ ds ∧ x ≠ d ∧ x ∉ w.visited := by
          intro x
          rw [hmem, hsee, List.mem_cons, not_or]
        refine ⟨d :: fresh, ?_, List.nodup_cons.mpr ⟨fun h => ((hfresh d).mp h).2.1 rfl, hnodup⟩,
          fun x => ?_⟩
        · rw [heq, hsee]
          simp
        · rw [List.mem_cons, hfresh, List.mem_cons]
          by_cases hx : x = d
          · subst hx
            simp [hd]
          · simp [hx]

theorem lookup_noted {n cur : Nat} {fresh : List Nat} :
    (fresh.map (·, cur)).reverse.lookup n = if n ∈ fresh then some cur else none := by
  induction fresh using List.reverseRecOn with
  | nil => rfl
  | append_singleton rest x ih =>
      rw [List.map_append, List.reverse_append, List.lookup_append, ih]
      by_cases hx : n = x
      · simp [hx]
      · have hne : (n == x) = false := beq_eq_false_iff_ne.mpr hx
        simp [hx, List.lookup_cons, hne]

end Walk

/-! ## The levels -/

variable {g : Deps} {members : List Nat} {start : Nat} {level : Nat → Nat} {w : Walk}

/-- The walk has seen nodes level by level. -/
structure Explored (g : Deps) (members : List Nat) (start : Nat) (level : Nat → Nat) (w : Walk) :
    Prop where
  start_seen : start ∈ w.visited
  start_level : level start = 0
  nodup : w.visited.Nodup
  inside : ∀ n ∈ w.visited, n ∈ members
  queued : ∀ n ∈ w.queue, n ∈ w.visited
  parent : ∀ n ∈ w.visited, n ≠ start → ∃ p ∈ w.visited, w.from_.lookup n = some p ∧
    g.Leads members p n ∧ level n = level p + 1
  sorted : w.queue.Pairwise fun a b => level a ≤ level b
  near : ∀ a ∈ w.queue, ∀ n ∈ w.visited, level n ≤ level a + 1
  /-- What holds of a node that had its turn. -/
  onward : ∀ n ∈ w.visited, n ∉ w.queue → ∀ d, g.Leads members n d →
    d ≠ start ∧ d ∈ w.visited ∧ level d ≤ level n + 1
  passed : ∀ n ∈ w.visited, n ∉ w.queue → ∀ a ∈ w.queue, level n ≤ level a
  last_seen : w.last ∈ w.visited
  last_level : ∀ n ∈ w.visited, n ∉ w.queue → level n ≤ level w.last

/-- The walk before its first visit. -/
def Walk.at (start : Nat) : Walk := ⟨[start], [start], [], start⟩

theorem explored_at (hstart : start ∈ members) :
    Explored g members start (fun _ => 0) (Walk.at start) where
  start_seen := List.mem_singleton_self start
  start_level := rfl
  nodup := List.nodup_singleton start
  inside := fun _ hn => List.mem_singleton.mp hn ▸ hstart
  queued := fun _ hn => hn
  parent := fun _ hn hne => absurd (List.mem_singleton.mp hn) hne
  sorted := List.pairwise_singleton _ start
  near := fun _ _ _ _ => Nat.zero_le _
  onward := fun _ hn hnot => absurd hn hnot
  passed := fun _ hn hnot => absurd hn hnot
  last_seen := List.mem_singleton_self start
  last_level := fun _ hn hnot => absurd hn hnot

/-- The walk visits `cur`, the front of its queue, and sees the nodes `fresh` from there. -/
structure Visit (g : Deps) (members : List Nat) (w : Walk) (cur : Nat) (queue fresh : List Nat) :
    Prop where
  front : w.queue = cur :: queue
  nodup : fresh.Nodup
  mem : ∀ d, d ∈ fresh ↔ g.Leads members cur d ∧ d ∉ w.visited

/-- The levels after a visit to `cur`: what was seen is one level above it. -/
def relevel (level : Nat → Nat) (cur : Nat) (fresh : List Nat) (n : Nat) : Nat :=
  if n ∈ fresh then level cur + 1 else level n

namespace Visit

variable {cur n : Nat} {queue fresh : List Nat}

theorem relevel_fresh (hn : n ∈ fresh) : relevel level cur fresh n = level cur + 1 := if_pos hn

theorem relevel_seen (v : Visit g members w cur queue fresh) (hn : n ∈ w.visited) :
    relevel level cur fresh n = level n :=
  if_neg fun hf => ((v.mem n).mp hf).2 hn

theorem mem_visited : n ∈ (w.after cur queue fresh).visited ↔ n ∈ fresh ∨ n ∈ w.visited := by
  simp [Walk.after]

theorem mem_queue : n ∈ (w.after cur queue fresh).queue ↔ n ∈ queue ∨ n ∈ fresh := by
  simp [Walk.after]

theorem front_mem (v : Visit g members w cur queue fresh) : cur ∈ w.queue :=
  v.front ▸ List.mem_cons_self

theorem rest_mem (v : Visit g members w cur queue fresh) {a : Nat} (ha : a ∈ queue) :
    a ∈ w.queue :=
  v.front ▸ List.mem_cons_of_mem cur ha

/-- A node that is out of the new queue was seen before, and is `cur` or had its turn. -/
theorem passed_cases (v : Visit g members w cur queue fresh)
    (hn : n ∈ (w.after cur queue fresh).visited) (hnot : n ∉ (w.after cur queue fresh).queue) :
    n ∈ w.visited ∧ (n = cur ∨ n ∉ w.queue) := by
  rw [mem_queue, not_or] at hnot
  refine ⟨(mem_visited.mp hn).resolve_left hnot.2, or_iff_not_imp_left.mpr fun hne hmem => ?_⟩
  rw [v.front] at hmem
  exact hnot.1 ((List.mem_cons.mp hmem).resolve_left hne)

section Kept

variable (v : Visit g members w cur queue fresh) (h : Explored g members start level w)

include v h

/-- The front of the queue has the least level in it. -/
theorem front_le : ∀ a ∈ queue, level cur ≤ level a :=
  (List.pairwise_cons.mp (v.front ▸ h.sorted)).1

/-- The new queue is not below `cur`. -/
theorem level_le_of_queue : ∀ a ∈ (w.after cur queue fresh).queue,
    level cur ≤ relevel level cur fresh a := by
  intro a ha
  rcases mem_queue.mp ha with ha | ha
  · rw [v.relevel_seen (h.queued a (v.rest_mem ha))]
    exact v.front_le h a ha
  · rw [relevel_fresh ha]
    exact Nat.le_succ _

/-- Nothing seen so far is further than one level past `cur`. -/
theorem level_le_succ : ∀ n ∈ (w.after cur queue fresh).visited,
    relevel level cur fresh n ≤ level cur + 1 := by
  intro n hn
  rcases mem_visited.mp hn with hn | hn
  · exact (relevel_fresh hn).le
  · rw [v.relevel_seen hn]
    exact h.near cur v.front_mem n hn

/-- What is out of the new queue is not above `cur`. -/
theorem level_le_of_passed : ∀ n ∈ (w.after cur queue fresh).visited,
    n ∉ (w.after cur queue fresh).queue → relevel level cur fresh n ≤ level cur := by
  intro n hn hnot
  obtain ⟨hold, hcase⟩ := v.passed_cases hn hnot
  rw [v.relevel_seen hold]
  rcases hcase with rfl | hdone
  · exact le_rfl
  · exact h.passed n hold hdone cur v.front_mem

theorem sorted_after : (w.after cur queue fresh).queue.Pairwise fun a b =>
    relevel level cur fresh a ≤ relevel level cur fresh b := by
  have hrest : ∀ a ∈ queue, relevel level cur fresh a = level a := fun a ha =>
    v.relevel_seen (h.queued a (v.rest_mem ha))
  refine List.pairwise_append.mpr ⟨?_, ?_, ?_⟩
  · refine ((List.pairwise_cons.mp (v.front ▸ h.sorted)).2).imp_of_mem fun ha hb hab => ?_
    rwa [hrest _ ha, hrest _ hb]
  · exact List.pairwise_of_forall_mem_list fun a ha b hb => by
      rw [relevel_fresh ha, relevel_fresh hb]
  · intro a ha b hb
    rw [hrest a ha, relevel_fresh hb]
    exact h.near cur v.front_mem a (h.queued a (v.rest_mem ha))

theorem parent_after : ∀ n ∈ (w.after cur queue fresh).visited, n ≠ start →
    ∃ p ∈ (w.after cur queue fresh).visited, (w.after cur queue fresh).from_.lookup n = some p ∧
      g.Leads members p n ∧ relevel level cur fresh n = relevel level cur fresh p + 1 := by
  intro n hn hne
  have hcur := h.queued cur v.front_mem
  rw [Walk.after, List.lookup_append, Walk.lookup_noted]
  by_cases hf : n ∈ fresh
  · refine ⟨cur, mem_visited.mpr (.inr hcur), by rw [if_pos hf]; rfl, ((v.mem n).mp hf).1, ?_⟩
    rw [relevel_fresh hf, v.relevel_seen hcur]
  · have hold := (mem_visited.mp hn).resolve_left hf
    obtain ⟨p, hp, hlookup, hleads, hlevel⟩ := h.parent n hold hne
    refine ⟨p, mem_visited.mpr (.inr hp), by rw [if_neg hf]; exact hlookup, hleads, ?_⟩
    rw [v.relevel_seen hold, v.relevel_seen hp, hlevel]

theorem onward_after (hback : ¬g.Leads members cur start) :
    ∀ n ∈ (w.after cur queue fresh).visited, n ∉ (w.after cur queue fresh).queue →
      ∀ d, g.Leads members n d → d ≠ start ∧ d ∈ (w.after cur queue fresh).visited ∧
        relevel level cur fresh d ≤ relevel level cur fresh n + 1 := by
  intro n hn hnot d hleads
  obtain ⟨hold, hcase⟩ := v.passed_cases hn hnot
  rw [v.relevel_seen hold]
  rcases hcase with rfl | hdone
  · have hd : d ∈ (w.after n queue fresh).visited := by
      rw [mem_visited, v.mem]
      exact (em (d ∈ w.visited)).symm.imp (⟨hleads, ·⟩) id
    exact ⟨fun heq => hback (heq ▸ hleads), hd, v.level_le_succ h d hd⟩
  · obtain ⟨haway, hd, hlevel⟩ := h.onward n hold hdone d hleads
    exact ⟨haway, mem_visited.mpr (.inr hd), by rwa [v.relevel_seen hd]⟩

end Kept

end Visit

/-- **One visit keeps the levels.** -/
theorem Explored.after {cur : Nat} {queue fresh : List Nat} (h : Explored g members start level w)
    (v : Visit g members w cur queue fresh) (hback : ¬g.Leads members cur start) :
    Explored g members start (relevel level cur fresh) (w.after cur queue fresh) where
  start_seen := Visit.mem_visited.mpr (.inr h.start_seen)
  start_level := by rw [v.relevel_seen h.start_seen, h.start_level]
  nodup := List.nodup_append'.mpr ⟨List.nodup_reverse.mpr v.nodup, h.nodup, fun n hn =>
    ((v.mem n).mp (List.mem_reverse.mp hn)).2⟩
  inside := fun n hn =>
    (Visit.mem_visited.mp hn).elim (fun hf => ((v.mem n).mp hf).1.2) (h.inside n)
  queued := fun n hn => Visit.mem_visited.mpr <| (Visit.mem_queue.mp hn).symm.imp id fun hn =>
    h.queued n (v.rest_mem hn)
  parent := v.parent_after h
  sorted := v.sorted_after h
  near := fun a ha n hn =>
    (v.level_le_succ h n hn).trans (Nat.succ_le_succ (v.level_le_of_queue h a ha))
  onward := v.onward_after h hback
  passed := fun n hn hnot a ha =>
    (v.level_le_of_passed h n hn hnot).trans (v.level_le_of_queue h a ha)
  last_seen := Visit.mem_visited.mpr (.inr (h.queued cur v.front_mem))
  last_level := fun n hn hnot => by
    rw [show (w.after cur queue fresh).last = cur from rfl,
      v.relevel_seen (h.queued cur v.front_mem)]
    exact v.level_le_of_passed h n hn hnot

/-! ## Levels are distances -/

/-- A way goes on by one step. -/
theorem isChain_snoc {r : Nat → Nat → Prop} {path : List Nat} {n d : Nat} (h : path.IsChain r)
    (hlast : path.getLast? = some n) (hstep : r n d) : (path ++ [d]).IsChain r := by
  refine h.append (.singleton d) fun x hx y hy => ?_
  rw [hlast] at hx
  obtain rfl := Option.some.inj hx
  obtain rfl := Option.some.inj hy
  exact hstep

/-- **A seen node has a way back of the length of its level.**  On it levels rise, so that no node
is met twice. -/
theorem Explored.exists_traced (h : Explored g members start level w) :
    ∀ {n : Nat}, n ∈ w.visited → ∃ path, Traced w.from_ start n path ∧ path.length = level n ∧
      (start :: path).getLast? = some n ∧ (start :: path).IsChain (g.Leads members) ∧
      (∀ x ∈ path, x ∈ w.visited ∧ x ≠ start) ∧
      (start :: path).Pairwise (fun a b => level a < level b) := by
  intro n
  induction hl : level n generalizing n with
  | zero =>
      intro hn
      obtain rfl : n = start := by
        by_contra hne
        obtain ⟨p, -, -, -, hlevel⟩ := h.parent n hn hne
        omega
      exact ⟨[], .start, rfl, rfl, .singleton n, by simp, List.pairwise_singleton _ n⟩
  | succ k ih =>
      intro hn
      have hne : n ≠ start := by
        rintro rfl
        rw [h.start_level] at hl
        omega
      obtain ⟨p, hp, hlookup, hleads, hlevel⟩ := h.parent n hn hne
      obtain ⟨path, htraced, hlen, hlast, hchain, hseen, hrise⟩ := ih (n := p) (by omega) hp
      have hbelow : ∀ x ∈ start :: path, level x < level n := by
        intro x hx
        have hle : level x ≤ level p := by
          obtain ⟨ys, hys⟩ := List.getLast?_eq_some_iff.mp hlast
          rw [hys] at hx hrise
          rcases List.mem_append.mp hx with hx | hx
          · exact ((List.pairwise_append.mp hrise).2.2 x hx p (List.mem_singleton_self p)).le
          · rw [List.mem_singleton.mp hx]
        omega
      refine ⟨path ++ [n], .step hne hlookup htraced, by simp [hlen], ?_, ?_, ?_, ?_⟩
      · rw [← List.cons_append, List.getLast?_concat]
      · exact isChain_snoc hchain hlast hleads
      · intro x hx
        rcases List.mem_append.mp hx with hx | hx
        · exact hseen x hx
        · exact List.mem_singleton.mp hx ▸ ⟨hn, hne⟩
      · rw [← List.cons_append]
        exact List.pairwise_append.mpr ⟨hrise, List.pairwise_singleton _ n, fun x hx y hy =>
          List.mem_singleton.mp hy ▸ hbelow x hx⟩

/-- The bound on the way back is never reached. -/
theorem Explored.pathTo_eq (h : Explored g members start level w) {n : Nat} (hn : n ∈ w.visited) :
    ∃ path, Traced w.from_ start n path ∧ w.pathTo start n = start :: path := by
  obtain ⟨path, htraced, -, -, -, hseen, hrise⟩ := h.exists_traced hn
  have hnodup : path.Nodup := (List.pairwise_cons.mp hrise).2.imp fun hab heq => by
    rw [heq] at hab
    exact lt_irrefl _ hab
  have hkeys : path ⊆ w.from_.map (·.1) := by
    intro x hx
    obtain ⟨hx, hne⟩ := hseen x hx
    obtain ⟨p, -, hlookup, -⟩ := h.parent x hx hne
    obtain ⟨before, after, hsplit, -⟩ := List.lookup_eq_some_iff.mp hlookup
    exact List.mem_map.mpr ⟨(x, p), by simp [hsplit], rfl⟩
  have hlen := (hnodup.subperm hkeys).length_le
  rw [List.length_map] at hlen
  exact ⟨path, htraced, by rw [Walk.pathTo, htraced.backTo_eq (Nat.lt_succ_of_le hlen)]⟩

/-- **What is nearer than the queue was seen at its distance**, and had its turn. -/
theorem Explored.mem_visited_of_chain (h : Explored g members start level w) {other : List Nat}
    {n : Nat} (hchain : (start :: other).IsChain (g.Leads members))
    (hlast : (start :: other).getLast? = some n)
    (hnear : ∀ a ∈ w.queue, other.length < level a) :
    n ∈ w.visited ∧ n ∉ w.queue ∧ level n ≤ other.length := by
  induction other using List.reverseRecOn generalizing n with
  | nil =>
      obtain rfl : start = n := by simpa using hlast
      refine ⟨h.start_seen, fun hmem => ?_, h.start_level.le⟩
      have hlt := hnear start hmem
      rw [h.start_level] at hlt
      exact absurd hlt (Nat.not_lt_zero _)
  | append_singleton other x ih =>
      rw [← List.cons_append] at hchain hlast
      obtain rfl : x = n := by simpa only [List.getLast?_concat, Option.some.injEq] using hlast
      obtain ⟨hfront, -, hstep⟩ := List.isChain_append.mp hchain
      obtain ⟨y, hy⟩ : ∃ y, (start :: other).getLast? = some y :=
        Option.isSome_iff_exists.mp (by simp)
      rw [List.length_append, List.length_singleton] at hnear ⊢
      obtain ⟨hseen, hdone, hlevel⟩ := ih hfront hy fun a ha => by
        have := hnear a ha
        omega
      obtain ⟨-, hx, hle⟩ := h.onward y hseen hdone x (hstep y hy x rfl)
      refine ⟨hx, fun hmem => ?_, by omega⟩
      have := hnear x hmem
      omega

/-! ## The whole walk -/

/-- What a walk gives when nothing bounds the number of its visits. -/
inductive Ends (g : Deps) (members : List Nat) (start : Nat) : Walk → List Nat → Prop where
  /-- There is nothing left to visit. -/
  | idle {w : Walk} {path : List Nat} (empty : w.queue = [])
      (back : Traced w.from_ start w.last path) : Ends g members start w (start :: path)
  /-- The visited node leads back to the start. -/
  | met {w : Walk} {cur : Nat} {queue path : List Nat} (front : w.queue = cur :: queue)
      (meets : g.Leads members cur start) (back : Traced w.from_ start cur path) :
      Ends g members start w (start :: path ++ [start])
  /-- It does not, and the walk goes on. -/
  | visit {w : Walk} {cur : Nat} {queue fresh result : List Nat}
      (v : Visit g members w cur queue fresh) (misses : ¬g.Leads members cur start)
      (rest : Ends g members start (w.after cur queue fresh) result) : Ends g members start w result

/-- **The walk ends within its bound.**  Every visit takes a node from the queue and adds those that
it sees to the queue and to the seen nodes, of which there are no more than members. -/
theorem Explored.ends_walkFrom (fuel : Nat) : ∀ {level : Nat → Nat} {w : Walk},
    Explored g members start level w →
      w.queue.length + (members.length - w.visited.length) < fuel →
      Ends g members start w (walkFrom g members start fuel w) := by
  induction fuel with
  | zero => exact fun _ hfuel => absurd hfuel (Nat.not_lt_zero _)
  | succ fuel ih =>
      intro level w h hfuel
      rw [walkFrom]
      cases hqueue : w.queue with
      | nil =>
          obtain ⟨path, htraced, hpath⟩ := h.pathTo_eq h.last_seen
          rw [hpath]
          exact .idle hqueue htraced
      | cons cur queue =>
          have hcur : cur ∈ w.queue := hqueue ▸ List.mem_cons_self
          by_cases hback : g.Leads members cur start
          · have hcontains : ((g.deps cur).filter members.contains).contains start = true := by
              simpa using Deps.mem_filter_deps.mpr hback
            obtain ⟨path, htraced, hpath⟩ := h.pathTo_eq (h.queued cur hcur)
            have hsame : Walk.pathTo { w with queue, last := cur } start cur = start :: path :=
              hpath
            simp only [hcontains, if_true, hsame]
            exact .met hqueue hback htraced
          · have hcontains : ((g.deps cur).filter members.contains).contains start = false := by
              simpa using fun hmem => hback (Deps.mem_filter_deps.mp hmem)
            obtain ⟨fresh, heq, hnodup, hmem⟩ := Walk.exists_fresh cur
              ((g.deps cur).filter members.contains) { w with queue, last := cur }
            have v : Visit g members w cur queue fresh :=
              ⟨hqueue, hnodup, fun d => (hmem d).trans (and_congr_left' Deps.mem_filter_deps)⟩
            have hafter := h.after v hback
            have hroom := (hafter.nodup.subperm hafter.inside).length_le
            simp only [hcontains, Bool.false_eq_true, if_false, heq]
            refine .visit v hback (ih hafter ?_)
            simp only [Walk.after, hqueue, List.length_append, List.length_reverse,
              List.length_cons] at hfuel hroom ⊢
            omega

/-- **How a walk ends.**  Either the front of the queue leads back to the start, or the queue is
empty; the levels are kept until then. -/
theorem Ends.outcome {result : List Nat} (hends : Ends g members start w result) :
    ∀ {level : Nat → Nat}, Explored g members start level w → ∃ level' w',
      Explored g members start level' w' ∧
      ((∃ cur queue path, w'.queue = cur :: queue ∧ g.Leads members cur start ∧
          Traced w'.from_ start cur path ∧ result = start :: path ++ [start]) ∨
        (∃ path, w'.queue = [] ∧ Traced w'.from_ start w'.last path ∧ result = start :: path)) := by
  induction hends with
  | @idle w path empty back =>
      exact fun {level} h => ⟨level, w, h, .inr ⟨path, empty, back, rfl⟩⟩
  | @met w cur queue path front meets back =>
      exact fun {level} h => ⟨level, w, h, .inl ⟨cur, queue, path, front, meets, back, rfl⟩⟩
  | visit v misses _ ih => exact fun h => ih (h.after v misses)

end WireSchema.Graph
