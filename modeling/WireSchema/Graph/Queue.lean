import WireSchema.Graph.Deps

/-!
# The order by a queue

`Deps.order` looks through all nodes for each one that it places.  The queue counts instead: each
node has the number of its dependencies that are not placed yet, an entry that is listed twice
counted twice.  When a node is placed, the numbers of those that depend on it fall by one for each
entry, and whoever comes down to zero joins the nodes that are ready, which are kept sorted.
-/

namespace WireSchema.Graph

/-- A queue of nodes. -/
structure Queue where
  /-- How many entries each node still waits for. -/
  waiting : Array Nat
  /-- The nodes that wait for nothing, smallest first. -/
  ready : List Nat
  /-- The nodes that had their turn. -/
  placed : List Nat
  deriving DecidableEq, Repr

namespace Queue

/-- Puts a node before the first one that is not smaller. -/
def insert (j : Nat) : List Nat → List Nat
  | [] => [j]
  | k :: rest => if j ≤ k then j :: k :: rest else k :: insert j rest

/-- One entry of `j` was placed. -/
def release (q : Queue) (j : Nat) : Queue :=
  let waiting := q.waiting.modify j (· - 1)
  if waiting[j]? = some 0 then { q with waiting, ready := insert j q.ready } else { q with waiting }

end Queue

namespace Deps

/-- The nodes that depend on `d`, each as often as it lists `d`. -/
def dependents (g : Deps) (d : Nat) : List Nat :=
  (List.range g.size).flatMap fun i => List.replicate ((g.deps i).count d) i

/-- The queue before any node is placed. -/
def queue (g : Deps) : Queue where
  waiting := ((List.range g.size).map fun i => (g.deps i).length).toArray
  ready := (List.range g.size).filter fun i => (g.deps i).isEmpty
  placed := []

/-- Places up to `fuel` more nodes. -/
def drain (g : Deps) : (fuel : Nat) → Queue → Queue
  | 0, q => q
  | fuel + 1, q =>
      match q.ready with
      | [] => q
      | i :: ready =>
          g.drain fuel ((g.dependents i).foldl .release { q with ready, placed := q.placed ++ [i] })

/-- The nodes in the order in which the queue places them. -/
def queued (g : Deps) : List Nat := (g.drain g.size g.queue).placed

end Deps

end WireSchema.Graph
