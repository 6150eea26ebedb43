import WireSchema.Graph.Deps

/-!
# Cycles through a node

`cyclePath` walks the graph breadth first from a cycle member, staying among the members, until it
meets the start again; the path found is then a shortest cycle.  From a node that only lies between
cycles it cannot come back, and the path to the node visited last is given instead.
-/

namespace WireSchema.Graph

/-- The state of a breadth-first walk: nodes to visit, nodes seen, and for each node but the start
the node it was first seen from. -/
structure Walk where
  queue : List Nat
  visited : List Nat
  from_ : List (Nat × Nat)
  last : Nat

/-- The nodes from just after `start` to `n`, found by going back along the walk. -/
def backTo (from_ : List (Nat × Nat)) (start : Nat) : (fuel : Nat) → Nat → List Nat
  | 0, _ => []
  | fuel + 1, n =>
      if n = start then []
      else
        match from_.lookup n with
        | some p => backTo from_ start fuel p ++ [n]
        | none => [n]

namespace Walk

/-- Sees the node `d` from `cur`. -/
def see (w : Walk) (cur d : Nat) : Walk :=
  if w.visited.contains d then w
  else { w with
    queue := w.queue ++ [d], visited := d :: w.visited, from_ := (d, cur) :: w.from_ }

/-- The path from the start to `n`. -/
def pathTo (w : Walk) (start n : Nat) : List Nat :=
  start :: backTo w.from_ start (w.from_.length + 1) n

end Walk

/-- Visits up to `fuel` nodes. -/
def walkFrom (g : Deps) (members : List Nat) (start : Nat) : (fuel : Nat) → Walk → List Nat
  | 0, w => w.pathTo start w.last
  | fuel + 1, w =>
      match w.queue with
      | [] => w.pathTo start w.last
      | cur :: queue =>
          let w := { w with queue, last := cur }
          let next := (g.deps cur).filter members.contains
          if next.contains start then w.pathTo start cur ++ [start]
          else walkFrom g members start fuel (next.foldl (fun w d => w.see cur d) w)

/-- A shortest cycle through `start` among the members, or the path to the last node reached. -/
def cyclePath (g : Deps) (members : List Nat) (start : Nat) : List Nat :=
  walkFrom g members start (g.size + 1) ⟨[start], [start], [], start⟩

end WireSchema.Graph
