import WireSchema.Graph.Queue

/-!
# The order of given dependencies

Dependencies are given in rows, one for each node, and a row may hold numbers that are no nodes.
The first of these is reported; otherwise the queue places the nodes as far as that goes.
-/

namespace WireSchema.Graph

/-- Why no order was found. -/
inductive OrderError where
  | outOfRange (node : Nat) (dep : Int)
  | cycle
  deriving DecidableEq, Repr

/-- The error in words. -/
def OrderError.message : OrderError → String
  | .outOfRange node dep =>
      "dependency index out of range: " ++ toString node ++ " depends on " ++ toString dep
  | .cycle => "cycle detected"

/-- Rows of dependencies as given from outside, where an entry may be out of range. -/
structure Rows where
  size : Nat
  rows : List (List Int)

namespace Rows

/-- The dependencies in a row. -/
def row (g : Rows) (i : Nat) : List Int := g.rows[i]?.getD []

/-- The first entry that is no node. -/
def outOfRange? (g : Rows) : Option (Nat × Int) :=
  (List.range g.size).findSome? fun i =>
    ((g.row i).find? fun d => decide (d < 0 ∨ (g.size : Int) ≤ d)).map fun d => (i, d)

/-- The graph of the entries that are nodes. -/
def toDeps (g : Rows) : Deps :=
  ⟨g.size, fun i => (g.row i).filterMap fun d =>
    if 0 ≤ d ∧ d < (g.size : Int) then some d.toNat else none⟩

/-- The order of the nodes and what stopped it, if anything did. -/
def order (g : Rows) : List Nat × Option OrderError :=
  match g.outOfRange? with
  | some (i, d) => ([], some (.outOfRange i d))
  | none =>
      let placed := g.toDeps.queued
      (placed, if placed.length = g.size then none else some .cycle)

/-- The cycle members.  With an entry out of range every node counts as unplaced. -/
def cycleMembers (g : Rows) : List Nat :=
  match g.outOfRange? with
  | some _ => g.toDeps.peel g.size (List.range g.size)
  | none => g.toDeps.cycleMembers

end Rows

end WireSchema.Graph
