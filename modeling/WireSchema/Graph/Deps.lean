/-!
# Dependencies

Nodes are `0 … n - 1`; `deps i` lists what must come before `i`.  `order` takes, again and again,
the smallest node whose dependencies are all placed, so that ties keep the order of the nodes.
Nodes that reach a cycle are never placed.
-/

namespace WireSchema.Graph

/-- The nodes with their dependencies. -/
structure Deps where
  size : Nat
  deps : Nat → List Nat

namespace Deps

/-- A node that is not placed and whose dependencies all are. -/
def isReady (g : Deps) (placed : List Nat) (i : Nat) : Bool :=
  !placed.contains i && (g.deps i).all placed.contains

/-- The smallest ready node. -/
def nextReady? (g : Deps) (placed : List Nat) : Option Nat :=
  (List.range g.size).find? (g.isReady placed)

/-- Places up to `fuel` more nodes. -/
def extend (g : Deps) : (fuel : Nat) → List Nat → List Nat
  | 0, placed => placed
  | fuel + 1, placed =>
      match g.nextReady? placed with
      | some i => g.extend fuel (placed ++ [i])
      | none => placed

/-- The nodes in dependency order, as far as they can be placed. -/
def order (g : Deps) : List Nat := g.extend g.size []

/-- The nodes in `left` that another node in `left` needs. -/
def neededIn (g : Deps) (left : List Nat) : List Nat :=
  left.filter fun d => left.any fun i => (g.deps i).contains d

/-- Drops the nodes that nothing left depends on until there are none. -/
def peel (g : Deps) : (fuel : Nat) → List Nat → List Nat
  | 0, left => left
  | fuel + 1, left =>
      let kept := g.neededIn left
      if kept.length = left.length then left else g.peel fuel kept

/-- The nodes that were never placed. -/
def unplaced (g : Deps) (placed : List Nat) : List Nat :=
  (List.range g.size).filter fun i => !placed.contains i

/-- The nodes on a cycle or on a path between cycles. -/
def cycleMembers (g : Deps) : List Nat := g.peel g.size (g.unplaced g.order)

end Deps

end WireSchema.Graph
