import WireSchema.Graph.Path
import WireSchema.Resolve.Scope

/-!
# Containment by value

A message contains its parent part, its embedded messages and the elements of its fixed lists.  If
that leads back to itself it has no finite default value, which is an error on every member of the
cycle.  A variable list may hold messages of its own type: an empty list ends the recursion.
Without cycles the message types have an order in which each follows what it contains.
-/

namespace WireSchema.Resolve

/-- The places of the message types that their names mean. -/
def nodes (m : Model) : List Nat :=
  (List.range m.classes.length).filter fun i => m.classIndex? (m.className i) == some i

/-- The places of what a message type contains by value. -/
def contained (c : Class) : List Nat :=
  c.parentClass?.toList ++
    c.attributes.filterMap fun a => if a.isVariableList then none else a.class?

/-- Containment among the nodes. -/
def containment (m : Model) : Graph.Deps :=
  let ns := nodes m
  { size := ns.length
    deps := fun i =>
      match ns[i]?.bind (m.classes[·]?) with
      | some c => (contained c).filterMap fun j => ns.findIdx? (· == j)
      | none => [] }

/-- The error for a cycle member. -/
def cycleError (m : Model) (ns : List Nat) (g : Graph.Deps) (members : List Nat) (i : Nat) :
    Report :=
  let name (k : Nat) : String := (ns[k]?.map m.className).getD ""
  .error Diagnostic.compositionCycle
    (name i ++ " contains itself by value: " ++
      Text.joinWith " -> " ((Graph.cyclePath g members i).map name)) (name i) ""

/-- The message types in containment order, empty when there is a cycle, and the cycle errors. -/
def checkCycles (m : Model) : List Nat × Report :=
  let ns := nodes m
  let g := containment m
  let placed := g.order
  if placed.length = g.size then (placed.filterMap (ns[·]?), .empty)
  else
    let members := g.cycleMembers
    ([], .join (members.map (cycleError m ns g members)))

end WireSchema.Resolve
