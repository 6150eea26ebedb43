import WireSchema.Resolve.Counts
import WireSchema.Resolve.Cycles
import WireSchema.Resolve.InitialValues
import WireSchema.Resolve.Types

/-!
# Resolution

Resolution binds every name of a model: parents, then attribute types and counts type by type, then
initial values, and finally checks that no type contains itself.  All findings are collected before
any is reported.  The model is returned with its links filled in as far as they bind.
-/

namespace WireSchema

/-- A resolved model with what was found on the way. -/
structure Resolution where
  model : Model
  report : Report
  /-- The message types so that each follows what it contains; empty when there is a cycle. -/
  order : List Nat
  deriving Repr

namespace Resolve

/-- Applies a step to every message type and collects what it finds. -/
def onClasses (m : Model) (step : Nat → Class → Class × Report) : Model × Report :=
  let results := m.classes.mapIdx step
  ({ m with classes := results.map (·.1) }, .join (results.map (·.2)))

/-- Binds the attributes and counts of the message type at `i`. -/
def bindClass (sc : Scope) (i : Nat) (c : Class) : Class × Report :=
  let results := c.attributes.map (bindAttribute sc c.name)
  let (attributes, found) := bindCounts sc c.name i (results.map (·.1))
  ({ c with attributes }, .join (results.map (·.2)) ++ found)

/-- How many suggestions an unknown name gets unless asked otherwise. -/
def defaultSuggestions : Int := 3

/-- What is said when there is no model to resolve. -/
def absentModel : String := "model is required"

/-- Binds every name of a model. -/
def run (catalog : Catalog) (limit : Int) (m : Model) : Resolution :=
  let sc : Scope := ⟨catalog, m.classNames, limit⟩
  let repeated := repeatedNames [] m.classes
  let (m, parents) := onClasses m fun _ c => bindParent sc c
  let (m, attributes) := onClasses m (bindClass sc)
  let (m, values) := onClasses m (bindInitialValues sc m)
  let (order, cycles) := checkCycles m
  ⟨m, (repeated ++ parents ++ attributes ++ values ++ cycles).sort, order⟩

end Resolve

namespace Resolution

/-- What a failed resolution is called. -/
def unresolvedText : String := "schema does not resolve"

/-- Every name was bound. -/
def succeeded (r : Resolution) : Bool := !r.report.hasErrors

/-- The failure in words, if it failed. -/
def errorText? (r : Resolution) : Option String :=
  r.report.errorText?.map fun t => unresolvedText ++ ": " ++ t

end Resolution

end WireSchema
