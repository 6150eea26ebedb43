import WireSchema.Graph.Deps
import WireSchema.Plan.Check
import WireSchema.Plan.Derive

/-!
# Plans of a whole model

Every message type is checked and planned by itself.  A type with errors is rejected, and so is
every type that uses a rejected one, as a parent or as a member; what remains is linked and ordered
so that parents come first.
-/

namespace WireSchema

/-- The plans of a model. -/
structure PlanSet where
  /-- The accepted plans in the order of declaration; parents are positions in this list. -/
  accepted : List Plan
  /-- The accepted plans with every parent before its children, by position. -/
  order : List Nat
  /-- The names of the rejected types in the order of declaration. -/
  rejected : List String
  report : Report
  deriving Repr

namespace PlanSet

/-- A plan that could not be derived although its type passed every check. -/
structure Failure where
  type : String
  cause : Plan.DeriveError
  deriving DecidableEq, Repr

/-- The failure in words. -/
def Failure.message (f : Failure) : String := "derive " ++ f.type ++ ": " ++ f.cause.message

/-- What became of one message type. -/
structure Outcome where
  cls : Class
  plan? : Option Plan
  report : Report

/-- Checks and plans the message type at `i`. -/
def outcomeOf (sized : Bool) (m : Model) (i : Nat) (c : Class) : Except Failure Outcome :=
  let report := Plan.check sized m i c
  if report.hasErrors then .ok ⟨c, none, report⟩
  else
    match Plan.derive sized m c with
    | .ok p => .ok ⟨c, some p, report⟩
    | .error e => .error ⟨c.name, e⟩

/-- The types whose plans a type relies on: its parent, then the types of its members. -/
def dependencies (m : Model) (c : Class) : List String :=
  Report.distinct
    ((if c.hasParent then [c.parent] else []) ++
      c.attributes.filterMap fun a => a.class?.map m.className)

/-- The first attribute that holds messages of a type. -/
def firstUse (m : Model) (c : Class) (type : String) : String :=
  ((c.attributes.find? fun a => a.class?.map m.className == some type).map (·.name)).getD ""

/-- Names rejected so far, with the findings that explain them. -/
structure Rejection where
  names : List String
  report : Report

/-- Rejects a type if it relies on a rejected one. -/
def Rejection.consider (m : Model) (r : Rejection) (o : Outcome) : Rejection :=
  if o.plan?.isNone || r.names.contains o.cls.name then r
  else
    match (dependencies m o.cls).find? r.names.contains with
    | none => r
    | some dep =>
        let field := if dep = o.cls.parent then "" else firstUse m o.cls dep
        ⟨o.cls.name :: r.names,
          r.report ++ .error Diagnostic.unsupportedShape ("depends on rejected type " ++ dep)
            o.cls.name field⟩

/-- Considers every type again until nothing new is rejected. -/
def Rejection.spread (m : Model) (outcomes : List Outcome) : (fuel : Nat) → Rejection → Rejection
  | 0, r => r
  | fuel + 1, r =>
      let next := outcomes.foldl (Rejection.consider m) r
      if next.names.length = r.names.length then r else Rejection.spread m outcomes fuel next

/-- The position of the last plan called `name`. -/
def position? (plans : List Plan) (name : String) : Option Nat :=
  (plans.mapIdx fun i p => (p.name, i)).reverse.lookup name

/-- Links every plan to its parent's. -/
def link (plans : List Plan) : List Plan :=
  plans.map fun p =>
    if p.hasParent then { p with parent? := position? plans p.parentName } else p

/-- The positions of the plans, parents first and otherwise as they are.  If parents go in a circle
the plans stay as they are. -/
def parentsFirst (plans : List Plan) : List Nat :=
  let g : Graph.Deps :=
    ⟨plans.length, fun i => ((plans[i]?.bind (·.parent?)).map ([·])).getD []⟩
  if g.order.length = plans.length then g.order else List.range plans.length

/-- Rejects, links and orders. -/
def ofOutcomes (m : Model) (outcomes : List Outcome) : PlanSet :=
  let start : Rejection :=
    ⟨(outcomes.filter (·.plan?.isNone)).map (·.cls.name), .join (outcomes.map (·.report))⟩
  let r := start.spread m outcomes (outcomes.length + 1)
  let isRejected (o : Outcome) : Bool := r.names.contains o.cls.name
  let accepted := link ((outcomes.filter fun o => !isRejected o).filterMap (·.plan?))
  { accepted
    order := parentsFirst accepted
    rejected := Report.distinct ((outcomes.filter isRejected).map (·.cls.name))
    report := r.report.sort }

/-- The plans of a resolved model. -/
def derive (sized : Bool) (m : Model) : Except Failure PlanSet := do
  let outcomes ← (m.classes.mapIdx fun i c => (i, c)).mapM fun (i, c) => outcomeOf sized m i c
  return ofOutcomes m outcomes

/-- The accepted plans, parents first. -/
def plans (s : PlanSet) : List Plan := s.order.filterMap fun i => s.accepted[i]?

/-- The accepted plan called `name`. -/
def plan? (s : PlanSet) (name : String) : Option Plan :=
  (position? s.accepted name).bind fun i => s.accepted[i]?

/-- The type called `name` was rejected. -/
def isRejected (s : PlanSet) (name : String) : Bool := s.rejected.contains name

/-- A plan followed by its ancestors' plans. -/
def chainFrom (s : PlanSet) : (fuel : Nat) → Plan → List Plan
  | 0, p => [p]
  | fuel + 1, p =>
      p :: (match p.parent?.bind fun i => s.accepted[i]? with
        | some q => s.chainFrom fuel q
        | none => [])

/-- A plan followed by its ancestors' plans, nearest first. -/
def chain (s : PlanSet) (p : Plan) : List Plan := s.chainFrom s.accepted.length p

/-- The field called `name` of a plan or of its nearest ancestor that has one. -/
def lookupField (s : PlanSet) (p : Plan) (name : String) : Option Plan.Field :=
  (s.chain p).findSome? (·.field? name)

end PlanSet

end WireSchema
