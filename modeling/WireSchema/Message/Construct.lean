import WireSchema.Message.Access

/-!
# Constructing messages

A new message has its parent part first, then the first values of its own fields, then the initial
values its type assigns, in the order of their declaration.
-/

namespace WireSchema.Message

/-- Messages are added to a store. -/
abbrev Build (α : Type) : Type := Action Store α

/-- Adds a message to the store. -/
def allocate (c : Cell) : Build Id := do
  let (id, st) := (← get).alloc c
  set st
  return id

/-- The machine does not make a list of the length asked for. -/
def tooLong : Cause := .fault "runtime error: makeslice: len out of range"

/-- The length of a list that the machine makes. -/
def listLength (rt : Runtime) (n : Int) : Except Failure Nat :=
  if 0 ≤ n ∧ rt.makes n then .ok n.toNat else .error (.of tooLong)

/-- A new message of a type, made by `make` from the position of its plan. -/
def newWith (rt : Runtime) (make : Nat → Build Id) (type : String) : Build Id :=
  match rt.position? type with
  | some i => make i
  | none => throw (.at_ type .unknownType)

/-- The first item of an element type: zero, or a new message. -/
def zeroItem (rt : Runtime) (make : Nat → Build Id) : Element → Build Item
  | .primitive t => return .scalar t.zero
  | .message type => return .message (← newWith rt make type)

/-- The first value of a field. -/
def defaultValue (rt : Runtime) (make : Nat → Build Id) (d : Plan.FieldDefault) : Build Value :=
  match d.rule with
  | .value s _ => return .single (.scalar s)
  | .construct => return .single (← zeroItem rt make d.elem)
  | .zeroList n => do
      let n ← listLength rt n
      return .list (← (List.replicate n d.elem).mapM (zeroItem rt make))
  | .emptyList => return .list []

/-- The parent part of a new message. -/
def parentPart (make : Nat → Build Id) (p : Plan) : Build (Option Id) :=
  if p.hasParent then
    match p.parent? with
    | some j => return some (← make j)
    | none => throw (.at_ ("parent " ++ p.parentName ++ " of " ++ p.name) .unknownType)
  else return none

/-- Makes one assignment on a new message. -/
def assign (rt : Runtime) (id : Id) (a : Plan.Assignment) : Build Unit := do
  set (← setOn rt (← get) id a.owner a.field (.datum (.scalar a.value)))

/-- A new message of the plan at `i`; its parts are made by `make`. -/
def constructWith (rt : Runtime) (make : Nat → Build Id) (i : Nat) : Build Id := do
  let some p := rt.plans[i]? | throw .missingPart
  let parent? ← parentPart make p
  let fields ← p.defaults.foldlM (fun fields d => do
    let v ← within (p.name ++ "." ++ d.field) (defaultValue rt make d)
    return putField d.field v fields) []
  let id ← allocate ⟨i, parent?, fields⟩
  for a in p.assignments do
    within (p.name ++ " initial value " ++ a.setter) (assign rt id a)
  return id

/-- A new message of the plan at a position, with parts nested at most `depth` deep. -/
def construct (rt : Runtime) : (depth : Nat) → Nat → Build Id
  | 0, _ => throw (.of .tooDeep)
  | depth + 1, i => constructWith rt (construct rt depth) i

/-- A new message of a type.  Types that hold each other by value are not accepted, so no message
nests deeper than there are plans. -/
def new (rt : Runtime) (type : String) : Build Id :=
  newWith rt (construct rt (rt.plans.size + 1)) type

end WireSchema.Message
