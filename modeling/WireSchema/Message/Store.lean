import WireSchema.Message.Failure
import WireSchema.Plan.Set

/-!
# Messages in a store

A store holds messages under numbers, so that one message can sit in several places.  A message is
a cell: the plan it follows, its parent part, which is a message of its own, and the values of its
own stored fields.  A list is a value: it has storage of its own, and no other field shows what is
done to it.  Two fields that were given the same storage from outside have no counterpart here.

Values offered from outside are wider than stored ones; `Access` decides which can be stored where.
-/

namespace WireSchema.Message

/-- A message, by its number in the store. -/
abbrev Id : Type := Nat

/-- A single stored value. -/
inductive Item where
  | scalar (s : Scalar)
  | message (id : Id)
  deriving DecidableEq, Repr

/-- The value of a field. -/
inductive Value where
  | single (item : Item)
  | list (items : List Item)
  deriving DecidableEq, Repr

/-- The name of the type of lists. -/
def listTypeName : String := "[]interface \x7b\x7d"

/-- The name of the type of messages. -/
def messageTypeName : String := "*interp.Instance"

/-- The name of an item's type. -/
def Item.typeName : Item → String
  | .scalar s => s.kind.typeName
  | .message _ => messageTypeName

/-- The name of a value's type. -/
def Value.typeName : Value → String
  | .single i => i.typeName
  | .list _ => listTypeName

/-- A value that someone wants to store. -/
inductive Offer where
  | datum (d : Datum)
  | message (id : Id)
  /-- A reference to no message. -/
  | noMessage
  | list (items : List Offer)

/-- The name of an offered value's type. -/
def Offer.typeName : Offer → String
  | .datum d => d.typeName
  | .message _ | .noMessage => messageTypeName
  | .list _ => listTypeName

/-- One message. -/
structure Cell where
  /-- The position of the message's plan. -/
  plan : Nat
  parent? : Option Id
  fields : List (String × Value)
  deriving DecidableEq, Repr

/-- Puts a value under a name, in place of the one that is there. -/
def putField (name : String) (v : Value) : List (String × Value) → List (String × Value)
  | [] => [(name, v)]
  | (n, w) :: rest => if n = name then (n, v) :: rest else (n, w) :: putField name v rest

namespace Cell

/-- The value of a field. -/
def value? (c : Cell) (field : String) : Option Value := c.fields.lookup field

/-- The list in a field; empty if there is none. -/
def list (c : Cell) (field : String) : List Item :=
  match c.value? field with
  | some (.list items) => items
  | _ => []

/-- The message in a field. -/
def message (c : Cell) (field : String) : Except Failure Id :=
  match c.value? field with
  | some (.single (.message id)) => .ok id
  | some v => .error (.badForm v.typeName messageTypeName)
  | none => .error (.badForm "nil" messageTypeName)

/-- The message with a new value in a field. -/
def put (c : Cell) (field : String) (v : Value) : Cell :=
  { c with fields := putField field v c.fields }

end Cell

/-- The messages that were made. -/
structure Store where
  cells : Array Cell
  deriving DecidableEq

namespace Store

/-- No messages. -/
def empty : Store := ⟨#[]⟩

/-- How many messages there are. -/
def size (st : Store) : Nat := st.cells.size

/-- The message with a number. -/
def cell? (st : Store) (id : Id) : Option Cell := st.cells[id]?

/-- The message with a number, which must be there. -/
def cell (st : Store) (id : Id) : Except Failure Cell :=
  match st.cell? id with
  | some c => .ok c
  | none => .error .missingPart

/-- Adds a message. -/
def alloc (st : Store) (c : Cell) : Id × Store := (st.size, ⟨st.cells.push c⟩)

/-- Changes a field of a message. -/
def put (st : Store) (id : Id) (field : String) (v : Value) : Store :=
  ⟨st.cells.modify id (·.put field v)⟩

/-- The parent part of a message. -/
def parent? (st : Store) (id : Id) : Option Id := (st.cell? id).bind (·.parent?)

/-- Follows parent parts. -/
def partsFrom (st : Store) : (fuel : Nat) → Id → List Id
  | 0, _ => []
  | fuel + 1, id =>
      id :: (match st.parent? id with
        | some p => st.partsFrom fuel p
        | none => [])

/-- A message followed by its parent parts, nearest first. -/
def parts (st : Store) (id : Id) : List Id := st.partsFrom st.size id

end Store

/-- The lengths of lists for which the addresses of 48 bits suffice: an item takes 16 bytes. -/
def addressable (n : Int) : Bool := n ≤ 0x100000000000

/-- The plans that messages follow, and the machine that the messages are made on. -/
structure Runtime where
  /-- Plans by position; parent links are positions. -/
  plans : Array Plan
  /-- Type names with the positions of their plans; of two equal names the later counts. -/
  names : List (String × Nat)
  /-- The lengths of the lists that the machine makes; no plan bounds what it is asked for. -/
  makes : Int → Bool := addressable

namespace Runtime

/-- The runtime of a plan set. -/
def ofSet (s : PlanSet) : Runtime where
  plans := s.accepted.toArray
  names := s.order.map fun i => (((s.accepted[i]?).map (·.name)).getD "", i)

/-- The runtime of plans that were derived one by one. -/
def ofPlans (plans : List Plan) : Runtime where
  plans := plans.toArray
  names := plans.mapIdx fun i p => (p.name, i)

/-- The runtime on another machine. -/
def on (rt : Runtime) (makes : Int → Bool) : Runtime := { rt with makes }

/-- The runtime with some names forgotten; links to their plans stay. -/
def without (rt : Runtime) (dropped : List String) : Runtime :=
  { rt with names := rt.names.filter fun (n, _) => !dropped.contains n }

/-- The position of the plan of a type. -/
def position? (rt : Runtime) (type : String) : Option Nat := rt.names.reverse.lookup type

/-- The plan that a message follows. -/
def planOf? (rt : Runtime) (st : Store) (id : Id) : Option Plan :=
  (st.cell? id).bind fun c => rt.plans[c.plan]?

/-- The plan that a message follows, which must be there. -/
def planOf (rt : Runtime) (st : Store) (id : Id) : Except Failure Plan :=
  match rt.planOf? st id with
  | some p => .ok p
  | none => .error .missingPart

/-- The type of a message. -/
def typeOf (rt : Runtime) (st : Store) (id : Id) : String :=
  ((rt.planOf? st id).map (·.name)).getD ""

end Runtime

end WireSchema.Message
