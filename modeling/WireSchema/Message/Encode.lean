import WireSchema.Message.Store
import WireSchema.Message.Access
import WireSchema.Wire.Writer

/-!
# Writing messages

The steps of a plan are run in order.  Counts are written as the length of their list, and refused
when their kind cannot say it.  What was written before a failure stays written.
-/

namespace WireSchema.Message

/-- Bytes are added to a writer. -/
abbrev Emit (α : Type) : Type := Action Wire.Writer α

/-- Writes a number, which must be of the type's kind. -/
def writeScalar (t : Primitive) (v : Item) : Emit Unit :=
  match v with
  | .scalar s =>
      if s.kind = t.kind then modify (·.scalar s) else throw (notOfKind t s.kind.typeName)
  | v => throw (notOfKind t v.typeName)

/-- Writes an element of a list. -/
def writeItem (emit : Id → Emit Unit) (e : Element) (v : Item) : Emit Unit :=
  match e, v with
  | .primitive t, v => writeScalar t v
  | .message _, .message id => emit id
  | .message _, v => throw (.badForm v.typeName messageTypeName)

/-- Runs one step on a message; messages in it are written by `emit`. -/
def encodeStep (emit : Id → Emit Unit) (c : Cell) : Plan.EncodeStep → Emit Unit
  | .parent _ =>
      match c.parent? with
      | some p => emit p
      | none => throw .missingPart
  | .primitive f t =>
      match c.value? f with
      | some (.single v) => writeScalar t v
      | some (.list _) => throw (notOfKind t listTypeName)
      | none => throw (notOfKind t "<nil>")
  | .count f list t => do
      let n := (c.list list).length
      if t.kind.maxCount < n then
        throw (.at_ (list ++ " has " ++ toString n ++ " elements, " ++ f ++ " holds at most " ++
          toString t.kind.maxCount) .countOverflow)
      modify (·.scalar (.ofWord t.kind (UInt64.ofNat n)))
  | .reference f _ => do emit (← c.message f)
  | .fixedList f _ e => (c.list f).forM (writeItem emit e)
  | .variableList f e => (c.list f).forM (writeItem emit e)

/-- Writes a message; messages in it are written by `emit`. -/
def encodeWith (rt : Runtime) (st : Store) (emit : Id → Emit Unit) (id : Id) : Emit Unit := do
  let p ← rt.planOf st id
  let c ← st.cell id
  p.encode.forM fun step => within ("encode " ++ p.name) (encodeStep emit c step)

/-- Writes a message that nests at most `depth` deep. -/
def encodeDepth (rt : Runtime) (st : Store) : (depth : Nat) → Id → Emit Unit
  | 0, _ => throw (.of .tooDeep)
  | depth + 1, id => encodeWith rt st (encodeDepth rt st depth) id

/-- Writes a message.  One that does not contain itself nests at most as deep as there are
messages. -/
def encode (rt : Runtime) (st : Store) (id : Id) : Emit Unit :=
  encodeDepth rt st (st.size + 1) id

/-- The bytes of a message. -/
def marshal (rt : Runtime) (st : Store) (id : Id) : Except Failure (List UInt8) :=
  match encode rt st id .empty with
  | (.ok _, w) => .ok w.bytes
  | (.error f, _) => .error f

end WireSchema.Message
