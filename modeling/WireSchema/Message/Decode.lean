import WireSchema.Message.Construct

/-!
# Reading messages

The steps of a plan are run in order on a message that is already there.  Counts are kept until
their list comes up; the elements of a variable list are new messages, while embedded messages and
the slots of fixed lists are read in place.  After every step the reader is asked whether it failed.
What was read before a failure stays in the message.
-/

namespace WireSchema.Message

/-- A store and a reader. -/
structure Input where
  store : Store
  reader : Wire.Reader

/-- Messages are changed and bytes are read. -/
abbrev Fill (α : Type) : Type := Action Input α

/-- Runs a construction. -/
def build (act : Build α) : Fill α := fun s =>
  let (r, store) := act s.store
  (r, { s with store })

/-- Reads a number. -/
def readScalar (k : Kind) : Fill Scalar := fun s =>
  let (v, reader) := s.reader.scalar k
  (.ok v, { s with reader })

/-- Vets the length of a list. -/
def readCount (n : UInt64) (width : Int) : Fill Nat := fun s =>
  let (k, reader) := s.reader.count n width
  (.ok k, { s with reader })

/-- Whether the reader has failed. -/
def readFailed : Fill Bool := return (← get).reader.error?.isSome

/-- Changes a field. -/
def keep (id : Id) (field : String) (v : Value) : Fill Unit :=
  modify fun s => { s with store := s.store.put id field v }

/-- The message with a number, which must be there. -/
def cellOf (id : Id) : Fill Cell := do (← get).store.cell id

/-- Reads `n` numbers. -/
def readScalars (k : Kind) : (n : Nat) → Fill (List Item)
  | 0 => return []
  | n + 1 => do
      let s ← readScalar k
      return .scalar s :: (← readScalars k n)

/-- Reads up to `n` numbers, as long as the reader does not fail. -/
def readElements (k : Kind) : (n : Nat) → Fill (List Item)
  | 0 => return []
  | n + 1 => do
      let s ← readScalar k
      if ← readFailed then return [.scalar s]
      else return .scalar s :: (← readElements k n)

/-- Reads into the messages of a list. -/
def fillItems (fill : Id → Fill Unit) (items : List Item) : Fill Unit :=
  items.forM fun
    | .message id => fill id
    | v => throw (.badForm v.typeName messageTypeName)

/-- Reads `n` new messages of a type. -/
def readMessages (rt : Runtime) (fill : Id → Fill Unit) (type : String) :
    (n : Nat) → Fill (List Item)
  | 0 => return []
  | n + 1 => do
      let id ← build (new rt type)
      fill id
      return .message id :: (← readMessages rt fill type n)

/-- Counts read so far, by field. -/
abbrev Counts : Type := List (String × UInt64)

/-- Reads a variable list of `n` elements.  If the reader refuses the count the list stays as it
is. -/
def readList (rt : Runtime) (fill : Id → Fill Unit) (id : Id) (field : String) (e : Element)
    (n : UInt64) : Fill Unit := do
  let width : Int :=
    match e with
    | .primitive t => t.wireBytes
    | .message _ => 0
  let count ← readCount n width
  if ← readFailed then return
  let items ←
    match e with
    | .primitive t => readElements t.kind count
    | .message type => readMessages rt fill type count
  keep id field (.list items)

/-- Runs one step on the message `id`; messages in it are read by `fill`. -/
def decodeStep (rt : Runtime) (fill : Id → Fill Unit) (id : Id) (counts : Counts) :
    Plan.DecodeStep → Fill Counts
  | .parent _ => do
      match (← cellOf id).parent? with
      | some p => fill p
      | none => throw .missingPart
      return counts
  | .primitive f t => do
      keep id f (.single (.scalar (← readScalar t.kind)))
      return counts
  | .count f _ t discard => do
      let v ← readScalar t.kind
      if discard then return counts
      else
        match (Datum.scalar v).toWord with
        | .ok n => return (f, n) :: counts
        | .error m => throw (.of (.halt m))
  | .reference f _ => do
      fill (← (← cellOf id).message f)
      return counts
  | .fixedList f length e => do
      match e with
      | .primitive t => keep id f (.list (← readScalars t.kind length.toNat))
      | .message _ => fillItems fill ((← cellOf id).list f)
      return counts
  | .variableList f e count => do
      match counts.lookup count with
      | some n => readList rt fill id f e n
      | none => throw (.of (.countMissing count f))
      return counts

/-- The reader's failure, if it has one, as a failure at a place. -/
def checkReader (place : String) : Fill Unit := do
  match (← get).reader.error? with
  | some e => throw (.at_ place (.read e))
  | none => return

/-- Reads into a message; messages in it are read by `fill`. -/
def decodeWith (rt : Runtime) (fill : Id → Fill Unit) (id : Id) : Fill Unit := do
  let p ← rt.planOf (← get).store id
  let _ ← p.decode.foldlM (fun counts step => do
    let counts ← within ("decode " ++ p.name) (decodeStep rt fill id counts step)
    checkReader ("decode " ++ p.name ++ "." ++ step.field)
    return counts) []

/-- Reads into a message, nesting at most `depth` deep. -/
def decodeDepth (rt : Runtime) : (depth : Nat) → Id → Fill Unit
  | 0, _ => throw (.of .tooDeep)
  | depth + 1, id => decodeWith rt (decodeDepth rt depth) id

/-- Reads into a message.  An element of a variable list is reached only after at least one byte
was read for its count, and between two such elements no message nests deeper than there are
plans. -/
def decode (rt : Runtime) (id : Id) : Fill Unit := do
  let s ← get
  decodeDepth rt (s.store.size + (s.reader.remaining + 1) * (rt.plans.size + 1)) id

/-- Reads a message from bytes; further bytes may follow.  The store keeps what was read before a
failure. -/
def unmarshal (rt : Runtime) (st : Store) (id : Id) (bytes : List UInt8) :
    Except Failure Unit × Store :=
  let (r, s) := decode rt id ⟨st, .ofBytes bytes⟩
  (r, s.store)

end WireSchema.Message
