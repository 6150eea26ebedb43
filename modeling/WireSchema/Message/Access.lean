import WireSchema.Message.Store
import WireSchema.Wire.Text

/-!
# Fields of messages

Reading and assigning fields.  A field belongs to the part of a message whose plan declares it, the
message itself before its parents.  What is assigned must have exactly the field's storage type, and
count fields cannot be assigned: they read as the length of their list.
-/

namespace WireSchema.Message

open Plan (Field TextAccessor)

/-- The part of a message that declares a field. -/
def owner? (rt : Runtime) (st : Store) (id : Id) (field : String) : Option (Id × Field) :=
  (st.parts id).findSome? fun part =>
    ((rt.planOf? st part).bind (·.field? field)).map (part, ·)

/-- A value that cannot be stored as a number of a type. -/
def notOfKind (t : Primitive) (found : String) : Failure :=
  .at_ ("want " ++ t.kind.typeName ++ ", got " ++ found) .typeMismatch

/-- A value that cannot be stored as a message of a type. -/
def notOfType (type found : String) : Failure :=
  .at_ ("want a " ++ type ++ " instance, got " ++ found) .typeMismatch

/-- The item that an offered value is stored as. -/
def accept (rt : Runtime) (st : Store) (e : Element) (v : Offer) : Except Failure Item :=
  match e, v with
  | .primitive t, .datum (.scalar s) =>
      if s.kind = t.kind then .ok (.scalar s) else .error (notOfKind t s.kind.typeName)
  | .primitive t, v => .error (notOfKind t v.typeName)
  | .message type, .message id =>
      let found := rt.typeOf st id
      if found = type then .ok (.message id) else .error (notOfType type found)
  | .message type, v => .error (notOfType type v.typeName)

/-- The items of an offered list, the first of them numbered `i`. -/
def acceptAll (rt : Runtime) (st : Store) (e : Element) (name : String) :
    Nat → List Offer → Except Failure (List Item)
  | _, [] => .ok []
  | i, v :: rest => do
      let item ← (accept rt st e v).mapError (·.within (name ++ "[" ++ toString i ++ "]"))
      return item :: (← acceptAll rt st e name (i + 1) rest)

/-- The value that an offered value is stored as in a field. -/
def acceptField (rt : Runtime) (st : Store) (name : String) (f : Field) (v : Offer) :
    Except Failure Value :=
  if f.isCount then .error (.at_ (name ++ " is a count field") .noSetter)
  else if f.isList then
    match v with
    | .list items =>
        if f.isFixedList && (items.length : Int) ≠ f.length then
          .error (.at_ (name ++ " wants " ++ toString f.length ++ " elements, got " ++
            toString items.length) .typeMismatch)
        else (acceptAll rt st f.elem name 0 items).map .list
    | v => .error (.at_ (name ++ " wants []any, got " ++ v.typeName) .typeMismatch)
  else ((accept rt st f.elem v).mapError (·.within name)).map .single

/-- The value of a field; a count reads as the length of its list. -/
def getField (rt : Runtime) (st : Store) (id : Id) (field : String) : Except Failure Value :=
  match owner? rt st id field with
  | none => .error (.at_ (rt.typeOf st id ++ "." ++ field) .noField)
  | some (part, f) => do
      let c ← st.cell part
      if f.isCount then
        match f.elem with
        | .primitive t =>
            return .single (.scalar (.ofWord t.kind (UInt64.ofNat (c.list f.countOf).length)))
        | .message _ => throw .missingPart
      else
        match c.value? field with
        | some v => return v
        | none => throw .missingPart

/-- Assigns a field of one part. -/
def setPart (rt : Runtime) (st : Store) (part : Id) (f : Field) (v : Offer) :
    Except Failure Store := do
  let stored ← acceptField rt st (rt.typeOf st part ++ "." ++ f.name) f v
  return st.put part f.name stored

/-- Assigns a field. -/
def setField (rt : Runtime) (st : Store) (id : Id) (field : String) (v : Offer) :
    Except Failure Store :=
  match owner? rt st id field with
  | none => .error (.at_ (rt.typeOf st id ++ "." ++ field) .noField)
  | some (part, f) => setPart rt st part f v

/-- Assigns a field of the part that follows the plan of the type `owner`. -/
def setOn (rt : Runtime) (st : Store) (id : Id) (owner field : String) (v : Offer) :
    Except Failure Store :=
  let found := (st.parts id).findSome? fun part =>
    if rt.typeOf st part = owner then
      ((rt.planOf? st part).bind (·.field? field)).map (part, ·)
    else none
  match found with
  | none => .error (.at_ (owner ++ "." ++ field) .noField)
  | some (part, f) => setPart rt st part f v

/-- Adds a value to a variable list, `times` times. -/
def append (rt : Runtime) (st : Store) (id : Id) (field : String) (v : Offer) (times : Nat) :
    Except Failure Store :=
  let notList : Failure :=
    .at_ (rt.typeOf st id ++ "." ++ field ++ " is not a variable list") .noField
  match owner? rt st id field with
  | none => .error notList
  | some (part, f) =>
      if !f.isVariableList then .error notList
      else do
        let item ← (accept rt st f.elem v).mapError (·.within (rt.typeOf st part ++ "." ++ field))
        let c ← st.cell part
        return st.put part field (.list (c.list field ++ List.replicate times item))

/-- The part of a message with a text accessor for a field. -/
def accessor (rt : Runtime) (st : Store) (id : Id) (field : String) :
    Except Failure (Id × TextAccessor) :=
  let found := (st.parts id).findSome? fun part =>
    ((rt.planOf? st part).bind fun p => p.accessors.find? (·.field == field)).map (part, ·)
  match found with
  | some r => .ok r
  | none =>
      .error (.at_ (rt.typeOf st id ++ "." ++ field ++ " has no text accessor") .noField)

/-- The numbers in a list of items. -/
def scalars (items : List Item) : List Scalar :=
  items.filterMap fun
    | .scalar s => some s
    | .message _ => none

/-- A field as text: the low bytes of all its slots, widened to words. -/
def text (rt : Runtime) (st : Store) (id : Id) (field : String) : Except Failure (List UInt8) := do
  let (part, acc) ← accessor rt st id field
  let c ← st.cell part
  return Wire.fitText acc.length.toNat ((scalars (c.list field)).map (·.toWord.toUInt8))

/-- Writes text into a field, cut or padded with zeros to the length of its list: into a buffer of
bytes first, which are then stored as words under the kind of the list. -/
def setText (rt : Runtime) (st : Store) (id : Id) (field : String) (s : List UInt8) :
    Except Failure Store := do
  let (part, acc) ← accessor rt st id field
  let buffer := Wire.copyText .uint8 (List.replicate acc.length.toNat (.zero .uint8)) s
  return st.put part field (.list (buffer.map fun b => .scalar (.ofWord acc.type.kind b.toWord)))

end WireSchema.Message
