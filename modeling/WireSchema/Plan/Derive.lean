import WireSchema.Plan

/-!
# Deriving plans

A plan is put together from the parts that the attributes contribute, in the order of their
declaration.  An attribute that is not serialized contributes no steps and no size, but it is
stored, compared and constructed like any other.
-/

namespace WireSchema.Plan

/-- Why a message type has no plan. -/
inductive DeriveError where
  | missingShape (attr : String)
  | unresolvedPrimitive (attr type : String)
  | unresolvedReference (attr type : String)
  | unresolvedElement (attr type : String)
  | countWithoutList (attr : String)
  | listWithoutCount (attr : String)
  | badDefault (attr : String) (cause : Primitive.LiteralError)
  | unboundSetter (cls setter : String)
  | badInitialValue (cls setter : String) (cause : Primitive.LiteralError)
  deriving DecidableEq, Repr

/-- The error in words. -/
def DeriveError.message : DeriveError → String
  | .missingShape a => a ++ ": attribute kind <nil> is not supported"
  | .unresolvedPrimitive a t => a ++ ": primitive type " ++ Text.quoted t ++ " is not resolved"
  | .unresolvedReference a t => a ++ ": referenced type " ++ Text.quoted t ++ " is not resolved"
  | .unresolvedElement a t => a ++ ": element type " ++ Text.quoted t ++ " is not resolved"
  | .countWithoutList a => a ++ ": count field is not bound to a list"
  | .listWithoutCount a => a ++ ": variable list has no bound count field"
  | .badDefault a e => a ++ ": default: " ++ e.message
  | .unboundSetter c s => c ++ ": initial value " ++ s ++ " is not bound"
  | .badInitialValue c s e => c ++ ": initial value " ++ s ++ ": " ++ e.message

/-- What one attribute contributes to a plan. -/
structure Part where
  field : Field
  encode : List EncodeStep := []
  decode : List DecodeStep := []
  terms : List SizeTerm := []
  comparisons : List Comparison := []
  defaults : List FieldDefault := []
  accessors : List TextAccessor := []

/-- What an attribute holds: a primitive if it is bound to one, else the message type it is bound
to, else whatever it names. -/
def elementOf (m : Model) (a : Attribute) : Element :=
  match a.primitive?, a.class? with
  | some t, _ => .primitive t
  | none, some i => .message (m.className i)
  | none, none => .message a.type

/-- The name of the attribute at a place. -/
def attributeName (m : Model) (r : AttrRef) : String := ((m.attribute? r).map (·.name)).getD ""

/-- The default of an attribute, where it has an effect. -/
def defaultOf (qualified : String) (a : Attribute) : Except DeriveError (Option Scalar) :=
  match a.default?, a.primitive? with
  | some literal, some t =>
      if a.isPrimitive && !a.isCount then
        match t.parse literal with
        | .ok s => .ok (some s)
        | .error e => .error (.badDefault qualified e)
      else .ok none
  | _, _ => .ok none

/-- The storage of an attribute. -/
def fieldOf (m : Model) (qualified : String) (a : Attribute) (shape : Shape) :
    Except DeriveError Field := do
  return {
    name := a.name
    shape
    elem := elementOf m a
    length := a.listLength
    comment := a.comment
    stored := !a.isCount
    serialized := a.serialize
    countOf := if a.isCount then (a.countedList?.map (attributeName m)).getD "" else ""
    countField := if a.isVariableList then (a.countField?.map (attributeName m)).getD "" else ""
    default? := ← defaultOf qualified a }

/-- A part whose steps and size go on the wire. -/
def onWire (field : Field) (encode : EncodeStep) (decode : DecodeStep) (rule : SizeRule) : Part :=
  if field.serialized then
    { field, encode := [encode], decode := [decode], terms := [⟨field.name, rule⟩] }
  else { field }

/-- The part of a single number, or of a count. -/
def primitivePart (m : Model) (qualified : String) (a : Attribute) (f : Field) :
    Except DeriveError Part := do
  let some t := a.primitive? | throw (.unresolvedPrimitive qualified a.type)
  let size : SizeRule := .static t.wireBytes 0
  if a.isCount then
    let some list := a.countedList? | throw (.countWithoutList qualified)
    let listName := attributeName m list
    let discard := !((m.attribute? list).map (·.serialize)).getD true
    return onWire f (.count a.name listName t) (.count a.name listName t discard) size
  else
    let rule : DefaultRule :=
      match f.default? with
      | some s => .value s true
      | none => .value t.zero false
    return { onWire f (.primitive a.name t) (.primitive a.name t) size with
      comparisons := [⟨a.name, f.elem, .value⟩]
      defaults := [⟨a.name, f.elem, rule⟩] }

/-- The part of an embedded message. -/
def referencePart (m : Model) (qualified : String) (a : Attribute) (f : Field) :
    Except DeriveError Part := do
  let some i := a.class? | throw (.unresolvedReference qualified a.type)
  let cls := m.className i
  return { onWire f (.reference a.name cls) (.reference a.name cls) (.reference cls) with
    comparisons := [⟨a.name, f.elem, .reference⟩]
    defaults := [⟨a.name, f.elem, .construct⟩] }

/-- Text can be kept in a list of bytes, signed or not. -/
def holdsText (t : Primitive) : Bool := t.bits == 8 && t.kind.isInteger

/-- The part of a fixed list. -/
def fixedListPart (qualified : String) (a : Attribute) (length : Int) (f : Field) :
    Except DeriveError Part := do
  if a.primitive?.isNone && a.class?.isNone then throw (.unresolvedElement qualified a.type)
  let size : SizeRule :=
    match f.elem with
    | .primitive t => .static (Number.wrap (length * t.wireBytes)) length
    | .message c => .elementSum c length
  let accessors : List TextAccessor :=
    match f.elem with
    | .primitive t => if a.couldBeString && holdsText t then [⟨a.name, length, t⟩] else []
    | .message _ => []
  return { onWire f (.fixedList a.name length f.elem) (.fixedList a.name length f.elem) size with
    comparisons := [⟨a.name, f.elem, .fixedList length⟩]
    defaults := [⟨a.name, f.elem, .zeroList length⟩]
    accessors }

/-- The part of a variable list. -/
def variableListPart (m : Model) (qualified : String) (a : Attribute) (f : Field) :
    Except DeriveError Part := do
  if a.primitive?.isNone && a.class?.isNone then throw (.unresolvedElement qualified a.type)
  let some count := a.countField? | throw (.listWithoutCount qualified)
  let size : SizeRule :=
    match f.elem with
    | .primitive t => .countTimesWidth t.wireBytes
    | .message c => .elementSum c 0
  return {
    onWire f (.variableList a.name f.elem) (.variableList a.name f.elem (attributeName m count))
      size with
    comparisons := [⟨a.name, f.elem, .variableList⟩]
    defaults := [⟨a.name, f.elem, .emptyList⟩] }

/-- The part of an attribute of the message type `owner`. -/
def partOf (m : Model) (owner : String) (a : Attribute) : Except DeriveError Part := do
  let qualified := owner ++ "." ++ a.name
  let some shape := a.shape | throw (.missingShape qualified)
  let f ← fieldOf m qualified a shape
  match shape with
  | .primitive => primitivePart m qualified a f
  | .reference => referencePart m qualified a f
  | .fixedList n => fixedListPart qualified a n f
  | .variableList => variableListPart m qualified a f

/-- The assignment of an initial value. -/
def assignmentOf (m : Model) (owner : String) (v : InitialValue) :
    Except DeriveError Assignment := do
  let some target := v.target? | throw (.unboundSetter owner v.setter)
  let some t := (m.attribute? target).bind (·.primitive?) | throw (.unboundSetter owner v.setter)
  match t.parse v.value with
  | .ok value =>
      return {
        setter := v.setter
        field := attributeName m target
        owner := m.className target.cls
        type := t
        value }
  | .error e => throw (.badInitialValue owner v.setter e)

/-- The plan of a message type, with a size if `sized`.  Its parent is not linked yet. -/
def derive (sized : Bool) (m : Model) (c : Class) : Except DeriveError Plan := do
  let parts ← c.attributes.mapM (partOf m c.name)
  let assignments ← c.initialValues.mapM (assignmentOf m c.name)
  let parentName := if c.hasParent then c.parent else ""
  return {
    name := c.name
    parentName
    comment := c.comment
    fields := parts.map (·.field)
    encode := (if c.hasParent then [.parent c.parent] else []) ++ parts.flatMap (·.encode)
    decode := (if c.hasParent then [.parent c.parent] else []) ++ parts.flatMap (·.decode)
    size? := if sized then some ⟨parentName, parts.flatMap (·.terms)⟩ else none
    comparisons := parts.flatMap (·.comparisons)
    defaults := parts.flatMap (·.defaults)
    assignments
    accessors := parts.flatMap (·.accessors) }

end WireSchema.Plan
