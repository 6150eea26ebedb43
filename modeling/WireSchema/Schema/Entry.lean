import WireSchema.Number.IntegerLiteral
import WireSchema.Schema.Model
import WireSchema.Text.Quoted

/-!
# Schema files as data

A schema file says about each attribute what it is in one of four keys, of which exactly one must be
given.  An entry is what such a file holds, before and after it is a model: `toModel` checks it and
`ofModel` is the entry a model is written as.

The length of a fixed list can be given in short: `unsigned byte[11]`.
-/

namespace WireSchema.Schema

/-- A fixed list as a file gives it. -/
structure FixedListEntry where
  type : String := ""
  length : Int := 0
  deriving DecidableEq, Repr

/-- A variable list as a file gives it. -/
structure VariableListEntry where
  type : String := ""
  countField : String := ""
  deriving DecidableEq, Repr

/-- An attribute as a file gives it. -/
structure AttributeEntry where
  name : String := ""
  primitive : String := ""
  class_ : String := ""
  fixedList : Option FixedListEntry := none
  variableList : Option VariableListEntry := none
  countOf : String := ""
  serialize : Option Bool := none
  default_ : Option String := none
  couldBeString : Bool := false
  comment : String := ""
  deriving DecidableEq, Repr

/-- An initial value as a file gives it. -/
structure InitialValueEntry where
  setter : String := ""
  value : String := ""
  deriving DecidableEq, Repr

/-- A message type as a file gives it. -/
structure ClassEntry where
  name : String := ""
  parent : String := ""
  comment : String := ""
  attributes : List AttributeEntry := []
  initialValues : List InitialValueEntry := []
  deriving DecidableEq, Repr

/-- A schema file. -/
structure FileEntry where
  version : String := ""
  classes : List ClassEntry := []
  deriving DecidableEq, Repr

/-- White space inside a shorthand. -/
def isShorthandBlank (c : Char) : Bool :=
  c == ' ' || c == '\t' || c == '\n' || c == '\x0c' || c == '\r'

/-- The characters without the white space at both ends. -/
def trimShorthand (cs : List Char) : List Char := Text.trimBoth isShorthandBlank cs

/-- The type name in front of the bracket.  If it is all white space, its last character that does
not end a line is taken for the name. -/
def shorthandType (cs : List Char) : Option (List Char) :=
  let name := trimShorthand cs
  if name.isEmpty then ((cs.filter (· ≠ '\n')).getLast?).map ([·])
  else if name.contains '\n' then none
  else some name

/-- Splits a shorthand `type[length]` into its type and the digits of its length. -/
def splitShorthand (s : String) : Option (List Char × List Char) :=
  match Text.trimEnd isShorthandBlank s.toList |>.reverse with
  | ']' :: rest =>
      let digits := trimShorthand (rest.takeWhile (· ≠ '[')).reverse
      match rest.dropWhile (· ≠ '[') with
      | '[' :: before =>
          if digits.isEmpty || !digits.all Char.isDigit then none
          else (shorthandType before.reverse).map (·, digits)
      | _ => none
  | _ => none

/-- Reads a length in digits. -/
def shorthandLength (digits : List Char) : Except Number.Fault Int :=
  (Number.readDigits 10 0x8000000000000000 0 digits).map fun n => n

/-- Why an entry is no model. -/
inductive EntryError where
  | unnamedClass (number : Nat)
  | unnamedAttribute (owner : String) (number : Nat)
  | noShape (owner attr : String)
  | manyShapes (owner attr : String) (shapes : List String)
  deriving DecidableEq, Repr

/-- The error in words. -/
def EntryError.message : EntryError → String
  | .unnamedClass n => "class #" ++ toString n ++ ": name is required"
  | .unnamedAttribute owner n =>
      "class " ++ owner ++ " attribute #" ++ toString n ++ ": name is required"
  | .noShape owner attr =>
      "class " ++ owner ++ " attribute " ++ Text.quoted attr ++
        ": one of primitive, class, fixed_list, variable_list is required"
  | .manyShapes owner attr shapes =>
      "class " ++ owner ++ " attribute " ++ Text.quoted attr ++
        ": kinds are exclusive, got " ++ Text.joinWith ", " shapes

namespace AttributeEntry

/-- The shapes an entry gives, each with its key, type and count field. -/
def shapes (a : AttributeEntry) : List (String × Shape × String × String) :=
  (if a.primitive.isEmpty then [] else [("primitive", .primitive, a.primitive, "")]) ++
    (if a.class_.isEmpty then [] else [("class", .reference, a.class_, "")]) ++
    (match a.fixedList with
      | some f => [("fixed_list", .fixedList f.length, f.type, "")]
      | none => []) ++
    (match a.variableList with
      | some v => [("variable_list", .variableList, v.type, v.countField)]
      | none => [])

/-- The attribute an entry means. -/
def toAttribute (owner : String) (a : AttributeEntry) : Except EntryError Attribute :=
  match a.shapes with
  | [] => .error (.noShape owner a.name)
  | [(_, shape, type, countField)] =>
      .ok
        { name := a.name
          shape := some shape
          type
          default? := a.default_
          comment := a.comment
          serialize := a.serialize.getD true
          isCount := !a.countOf.isEmpty
          counts := a.countOf
          countFieldName := countField
          couldBeString := a.couldBeString }
  | many => .error (.manyShapes owner a.name (many.map (·.1)))

/-- The entry an attribute is written as. -/
def ofAttribute (a : Attribute) : AttributeEntry :=
  let base : AttributeEntry :=
    { name := a.name
      default_ := a.default?
      couldBeString := a.couldBeString
      comment := a.comment
      serialize := if a.serialize then none else some false
      countOf := if a.isCount then a.counts else "" }
  match a.shape with
  | none => base
  | some .primitive => { base with primitive := a.type }
  | some .reference => { base with class_ := a.type }
  | some (.fixedList n) => { base with fixedList := some ⟨a.type, n⟩ }
  | some .variableList => { base with variableList := some ⟨a.type, a.countFieldName⟩ }

end AttributeEntry

namespace ClassEntry

/-- The attributes of a message type, the first of them numbered `n`. -/
def toAttributes (owner : String) : Nat → List AttributeEntry → Except EntryError (List Attribute)
  | _, [] => .ok []
  | n, a :: rest => do
      if a.name.isEmpty then throw (.unnamedAttribute owner n)
      let first ← a.toAttribute owner
      return first :: (← toAttributes owner (n + 1) rest)

/-- The message type an entry means. -/
def toClass (c : ClassEntry) : Except EntryError Class := do
  let attributes ← toAttributes c.name 1 c.attributes
  return {
    name := c.name
    parent := c.parent
    comment := c.comment
    attributes
    initialValues := c.initialValues.map fun v => { setter := v.setter, value := v.value } }

/-- The entry a message type is written as. -/
def ofClass (c : Class) : ClassEntry where
  name := c.name
  parent := c.parent
  comment := c.comment
  attributes := c.attributes.map .ofAttribute
  initialValues := c.initialValues.map fun v => ⟨v.setter, v.value⟩

end ClassEntry

namespace FileEntry

/-- The message types of a file, the first of them numbered `n`. -/
def toClasses : Nat → List ClassEntry → Except EntryError (List Class)
  | _, [] => .ok []
  | n, c :: rest => do
      if c.name.isEmpty then throw (.unnamedClass n)
      let cls ← c.toClass
      return cls :: (← toClasses (n + 1) rest)

/-- The model a file means. -/
def toModel (f : FileEntry) : Except EntryError Model := do
  return {
    version := if f.version.isEmpty then "1" else f.version
    classes := ← toClasses 1 f.classes }

/-- The file a model is written as. -/
def ofModel (m : Model) : FileEntry := ⟨m.version, m.classes.map .ofClass⟩

end FileEntry

end WireSchema.Schema
