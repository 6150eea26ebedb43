import WireSchema.Catalog
import WireSchema.Naming

/-!
# Schemas

A model is a list of message types in the order of their declaration.  A message type may extend a
parent; its attributes are single primitives, embedded messages, and lists of either whose length is
fixed or travels in a count field.

Names bind to declarations through links, which start out empty and are filled in by resolution.  A
link to a message type is its index in the model; a link to an attribute is the index of its type
and its own index there.  So a model is plain data even where two types refer to each other, and
declarations that share a name stay apart.
-/

namespace WireSchema

/-- The shape of an attribute. -/
inductive Shape where
  /-- A single number. -/
  | primitive
  /-- An embedded message. -/
  | reference
  /-- Exactly `length` elements. -/
  | fixedList (length : Int)
  /-- As many elements as the count field says. -/
  | variableList
  deriving DecidableEq, Repr

/-- The shape's name. -/
def Shape.name : Shape → String
  | .primitive => "primitive"
  | .reference => "class"
  | .fixedList n => "fixed_list[" ++ toString n ++ "]"
  | .variableList => "variable_list"

/-- An attribute by position: the message type and the place in it. -/
structure AttrRef where
  cls : Nat
  attr : Nat
  deriving DecidableEq, Repr

/-- An attribute of a message type. -/
structure Attribute where
  name : String
  /-- Missing only in models that were not loaded from a schema file. -/
  shape : Option Shape
  /-- The primitive or message type, of the elements for a list. -/
  type : String
  default? : Option String := none
  comment : String := ""
  serialize : Bool := true
  /-- The attribute only carries the length of a list. -/
  isCount : Bool := false
  /-- The list a count field sizes. -/
  counts : String := ""
  /-- The count field of a variable list, where the list names it. -/
  countFieldName : String := ""
  couldBeString : Bool := false
  primitive? : Option Primitive := none
  class? : Option Nat := none
  countField? : Option AttrRef := none
  countedList? : Option AttrRef := none
  deriving DecidableEq, Repr

namespace Attribute

/-- A single number. -/
def isPrimitive (a : Attribute) : Bool := a.shape == some .primitive

/-- An embedded message. -/
def isReference (a : Attribute) : Bool := a.shape == some .reference

/-- A list whose length travels with it. -/
def isVariableList (a : Attribute) : Bool := a.shape == some .variableList

/-- The declared length of a fixed list. -/
def fixedLength? (a : Attribute) : Option Int :=
  match a.shape with
  | some (.fixedList n) => some n
  | _ => none

/-- A list of declared length. -/
def isFixedList (a : Attribute) : Bool := a.fixedLength?.isSome

/-- Either kind of list. -/
def isList (a : Attribute) : Bool := a.isFixedList || a.isVariableList

/-- The declared length of a fixed list, zero for everything else. -/
def listLength (a : Attribute) : Int := a.fixedLength?.getD 0

/-- The name of the shape, for messages. -/
def shapeName (a : Attribute) : String := (a.shape.map Shape.name).getD "untyped"

end Attribute

/-- A literal assigned through a setter when a message is constructed. -/
structure InitialValue where
  setter : String
  value : String
  target? : Option AttrRef := none
  deriving DecidableEq, Repr

/-- A message type. -/
structure Class where
  name : String
  /-- The parent's name; `root` or empty for none. -/
  parent : String := ""
  comment : String := ""
  attributes : List Attribute := []
  initialValues : List InitialValue := []
  parentClass? : Option Nat := none
  deriving DecidableEq, Repr

namespace Class

/-- Whether the type extends another. -/
def hasParent (c : Class) : Bool := !Naming.isRoot c.parent

/-- The place of the first attribute called `name`. -/
def attributeIndex? (c : Class) (name : String) : Option Nat :=
  c.attributes.findIdx? (·.name == name)

/-- The first attribute called `name`. -/
def attribute? (c : Class) (name : String) : Option Attribute :=
  c.attributes.find? (·.name == name)

end Class

/-- A whole protocol description. -/
structure Model where
  version : String := "1"
  classes : List Class := []
  deriving DecidableEq, Repr

namespace Model

/-- The place of the first message type called `name`. -/
def classIndex? (m : Model) (name : String) : Option Nat :=
  m.classes.findIdx? (·.name == name)

/-- The names of the message types in order. -/
def classNames (m : Model) : List String := m.classes.map (·.name)

/-- The parent link of the message type at `i`. -/
def parentOf? (m : Model) (i : Nat) : Option Nat := m.classes[i]?.bind (·.parentClass?)

/-- Follows parent links from `i`, as long as no type comes up twice. -/
def chainFrom (m : Model) : (fuel : Nat) → List Nat → Nat → List Nat
  | 0, _, _ => []
  | fuel + 1, seen, i =>
      if seen.contains i then []
      else
        i :: (match m.parentOf? i with
          | some p => m.chainFrom fuel (i :: seen) p
          | none => [])

/-- The message type at `i` followed by its ancestors, nearest first.  A cyclic chain is cut at the
first repetition, so no chain is longer than the model. -/
def chain (m : Model) (i : Nat) : List Nat := m.chainFrom (m.classes.length + 1) [] i

/-- The ancestors of the message type at `i`, nearest first. -/
def ancestors (m : Model) (i : Nat) : List Nat := (m.chain i).tail

/-- The attribute `name` of the message type at `i` or of its nearest ancestor that has one. -/
def lookupAttribute (m : Model) (i : Nat) (name : String) : Option AttrRef :=
  (m.chain i).findSome? fun j =>
    (m.classes[j]?.bind (·.attributeIndex? name)).map fun k => ⟨j, k⟩

/-- The attribute at a place. -/
def attribute? (m : Model) (r : AttrRef) : Option Attribute :=
  m.classes[r.cls]?.bind (·.attributes[r.attr]?)

/-- The name of the message type at `i`. -/
def className (m : Model) (i : Nat) : String := (m.classes[i]?.map (·.name)).getD ""

/-- The qualified name of the attribute at a place. -/
def qualified (m : Model) (r : AttrRef) : String :=
  m.className r.cls ++ "." ++ ((m.attribute? r).map (·.name)).getD ""

end Model

end WireSchema
