import WireSchema.Number.Word
import WireSchema.Schema.Model

/-!
# Plans

A plan says everything about a message type that a program handling its messages has to know: the
steps that write and read it, its size as an expression, how two messages are compared, how one is
constructed, and which fields can be used as text.  A plan mentions other types by name only, except
its parent, which is linked by position once all plans are known.

Count fields have no storage.  They are written as the length of their list and, when read, only
bound the list that follows.
-/

namespace WireSchema

/-- What a field holds, or what the elements of a list are. -/
inductive Element where
  | primitive (type : Primitive)
  /-- A message type. -/
  | message (name : String)
  deriving DecidableEq, Repr

namespace Element

/-- The element is a message. -/
def isMessage : Element → Bool
  | .primitive _ => false
  | .message _ => true

/-- The name of the element's type. -/
def name : Element → String
  | .primitive t => t.name
  | .message n => n

end Element

namespace Plan

/-- The storage of one attribute. -/
structure Field where
  name : String
  shape : Shape
  elem : Element
  /-- The length of a fixed list, zero for everything else. -/
  length : Int
  comment : String
  /-- Count fields are not stored. -/
  stored : Bool
  serialized : Bool
  /-- The list a count field sizes; empty for other fields. -/
  countOf : String
  /-- The count field of a variable list; empty for other fields. -/
  countField : String
  default? : Option Scalar
  deriving DecidableEq, Repr

namespace Field

/-- The field only carries the length of a list. -/
def isCount (f : Field) : Bool := !f.countOf.isEmpty

/-- A list of fixed length. -/
def isFixedList (f : Field) : Bool :=
  match f.shape with
  | .fixedList _ => true
  | _ => false

/-- A list whose length travels with it. -/
def isVariableList (f : Field) : Bool := f.shape == .variableList

/-- Either kind of list. -/
def isList (f : Field) : Bool := f.isFixedList || f.isVariableList

end Field

/-- One write. -/
inductive EncodeStep where
  /-- The whole layout of the parent. -/
  | parent (name : String)
  | primitive (field : String) (type : Primitive)
  /-- The length of `list`, as a number of the given type. -/
  | count (field list : String) (type : Primitive)
  | reference (field cls : String)
  | fixedList (field : String) (length : Int) (elem : Element)
  | variableList (field : String) (elem : Element)
  deriving DecidableEq, Repr

/-- One read. -/
inductive DecodeStep where
  /-- The whole layout of the parent. -/
  | parent (name : String)
  | primitive (field : String) (type : Primitive)
  /-- A count, kept under the field's name until its list is read.  It is discarded when the list
  is not on the wire. -/
  | count (field list : String) (type : Primitive) (discard : Bool)
  | reference (field cls : String)
  | fixedList (field : String) (length : Int) (elem : Element)
  | variableList (field : String) (elem : Element) (countField : String)
  deriving DecidableEq, Repr

/-- The field a step writes; empty for the parent. -/
def EncodeStep.field : EncodeStep → String
  | .parent _ => ""
  | .primitive f _ | .count f _ _ | .reference f _ | .fixedList f _ _ | .variableList f _ => f

/-- The field a step reads; empty for the parent. -/
def DecodeStep.field : DecodeStep → String
  | .parent _ => ""
  | .primitive f _ | .count f _ _ _ | .reference f _ | .fixedList f _ _ | .variableList f _ _ => f

/-- The name with a given number, for names that are numbered from zero. -/
def nameAt (names : List String) (n : Int) : String :=
  if n < 0 then "unknown" else names[n.toNat]?.getD "unknown"

/-- What a field adds to the size of a message. -/
inductive SizeRule where
  /-- A number of bytes that is known beforehand; `length` is that of a fixed list. -/
  | static (bytes length : Int)
  /-- The size of the message it holds. -/
  | reference (cls : String)
  /-- The length of the list times the width of its elements. -/
  | countTimesWidth (bytes : Int)
  /-- The sizes of all elements; `length` is that of a fixed list. -/
  | elementSum (cls : String) (length : Int)
  deriving DecidableEq, Repr

namespace SizeRule

/-- The names of the rules. -/
def names : List String := ["static", "reference", "count_times_width", "element_sum"]

/-- The number of a rule. -/
def code : SizeRule → Nat
  | .static .. => 0
  | .reference _ => 1
  | .countTimesWidth _ => 2
  | .elementSum .. => 3

/-- The bytes a rule states: in all, or per element. -/
def bytes : SizeRule → Int
  | .static b _ => b
  | .countTimesWidth b => b
  | _ => 0

/-- The message type a rule refers to. -/
def cls : SizeRule → String
  | .reference c => c
  | .elementSum c _ => c
  | _ => ""

/-- The length of a fixed list. -/
def length : SizeRule → Int
  | .static _ n => n
  | .elementSum _ n => n
  | _ => 0

/-- Known without looking at a message. -/
def isStatic : SizeRule → Bool
  | .static .. => true
  | _ => false

end SizeRule

/-- The part of one field in a size. -/
structure SizeTerm where
  field : String
  rule : SizeRule
  deriving DecidableEq, Repr

/-- A size: the parent's, the sum of all static parts, and what a message adds. -/
structure SizeExpression where
  /-- Empty for no parent. -/
  parent : String
  terms : List SizeTerm
  deriving DecidableEq, Repr

namespace SizeExpression

/-- The static parts in one number. -/
def fixed (s : SizeExpression) : Int :=
  Number.wrap ((s.terms.filter (·.rule.isStatic)).foldr (fun t n => t.rule.bytes + n) 0)

/-- The parts that depend on the message. -/
def dynamic (s : SizeExpression) : List SizeTerm := s.terms.filter fun t => !t.rule.isStatic

end SizeExpression

/-- How a field takes part in a comparison. -/
inductive CompareRule where
  | value
  | reference
  | fixedList (length : Int)
  | variableList
  deriving DecidableEq, Repr

namespace CompareRule

/-- The names of the rules. -/
def names : List String := ["value", "reference", "fixed_list", "variable_list"]

/-- The number of a rule. -/
def code : CompareRule → Nat
  | .value => 0
  | .reference => 1
  | .fixedList _ => 2
  | .variableList => 3

/-- The length of a fixed list. -/
def length : CompareRule → Int
  | .fixedList n => n
  | _ => 0

end CompareRule

/-- The comparison of one field. -/
structure Comparison where
  field : String
  elem : Element
  rule : CompareRule
  deriving DecidableEq, Repr

/-- How a field gets its first value. -/
inductive DefaultRule where
  /-- A number, which the schema gives explicitly or which is zero. -/
  | value (s : Scalar) (explicit : Bool)
  /-- A newly constructed message. -/
  | construct
  /-- Every slot zero or newly constructed. -/
  | zeroList (length : Int)
  | emptyList
  deriving DecidableEq, Repr

namespace DefaultRule

/-- The names of the rules. -/
def names : List String := ["value", "construct", "zero_list", "empty_list"]

/-- The number of a rule. -/
def code : DefaultRule → Nat
  | .value .. => 0
  | .construct => 1
  | .zeroList _ => 2
  | .emptyList => 3

/-- The length of a fixed list. -/
def length : DefaultRule → Int
  | .zeroList n => n
  | _ => 0

/-- The number a field starts with. -/
def value? : DefaultRule → Option Scalar
  | .value s _ => some s
  | _ => none

/-- The schema gives the number. -/
def explicit : DefaultRule → Bool
  | .value _ e => e
  | _ => false

end DefaultRule

/-- The first value of one field. -/
structure FieldDefault where
  field : String
  elem : Element
  rule : DefaultRule
  deriving DecidableEq, Repr

/-- A literal assigned after all fields have their first values. -/
structure Assignment where
  setter : String
  field : String
  /-- The type that declares the field: the plan's own or an ancestor. -/
  owner : String
  type : Primitive
  value : Scalar
  deriving DecidableEq, Repr

/-- A list of bytes that can be used as text. -/
structure TextAccessor where
  field : String
  length : Int
  type : Primitive
  deriving DecidableEq, Repr

end Plan

/-- The plan of a message type. -/
structure Plan where
  name : String
  /-- Empty for no parent. -/
  parentName : String := ""
  comment : String := ""
  /-- The type's own fields, in the order of their declaration. -/
  fields : List Plan.Field := []
  encode : List Plan.EncodeStep := []
  decode : List Plan.DecodeStep := []
  size? : Option Plan.SizeExpression := none
  comparisons : List Plan.Comparison := []
  defaults : List Plan.FieldDefault := []
  assignments : List Plan.Assignment := []
  accessors : List Plan.TextAccessor := []
  /-- The parent's plan, by position among the accepted plans. -/
  parent? : Option Nat := none
  deriving DecidableEq, Repr

namespace Plan

/-- The type extends another; its parent is then written, compared and constructed first. -/
def hasParent (p : Plan) : Bool := !p.parentName.isEmpty

/-- The plan's own field called `name`. -/
def field? (p : Plan) (name : String) : Option Field := p.fields.find? (·.name == name)

end Plan

end WireSchema
