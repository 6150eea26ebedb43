import WireSchema.Emit.Body
import WireSchema.Emit.Clash

/-!
# Generated files

One file per message type, and one that serves them all: the interface the types share, their names,
and a constructor by name.  The file of a type declares a record of its stored fields, a constructor
and `methods`.
-/

namespace WireSchema.Emit

/-- The first line of every generated file. -/
def header : String := "// Code generated by pdu-generator. DO NOT EDIT."

/-- What generated files have in common. -/
structure Target where
  package : String
  /-- Where the generated code finds its readers and writers. -/
  wireImport : String
  /-- Comments of the schema are copied. -/
  comments : Bool

/-- The lines of a comment in the schema. -/
def commentLines (s : String) : List String :=
  let s := Text.trim s
  if s.isEmpty then [] else (Text.lines s).map Text.trim

/-- The head of a file: its mark, package and imports. -/
def fileHead (t : Target) (standard : List String) : List Line :=
  [.code 0 header, .blank, .code 0 ("package " ++ t.package), .blank, .code 0 "import ("] ++
    standard.map (fun i => .code 1 ("\"" ++ i ++ "\"")) ++
    (if standard.isEmpty then [] else [.blank]) ++
    [.code 1 ("\"" ++ t.wireImport ++ "\""), .code 0 ")", .blank]

/-- The type of an element. -/
def elemType : Element → String
  | .message c => typeName c
  | .primitive t => t.kind.typeName

/-- The type of a stored field. -/
def storageType (f : Plan.Field) : String :=
  match f.shape with
  | .fixedList _ => "[" ++ toString f.length ++ "]" ++ elemType f.elem
  | .variableList => "[]" ++ elemType f.elem
  | _ => elemType f.elem

/-- The fields that are stored; counts are not. -/
def storedFields (p : Plan) : List Plan.Field := p.fields.filter fun f => !f.isCount

/-- The record type of a plan. -/
def structLines (t : Target) (p : Plan) : List Line :=
  let name := typeName p.name
  let doc := if t.comments then commentLines p.comment else []
  let stored (f : Plan.Field) : List Line :=
    (if t.comments then (commentLines f.comment).map (.comment 1) else []) ++
      [.field (fieldIdent f.name) (storageType f) (if f.serialized then "" else "not serialized")]
  (if doc.isEmpty then [Line.comment 0 (name ++ " is a wire message.")]
    else doc.map (.comment 0)) ++
    block 0 ("type " ++ name ++ " struct")
      ((if p.hasParent then [.code 1 (typeName p.parentName), .blank] else []) ++
        (storedFields p).flatMap stored)

/-- A method of a message type. -/
structure Method where
  /-- The comment above it. -/
  doc : List String := []
  name : String
  /-- Its parameters and results. -/
  signature : String
  body : List Line

/-- The lines of a method of the type `type`. -/
def Method.lines (type : String) (m : Method) : List Line :=
  .blank :: m.doc.map (.comment 0) ++
    block 0 ("func (m *" ++ type ++ ") " ++ m.name ++ m.signature) m.body

/-- The method that reads a count: the length of its list. -/
def countGetter (f : Plan.Field) : Method :=
  let list := fieldIdent f.countOf
  let type := storageType f
  { doc :=
      [ exported f.name ++ " is the number of elements in " ++ list ++ ". The wire carries it",
        "as " ++ type ++ ", so a longer list is truncated by MarshalWire." ]
    name := exported f.name
    signature := "() " ++ type
    body := [stmt ("return " ++ type ++ "(len(m." ++ list ++ "))")] }

/-- The method that reads a stored field.  Embedded messages and fixed lists are changed in
place. -/
def getter (f : Plan.Field) : Method :=
  if f.isFixedList || f.shape == .reference then
    { doc := [exported f.name ++ " returns " ++ f.name ++ " for in-place modification."]
      name := exported f.name
      signature := "() *" ++ storageType f
      body := [stmt ("return &m." ++ fieldIdent f.name)] }
  else
    { name := exported f.name
      signature := "() " ++ storageType f
      body := [stmt ("return m." ++ fieldIdent f.name)] }

/-- The method that assigns a stored field. -/
def setter (f : Plan.Field) : Method where
  name := "Set" ++ exported f.name
  signature := "(v " ++ storageType f ++ ")"
  body := [stmt ("m." ++ fieldIdent f.name ++ " = v")]

/-- The method that adds to a variable list. -/
def appender (f : Plan.Field) : Method where
  name := "Append" ++ exported f.name
  signature := "(v ..." ++ elemType f.elem ++ ")"
  body := [stmt ("m." ++ fieldIdent f.name ++ " = append(m." ++ fieldIdent f.name ++ ", v...)")]

/-- The accessors of a field. -/
def accessorMethods (f : Plan.Field) : List Method :=
  if f.isCount then [countGetter f]
  else [getter f, setter f] ++ if f.isVariableList then [appender f] else []

/-- The text accessors of a field. -/
def textMethods (t : Plan.TextAccessor) : List Method :=
  let id := fieldIdent t.field
  let name := exported t.field ++ "Text"
  let length := toString t.length
  [ { doc := [name ++ " returns " ++ t.field ++ " as text, all " ++ length ++ " bytes included."]
      name
      signature := "() string"
      body := [stmt ("return wire.Text(m." ++ id ++ "[:])")] },
    { doc :=
        ["Set" ++ name ++ " copies s into " ++ t.field ++ ", truncating or zero-padding it to " ++
          length ++ " bytes."]
      name := "Set" ++ name
      signature := "(s string)"
      body := [stmt ("wire.CopyText(m." ++ id ++ "[:], s)")] } ]

/-- The method that gives a new message its defaults. -/
def constructMethod (body : List Line) : Method where
  name := constructName
  signature := "()"
  body

/-- The method that writes a message. -/
def writeMethod (p : Plan) : Method where
  doc := ["MarshalWire writes " ++ typeName p.name ++ " in wire order."]
  name := "MarshalWire"
  signature := "(w *wire.Writer)"
  body := p.encode.flatMap encodeLines

/-- The method that reads a message. -/
def readMethod (p : Plan) (stmts : List ReadStmt) : Method where
  doc :=
    ["UnmarshalWire reads " ++ typeName p.name ++
      " in wire order and reports the first read error."]
  name := "UnmarshalWire"
  signature := "(r *wire.Reader) error"
  body := readLines stmts ++ [.blank, stmt "return r.Err()"]

/-- The method that measures a message. -/
def sizeMethod (s : Plan.SizeExpression) : Method where
  doc := ["MarshalledSize is the number of bytes MarshalWire writes."]
  name := "MarshalledSize"
  signature := "() int"
  body := sizeLines s

/-- The method that compares two messages. -/
def equalMethod (p : Plan) : Method where
  doc := ["Equal compares every field, parent part first."]
  name := "Equal"
  signature := "(o *" ++ typeName p.name ++ ") bool"
  body :=
    block 1 "if m == o" [.code 2 "return true"] ++ [.blank] ++
      block 1 "if m == nil || o == nil" [.code 2 "return false"] ++ [.blank] ++
      equalLines p ++ [.blank, stmt "return true"]

/-- The methods of a message type, with the body of its constructor and the statements that read
it. -/
def methods (p : Plan) (construct : List Line) (stmts : List ReadStmt) : List Method :=
  [constructMethod construct] ++ p.fields.flatMap accessorMethods ++
    p.accessors.flatMap textMethods ++ [writeMethod p, readMethod p stmts] ++
    (p.size?.map sizeMethod).toList ++ [equalMethod p]

/-- The file of a plan. -/
def typeLines (t : Target) (set : PlanSet) (p : Plan) : Except Error (List Line) := do
  let name := typeName p.name
  let construct ← constructLines set p
  let stmts ← readStmts p
  return fileHead t (if needsSlices p then ["slices"] else []) ++ structLines t p ++
    [ .blank,
      .comment 0 (constructorName p.name ++ " returns a new " ++ name ++
        " with its defaults and initial values applied.") ] ++
    block 0 ("func " ++ constructorName p.name ++ "() *" ++ name)
      [ stmt ("m := &" ++ name ++ "\x7b\x7d"), stmt ("m." ++ constructName ++ "()"), .blank,
        stmt "return m" ] ++
    (methods p construct stmts).flatMap (·.lines name)

/-- The file that serves all types. -/
def supportLines (t : Target) (plans : List Plan) : List Line :=
  let sized := !plans.isEmpty && plans.all (·.size?.isSome)
  fileHead t [] ++
    .comment 0 "Message is implemented by every generated type." ::
    block 0 "type Message interface"
      ([stmt "MarshalWire(w *wire.Writer)", stmt "UnmarshalWire(r *wire.Reader) error"] ++
        if sized then [stmt "MarshalledSize() int"] else []) ++
    [ .blank, .comment 0 "TypeNames lists the generated types, parents before children.",
      .literal "var TypeNames = []string" (plans.map fun p => Text.quoted p.name),
      .blank, .comment 0 "NewMessage default-constructs the named type." ] ++
    block 0 "func NewMessage(name string) (Message, bool)"
      (block 1 "switch name"
          (plans.flatMap fun p =>
            [ stmt ("case " ++ Text.quoted p.name ++ ":"),
              .code 2 ("return " ++ constructorName p.name ++ "(), true") ]) ++
        [.blank, stmt "return nil, false"]) ++
    [.blank, .comment 0 "Marshal encodes m into a new byte slice."] ++
    block 0 "func Marshal(m Message) []byte"
      [ stmt ("w := wire.NewWriter(" ++ (if sized then "m.MarshalledSize()" else "0") ++ ")"),
        stmt "m.MarshalWire(w)", .blank, stmt "return w.Bytes()" ] ++
    [.blank, .comment 0 "Unmarshal decodes p into m. Trailing bytes are ignored."] ++
    block 0 "func Unmarshal(p []byte, m Message) error"
      [stmt "return m.UnmarshalWire(wire.NewReader(p))"]

/-- The types a file mentions can stand where types are expected. -/
def mentionsFit (p : Plan) : Bool :=
  (!p.hasParent || isTypeText (typeName p.parentName)) &&
    p.fields.all fun f => !f.elem.isMessage || isTypeText (typeName f.elem.name)

end WireSchema.Emit
