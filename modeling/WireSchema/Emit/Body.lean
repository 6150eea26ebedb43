import WireSchema.Emit.Reading
import WireSchema.Plan.Layout

/-!
# Bodies of generated methods

Each method follows one part of the plan: writing, the size, comparison and construction.
-/

namespace WireSchema.Emit

open Plan (EncodeStep SizeExpression SizeTerm Comparison FieldDefault Assignment)

/-- The elements of a list are written. -/
def encodeElements (field : String) : Element → List Line
  | .message _ =>
      block 1 ("for i := range m." ++ fieldIdent field)
        [.code 2 ("m." ++ fieldIdent field ++ "[i].MarshalWire(w)")]
  | .primitive t =>
      block 1 ("for _, v := range m." ++ fieldIdent field)
        [.code 2 ("w." ++ t.kind.accessor ++ "(v)")]

/-- The statements of a write. -/
def encodeLines : EncodeStep → List Line
  | .parent p => [stmt ("m." ++ typeName p ++ ".MarshalWire(w)")]
  | .primitive f t => [stmt ("w." ++ t.kind.accessor ++ "(m." ++ fieldIdent f ++ ")")]
  | .count _ list t =>
      [stmt ("w." ++ t.kind.accessor ++ "(" ++ t.kind.typeName ++ "(len(m." ++ fieldIdent list ++
        ")))")]
  | .reference f _ => [stmt ("m." ++ fieldIdent f ++ ".MarshalWire(w)")]
  | .fixedList f _ e => encodeElements f e
  | .variableList f e => encodeElements f e

/-- The body of the size method. -/
def sizeLines (s : SizeExpression) : List Line :=
  if s.parent.isEmpty && s.dynamic.isEmpty then [stmt ("return " ++ toString s.fixed)]
  else
    let parent := "m." ++ typeName s.parent ++ ".MarshalledSize()"
    let start :=
      if s.parent.isEmpty then toString s.fixed
      else if s.fixed = 0 then parent
      else parent ++ " + " ++ toString s.fixed
    let term (t : SizeTerm) : List Line :=
      let id := fieldIdent t.field
      match t.rule with
      | .static .. => []
      | .reference _ => [stmt ("n += m." ++ id ++ ".MarshalledSize()")]
      | .countTimesWidth b => [stmt ("n += len(m." ++ id ++ ") * " ++ toString b)]
      | .elementSum .. =>
          block 1 ("for i := range m." ++ id) [.code 2 ("n += m." ++ id ++ "[i].MarshalledSize()")]
    stmt ("n := " ++ start) :: s.dynamic.flatMap term ++ [.blank, stmt "return n"]

/-- A difference ends the comparison. -/
def unequalIf (depth : Nat) (condition : String) : List Line :=
  block depth ("if " ++ condition) [.code (depth + 1) "return false"]

/-- The elements of two lists of messages are compared. -/
def compareElements (id : String) : List Line :=
  block 1 ("for i := range m." ++ id) (unequalIf 2 ("!m." ++ id ++ "[i].Equal(&o." ++ id ++ "[i])"))

/-- The statements of a comparison. -/
def compareLines (c : Comparison) : List Line :=
  let id := fieldIdent c.field
  let different := unequalIf 1 ("m." ++ id ++ " != o." ++ id)
  match c.rule with
  | .reference => unequalIf 1 ("!m." ++ id ++ ".Equal(&o." ++ id ++ ")")
  | .value => different
  | .fixedList _ => if c.elem.isMessage then compareElements id else different
  | .variableList =>
      if c.elem.isMessage then
        unequalIf 1 ("len(m." ++ id ++ ") != len(o." ++ id ++ ")") ++ compareElements id
      else unequalIf 1 ("!slices.Equal(m." ++ id ++ ", o." ++ id ++ ")")

/-- The statements that compare two messages. -/
def equalLines (p : Plan) : List Line :=
  (if p.hasParent then
    unequalIf 1 ("!m." ++ typeName p.parentName ++ ".Equal(&o." ++ typeName p.parentName ++ ")")
  else []) ++ p.comparisons.flatMap compareLines

/-- Whether the comparison needs the library for lists. -/
def needsSlices (p : Plan) : Bool :=
  p.comparisons.any fun c => c.rule == .variableList && !c.elem.isMessage

/-- The statements of a field's first value. -/
def defaultLines (d : FieldDefault) : List Line :=
  let id := fieldIdent d.field
  match d.rule with
  | .value s explicit =>
      if explicit then [stmt ("m." ++ id ++ " = " ++ Plan.literalOf d.elem s)] else []
  | .construct => [stmt ("m." ++ id ++ "." ++ constructName ++ "()")]
  | .zeroList _ =>
      if d.elem.isMessage then
        block 1 ("for i := range m." ++ id)
          [.code 2 ("m." ++ id ++ "[i]." ++ constructName ++ "()")]
      else []
  | .emptyList => []

/-- The statement of an assignment. -/
def assignLine (a : Assignment) : Line :=
  stmt ("m.Set" ++ exported a.field ++ "(" ++ a.type.format a.value ++ ")")

/-- The body of the constructor; count fields cannot be assigned. -/
def constructLines (set : PlanSet) (p : Plan) : Except Error (List Line) := do
  let bad := p.assignments.find? fun a =>
    ((set.lookupField p a.field).map (·.isCount)).getD false
  match bad with
  | some a => throw (.countAssigned p.name a.setter a.field)
  | none =>
      return (if p.hasParent then
          [stmt ("m." ++ typeName p.parentName ++ "." ++ constructName ++ "()")]
        else []) ++
        p.defaults.flatMap defaultLines ++ p.assignments.map assignLine

end WireSchema.Emit
