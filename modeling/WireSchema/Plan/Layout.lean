import WireSchema.Plan.Set
import WireSchema.Schema.Write

/-!
# Layout reports

A report describes every accepted plan in lines that can be reviewed: what is written and read in
which order, the size as a sum, and how messages are compared and constructed.
-/

namespace WireSchema

namespace Plan

/-- A write in words. -/
def EncodeStep.text : EncodeStep → String
  | .parent p => "parent " ++ p
  | .primitive f t => "write " ++ t.name ++ " " ++ f
  | .count f list t => "write " ++ t.name ++ " len(" ++ list ++ ") as " ++ f
  | .reference f c => "encode " ++ c ++ " " ++ f
  | .fixedList f n e => "write " ++ e.name ++ "[" ++ toString n ++ "] " ++ f
  | .variableList f e => "write " ++ e.name ++ "[] " ++ f

/-- A read in words. -/
def DecodeStep.text : DecodeStep → String
  | .parent p => "parent " ++ p
  | .primitive f t => "read " ++ t.name ++ " " ++ f
  | .count f _ t discard =>
      if discard then "skip " ++ t.name ++ " " ++ f else "read " ++ t.name ++ " count " ++ f
  | .reference f c => "decode " ++ c ++ " " ++ f
  | .fixedList f n e => "read " ++ e.name ++ "[" ++ toString n ++ "] " ++ f
  | .variableList f e counted => "read " ++ e.name ++ "[" ++ counted ++ "] " ++ f

/-- A part of a size that depends on the message. -/
def SizeTerm.text (t : SizeTerm) : String :=
  match t.rule with
  | .static b _ => toString b
  | .reference _ => "size(" ++ t.field ++ ")"
  | .countTimesWidth b => toString b ++ "*len(" ++ t.field ++ ")"
  | .elementSum .. => "sum(size(" ++ t.field ++ "[i]))"

/-- A size as a sum. -/
def SizeExpression.text (s : SizeExpression) : String :=
  Text.joinWith " + " <|
    (if s.parent.isEmpty then [] else ["size(" ++ s.parent ++ ")"]) ++
      (if 0 < s.fixed || (s.parent.isEmpty && s.dynamic.isEmpty) then [toString s.fixed] else []) ++
      s.dynamic.map (·.text)

/-- The name of a comparison. -/
def CompareRule.name (r : CompareRule) : String := nameAt names r.code

/-- The name of a default. -/
def DefaultRule.name (r : DefaultRule) : String := nameAt names r.code

/-- The name of a size rule. -/
def SizeRule.name (r : SizeRule) : String := nameAt names r.code

/-- A number as a literal of an element's type. -/
def literalOf (e : Element) (s : Scalar) : String :=
  match e with
  | .primitive t => t.format s
  | .message _ => ""

/-- The first value of a field in words. -/
def FieldDefault.text (d : FieldDefault) : String :=
  match d.rule with
  | .value s _ => d.field ++ " = " ++ literalOf d.elem s
  | r => d.field ++ ": " ++ r.name

/-- An assignment in words. -/
def Assignment.text (a : Assignment) : String := a.setter ++ "(" ++ a.type.format a.value ++ ")"

/-- One type in a report. -/
structure TypeLayout where
  name : String
  parent : String
  encode : List String
  decode : List String
  size : String
  equality : List String
  construct : List String
  text : List String
  deriving DecidableEq, Repr

/-- The layout of a plan. -/
def layout (p : Plan) : TypeLayout :=
  let parent := if p.hasParent then ["parent"] else []
  { name := p.name
    parent := p.parentName
    encode := p.encode.map (·.text)
    decode := p.decode.map (·.text)
    size := (p.size?.map (·.text)).getD ""
    equality := parent ++ p.comparisons.map fun c => c.rule.name ++ " " ++ c.field
    construct := parent ++ p.defaults.map (·.text) ++ p.assignments.map (·.text)
    text := p.accessors.map fun t => t.field ++ "[" ++ toString t.length ++ "]" }

open Yaml (Tree)

/-- A list of lines. -/
def linesTree (lines : List String) : Tree := .list (lines.map .text)

/-- The record a type's layout is written as. -/
def TypeLayout.toTree (t : TypeLayout) : Tree :=
  .record <|
    [("name", .text t.name)] ++ Schema.textField "parent" t.parent ++
      [("encode", linesTree t.encode), ("decode", linesTree t.decode)] ++
      Schema.textField "size" t.size ++
      [("equality", linesTree t.equality), ("construct", linesTree t.construct)] ++
      Schema.listField "text_accessors" (t.text.map .text)

end Plan

/-- The layouts of all accepted plans. -/
structure LayoutReport where
  version : String
  types : List Plan.TypeLayout
  rejected : List String
  deriving DecidableEq, Repr

namespace LayoutReport

/-- The report of a plan set. -/
def ofSet (s : PlanSet) : LayoutReport := ⟨"1", s.plans.map Plan.layout, s.rejected⟩

/-- The report as a document. -/
def render (r : LayoutReport) : String :=
  (Yaml.Tree.record <|
    [("version", .text r.version), ("types", .list (r.types.map (·.toTree)))] ++
      Schema.listField "rejected" (r.rejected.map .text)).render

end LayoutReport

end WireSchema
