import WireSchema.Schema.Entry
import WireSchema.Text.Utf8
import WireSchema.Yaml.Printer

/-!
# Writing schemas

A model is written as the file that means it.  Keys without content are left out, except names,
setters, values and the list of message types.  Links are not written.
-/

namespace WireSchema.Schema

open Yaml (Tree)

/-- A text field, left out when empty. -/
def textField (key value : String) : List (String × Tree) :=
  if value.isEmpty then [] else [(key, .text value)]

/-- A list field, left out when empty. -/
def listField (key : String) (items : List Tree) : List (String × Tree) :=
  if items.isEmpty then [] else [(key, .list items)]

namespace AttributeEntry

/-- The record an attribute is written as. -/
def toTree (a : AttributeEntry) : Tree :=
  .record <|
    [("name", .text a.name)] ++ textField "primitive" a.primitive ++ textField "class" a.class_ ++
      (match a.fixedList with
        | some f => [("fixed_list", .record [("type", .text f.type), ("length", .int f.length)])]
        | none => []) ++
      (match a.variableList with
        | some v =>
            [("variable_list",
              .record (("type", .text v.type) :: textField "count_field" v.countField))]
        | none => []) ++
      textField "count_of" a.countOf ++
      (match a.serialize with
        | some b => [("serialize", .bool b)]
        | none => []) ++
      (match a.default_ with
        | some s => [("default", .text s)]
        | none => []) ++
      (if a.couldBeString then [("could_be_string", .bool true)] else []) ++
      textField "comment" a.comment

end AttributeEntry

/-- The record a message type is written as. -/
def ClassEntry.toTree (c : ClassEntry) : Tree :=
  .record <|
    [("name", .text c.name)] ++ textField "parent" c.parent ++ textField "comment" c.comment ++
      listField "attributes" (c.attributes.map (·.toTree)) ++
      listField "initial_values"
        (c.initialValues.map fun v =>
          .record [("setter", .text v.setter), ("value", .text v.value)])

/-- The document a file is written as. -/
def FileEntry.toTree (f : FileEntry) : Tree :=
  .record (textField "version" f.version ++ [("classes", .list (f.classes.map (·.toTree)))])

/-- The bytes a file is written as. -/
def FileEntry.toBytes (f : FileEntry) : List UInt8 := Text.bytesOf f.toTree.render

/-- The file of a model, written with `print`. -/
def writeWith (print : FileEntry → σ) (m : Model) : σ := print (FileEntry.ofModel m)

/-- The schema file of a model. -/
def write (m : Model) : List UInt8 := writeWith FileEntry.toBytes m

end WireSchema.Schema
