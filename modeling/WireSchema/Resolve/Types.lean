import WireSchema.Resolve.Scope

/-!
# Binding type names

Parents bind to message types.  A primitive attribute binds to the catalog, a reference to a
message type, and the element of a list to the catalog first and to the message types after it.
Once its type is known, the default of a primitive has to be a literal of it; defaults elsewhere and
text hints on anything but fixed lists of bytes are ignored with a warning.
-/

namespace WireSchema.Resolve

/-- Binds the parent of a message type. -/
def bindParent (sc : Scope) (c : Class) : Class × Report :=
  if c.hasParent then
    match sc.class? c.parent with
    | some p => ({ c with parentClass? := some p }, .empty)
    | none =>
        ({ c with parentClass? := none },
          .error Diagnostic.unknownType
            ("parent type " ++ Text.quoted c.parent ++ " is not declared") c.name ""
            (sc.suggest c.parent sc.names))
  else ({ c with parentClass? := none }, .empty)

/-- Binds the type name of an attribute of the message type `owner`. -/
def bindType (sc : Scope) (owner : String) (a : Attribute) (shape : Shape) :
    Attribute × Report :=
  let a := { a with primitive? := none, class? := none }
  let unknown (message : String) (known : List String) : Attribute × Report :=
    (a, .error Diagnostic.unknownType message owner a.name (sc.suggest a.type known))
  match shape with
  | .primitive =>
      match sc.catalog.lookup a.type with
      | some t => ({ a with primitive? := some t }, .empty)
      | none =>
          let base := "primitive type " ++ Text.quoted a.type ++ " is not in the type catalog"
          let hint :=
            if (sc.class? a.type).isSome then
              " (it names a message type; declare the attribute with class:)"
            else ""
          unknown (base ++ hint) sc.catalog.names
  | .reference =>
      match sc.class? a.type with
      | some c => ({ a with class? := some c }, .empty)
      | none =>
          let base := "referenced type " ++ Text.quoted a.type ++ " is not declared"
          let hint :=
            if (sc.catalog.lookup a.type).isSome then
              " (it names a primitive; declare the attribute with primitive:)"
            else ""
          unknown (base ++ hint) sc.names
  | .fixedList _ | .variableList =>
      match sc.catalog.lookup a.type, sc.class? a.type with
      | some t, _ => ({ a with primitive? := some t }, .empty)
      | none, some c => ({ a with class? := some c }, .empty)
      | none, none =>
          unknown
            ("list element type " ++ Text.quoted a.type ++
              " is neither a primitive nor a declared message type")
            (sc.catalog.names ++ sc.names)

/-- A fixed list of one-byte integers. -/
def isByteList (a : Attribute) : Bool :=
  a.isFixedList &&
    match a.primitive? with
    | some t => t.bits == 8 && t.kind.isInteger
    | none => false

/-- Checks the text hint and the default of an attribute whose type is bound. -/
def checkHints (owner : String) (a : Attribute) (shape : Shape) : Report :=
  (if a.couldBeString && !isByteList a then
    Report.warning Diagnostic.textHintIgnored
      "could_be_string only applies to fixed lists of 8-bit integers" owner a.name
  else .empty) ++
  match a.default? with
  | none => .empty
  | some literal =>
      if shape ≠ .primitive then
        .warning Diagnostic.defaultIgnored
          ("default " ++ Text.quoted literal ++ " ignored on " ++ shape.name ++ " attribute")
          owner a.name
      else
        match a.primitive? with
        | none => .empty
        | some t =>
            match t.parse literal with
            | .ok _ => .empty
            | .error e => .error Diagnostic.invalidLiteral e.message owner a.name

/-- Binds and checks one attribute.  One without a shape is left to the validator. -/
def bindAttribute (sc : Scope) (owner : String) (a : Attribute) : Attribute × Report :=
  match a.shape with
  | none => ({ a with primitive? := none, class? := none }, .empty)
  | some shape =>
      let (bound, found) := bindType sc owner a shape
      (bound, found ++ checkHints owner bound shape)

end WireSchema.Resolve
