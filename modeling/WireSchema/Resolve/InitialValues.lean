import WireSchema.Resolve.Scope

/-!
# Binding initial values

The setter of an initial value names an attribute of the message type or of its nearest ancestor
that has one.  Only primitives that are not count fields can be set, and the literal has to be one
of the attribute's type.
-/

namespace WireSchema.Resolve

/-- The setters of the message type at `i`, its own first. -/
def setterNames (m : Model) (i : Nat) : List String :=
  (m.chain i).flatMap fun j =>
    match m.classes[j]? with
    | some c =>
        (c.attributes.filter fun a => a.isPrimitive && !a.isCount).map fun a =>
          Naming.setterName a.name
    | none => []

/-- Binds one initial value of the message type `owner` at `i`. -/
def bindInitialValue (sc : Scope) (m : Model) (i : Nat) (owner : String) (iv : InitialValue) :
    InitialValue × Report :=
  let iv := { iv with target? := none }
  let setter := "setter " ++ Text.quoted iv.setter
  let refused (message : String) (suggestions : List String) : InitialValue × Report :=
    (iv, .error Diagnostic.unknownSetter message owner iv.setter suggestions)
  match m.lookupAttribute i (Naming.setterField iv.setter) with
  | none =>
      refused (setter ++ " does not match any attribute of " ++ owner ++ " or its parents")
        (sc.suggest iv.setter (setterNames m i))
  | some place =>
      match m.attribute? place with
      | none => (iv, .empty)
      | some a =>
          if a.isCount then
            refused
              (setter ++ " targets count field " ++ Text.quoted a.name ++
                ", which has no setter") []
          else if !a.isPrimitive then
            refused
              (setter ++ " targets " ++ a.shapeName ++ " attribute " ++ Text.quoted a.name ++
                "; initial values only set primitives") []
          else
            match a.primitive? with
            | none => (iv, .empty)
            | some t =>
                match t.parse iv.value with
                | .ok _ => ({ iv with target? := some place }, .empty)
                | .error e =>
                    (iv, .error Diagnostic.invalidLiteral e.message owner iv.setter)

/-- Binds the initial values of the message type at `i`. -/
def bindInitialValues (sc : Scope) (m : Model) (i : Nat) (c : Class) : Class × Report :=
  let results := c.initialValues.map (bindInitialValue sc m i c.name)
  ({ c with initialValues := results.map (·.1) }, .join (results.map (·.2)))

end WireSchema.Resolve
