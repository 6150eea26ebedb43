import WireSchema.Emit.Error
import WireSchema.Emit.Ident
import WireSchema.Plan

/-!
# Clashes of generated names

Names are claimed one after the other, each by an owner; a name that is already taken is a clash
with its owner.
-/

namespace WireSchema.Emit

/-- Names with their owners. -/
abbrev Claims : Type := List (String × String)

/-- Claims a name; `clash` words the error from the name's owner. -/
def Claims.claim (taken : Claims) (name owner : String) (clash : String → Error) :
    Except Error Claims :=
  match taken.lookup name with
  | some other => .error (clash other)
  | none => .ok ((name, owner) :: taken)

/-- Claims several names in order. -/
def claimAll (clash : String → String → String → Error) :
    Claims → List (String × String) → Except Error Claims
  | taken, [] => .ok taken
  | taken, (name, owner) :: rest => do
      claimAll clash (← taken.claim name owner (clash owner name)) rest

/-- The methods every type has. -/
def standardMethods : Claims :=
  [ (constructName, "constructor"), ("MarshalWire", "encoder"), ("UnmarshalWire", "decoder"),
    ("MarshalledSize", "size method"), ("Equal", "equality method") ]

/-- The accessors of a field, with what they are for. -/
def accessorsOf (f : Plan.Field) : List (String × String) :=
  (exported f.name, "getter of " ++ f.name) ::
    (if f.isCount then []
     else
       ("Set" ++ exported f.name, "setter of " ++ f.name) ::
         (if f.isVariableList then [("Append" ++ exported f.name, "appender of " ++ f.name)]
          else []))

/-- The text accessors of a field, with what they are for. -/
def textAccessorsOf (t : Plan.TextAccessor) : List (String × String) :=
  [ (exported t.field ++ "Text", "text getter of " ++ t.field),
    ("Set" ++ exported t.field ++ "Text", "text setter of " ++ t.field) ]

/-- Checks the fields of a plan in order: names, stored fields, accessors. -/
def checkFields (type : String) (clash : String → String → String → Error) :
    (idents methods : Claims) → List Plan.Field → Except Error Claims
  | _, methods, [] => .ok methods
  | idents, methods, f :: rest => do
      let id := fieldIdent f.name
      if !isIdent id || !isIdent (exported f.name) then throw (.badFieldName type f.name)
      let idents ← idents.claim id f.name fun other => .sharedField type other f.name id
      let methods ← claimAll clash methods (accessorsOf f)
      checkFields type clash idents methods rest

/-- The names of a plan are identifiers and do not clash. -/
def checkPlan (p : Plan) : Except Error Unit := do
  if !isIdent (typeName p.name) then throw (.badTypeName p.name)
  let clash (owner name other : String) : Error := .methodClash p.name owner name other
  let methods :=
    if p.hasParent then (typeName p.parentName, "embedded parent") :: standardMethods
    else standardMethods
  let methods ← checkFields p.name clash [] methods p.fields
  let _ ← claimAll clash methods (p.accessors.flatMap textAccessorsOf)

/-- The names of the file that serves all types. -/
def supportNames : Claims :=
  ["Message", "NewMessage", "TypeNames", "Marshal", "Unmarshal"].map (·, "support file")

/-- The names outside types do not clash. -/
def checkPackage (plans : List Plan) : Except Error Unit := do
  let _ ← claimAll (fun owner name other => .packageClash name owner other) supportNames
    (plans.flatMap fun p =>
      [(typeName p.name, p.name), (constructorName p.name, p.name)])

end WireSchema.Emit
