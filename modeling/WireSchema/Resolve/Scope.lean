import WireSchema.Diagnostic
import WireSchema.Naming.Suggestion
import WireSchema.Schema.Model

/-!
# What names can mean

The scope of a resolution: the catalog, the names of the declared message types, and how many
suggestions an unknown name gets.  Of two message types with one name the first is meant.
-/

namespace WireSchema.Resolve

/-- What names can mean. -/
structure Scope where
  catalog : Catalog
  names : List String
  limit : Int

namespace Scope

/-- The message type a name means. -/
def class? (sc : Scope) (name : String) : Option Nat := sc.names.findIdx? (· == name)

/-- Known names that look like an unknown one. -/
def suggest (sc : Scope) (name : String) (known : List String) : List String :=
  Naming.suggest name known sc.limit

end Scope

/-- One error for every attribute whose name an earlier one has. -/
def repeatedAttributes (owner : String) : List String → List String → Report
  | _, [] => .empty
  | seen, name :: rest =>
      (if seen.contains name then
        Report.error Diagnostic.duplicateName
          ("attribute " ++ Text.quoted name ++ " is declared more than once") owner name
      else .empty) ++ repeatedAttributes owner (name :: seen) rest

/-- One error for every message type whose name an earlier one has, and for the repeated
attributes of the others. -/
def repeatedNames : List String → List Class → Report
  | _, [] => .empty
  | seen, c :: rest =>
      (if seen.contains c.name then
        Report.error Diagnostic.duplicateName
          ("message type " ++ Text.quoted c.name ++ " is declared more than once") c.name ""
      else repeatedAttributes c.name [] (c.attributes.map (·.name))) ++
        repeatedNames (c.name :: seen) rest

end WireSchema.Resolve
