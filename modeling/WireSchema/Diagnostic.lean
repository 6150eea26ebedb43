import WireSchema.Text.Blank

/-!
# Diagnostics

What the checks of a schema report: errors, warnings and notes, each with a code, a message, the
message type and field it concerns, and possibly suggestions.  A report keeps the three severities
apart and is sorted, stably, by type, field and code, so that it does not depend on the order in
which types were checked.
-/

namespace WireSchema

/-- How serious a finding is. -/
inductive Severity where
  | info
  | warning
  | error
  deriving DecidableEq, Repr

namespace Severity

/-- The severity's name. -/
def name : Severity → String
  | .info => "info"
  | .warning => "warning"
  | .error => "error"

/-- The severity with a given number. -/
def ofCode? : Int → Option Severity
  | 0 => some .info
  | 1 => some .warning
  | 2 => some .error
  | _ => none

/-- The name of the severity with a given number. -/
def nameOfCode (n : Int) : String := ((ofCode? n).map name).getD "unknown"

end Severity

/-- One finding. -/
structure Diagnostic where
  severity : Severity
  code : String
  message : String
  /-- The message type concerned; empty for none. -/
  type : String
  /-- The field concerned; empty for none. -/
  field : String
  suggestions : List String
  deriving DecidableEq, Repr

namespace Diagnostic

/-- The finding in one line. -/
def text (d : Diagnostic) : String :=
  let place :=
    (if d.type.isEmpty then [] else ["[" ++ d.type ++ "]"]) ++
      (if d.field.isEmpty then [] else [d.field])
  let body := if d.code.isEmpty then d.message else "[" ++ d.code ++ "] " ++ d.message
  let hint :=
    if d.suggestions.isEmpty then ""
    else " (did you mean " ++ Text.joinWith ", " d.suggestions ++ "?)"
  if place.isEmpty then body ++ hint else Text.joinWith " " place ++ ": " ++ body ++ hint

/-- Whether `a` may stand before `b` in a sorted report. -/
def notAfter (a b : Diagnostic) : Bool :=
  if a.type ≠ b.type then decide (a.type < b.type)
  else if a.field ≠ b.field then decide (a.field < b.field)
  else decide (a.code ≤ b.code)

/-- The code of an error: a name that nothing declares. -/
def unknownType : String := "unknown_type"

/-- The code of an error: a list without exactly one sound count field. -/
def unresolvedCount : String := "unresolved_count_field"

/-- The code of an error: a shape that cannot be laid out. -/
def unsupportedShape : String := "unsupported_shape"

/-- The code of an error: a name declared twice. -/
def duplicateName : String := "duplicate_name"

/-- The code of an error: a type that contains itself. -/
def compositionCycle : String := "composition_cycle"

/-- The code of an error: a setter that sets nothing. -/
def unknownSetter : String := "unknown_setter"

/-- The code of an error: a literal its type refuses. -/
def invalidLiteral : String := "invalid_literal"

/-- The code of a warning: a text hint without effect. -/
def textHintIgnored : String := "could_be_string_ignored"

/-- The code of a warning: a default without effect. -/
def defaultIgnored : String := "default_ignored"

end Diagnostic

/-- The findings of a check, by severity. -/
structure Report where
  errors : List Diagnostic := []
  warnings : List Diagnostic := []
  infos : List Diagnostic := []
  deriving DecidableEq, Repr

namespace Report

/-- Nothing found. -/
def empty : Report := {}

/-- One error. -/
def error (code message type field : String) (suggestions : List String := []) : Report :=
  { errors := [⟨.error, code, message, type, field, suggestions⟩] }

/-- One warning. -/
def warning (code message type field : String) : Report :=
  { warnings := [⟨.warning, code, message, type, field, []⟩] }

/-- One note. -/
def info (code message type field : String) : Report :=
  { infos := [⟨.info, code, message, type, field, []⟩] }

/-- The findings of both, those of `a` first. -/
def merge (a b : Report) : Report :=
  ⟨a.errors ++ b.errors, a.warnings ++ b.warnings, a.infos ++ b.infos⟩

instance : Append Report := ⟨merge⟩

/-- The findings of all, in order. -/
def join (rs : List Report) : Report := rs.foldr merge empty

/-- Whether an error was found. -/
def hasErrors (r : Report) : Bool := !r.errors.isEmpty

/-- The findings with a code, errors first. -/
def byCode (r : Report) (code : String) : List Diagnostic :=
  (r.errors ++ r.warnings ++ r.infos).filter (·.code == code)

/-- The errors of a type. -/
def forType (r : Report) (type : String) : List Diagnostic :=
  r.errors.filter (·.type == type)

/-- Drops later copies of elements that occurred before. -/
def distinct [DecidableEq α] : List α → List α
  | [] => []
  | x :: xs => x :: (distinct xs).filter (· ≠ x)

/-- The names of the types with errors, in order. -/
def failedTypes (r : Report) : List String :=
  (distinct ((r.errors.map (·.type)).filter fun t => !t.isEmpty)).mergeSort

/-- The report in its final order. -/
def sort (r : Report) : Report :=
  ⟨r.errors.mergeSort Diagnostic.notAfter, r.warnings.mergeSort Diagnostic.notAfter,
    r.infos.mergeSort Diagnostic.notAfter⟩

/-- All errors in one line, if there are any. -/
def errorText? (r : Report) : Option String :=
  if r.hasErrors then some (Text.joinWith "; " (r.errors.map (·.text))) else none

end Report

end WireSchema
