import WireSchema.Resolve.Scope

/-!
# Binding counts

Every variable list needs exactly one count field in its own message type.  Candidates are the
attributes flagged as counting the list, and the attribute that the list itself names.  A count
field is an integer primitive and counts one list.  Lists bind in declaration order; what an earlier
list binds is seen by the later ones.
-/

namespace WireSchema.Resolve

/-- Fit to be a count field: a primitive, and an integer if its type is known. -/
def isCountable (a : Attribute) : Bool :=
  a.isPrimitive &&
    match a.primitive? with
    | some t => t.kind.isInteger
    | none => true

/-- The names of the primitive attributes. -/
def primitiveNames (attrs : List Attribute) : List String :=
  (attrs.filter (·.isPrimitive)).map (·.name)

/-- The names of the variable lists. -/
def variableListNames (attrs : List Attribute) : List String :=
  (attrs.filter (·.isVariableList)).map (·.name)

/-- The places of the attributes flagged as counting the list at `li`. -/
def flaggedFor (attrs : List Attribute) (li : Nat) (list : Attribute) : List Nat :=
  (List.range attrs.length).filter fun i =>
    decide (i ≠ li) &&
      match attrs[i]? with
      | some p => p.isCount && p.counts == list.name
      | none => false

/-- An element added at the end unless it is there. -/
def appendNew [DecidableEq α] (xs : List α) (x : α) : List α := if x ∈ xs then xs else xs ++ [x]

/-- The candidates for counting the list at `li`, or nothing when the list names a count field that
is not declared. -/
def candidates? (attrs : List Attribute) (li : Nat) (list : Attribute) : Option (List Nat) :=
  let flagged := flaggedFor attrs li list
  if list.countFieldName.isEmpty then some flagged
  else
    match attrs.findIdx? (·.name == list.countFieldName) with
    | some i => if i = li then none else some (appendNew flagged i)
    | none => none

/-- The names of attributes, quoted and separated by commas. -/
def quotedNames (attrs : List Attribute) (places : List Nat) : String :=
  Text.joinWith ", " (places.map fun i => Text.quoted ((attrs[i]?.map (·.name)).getD ""))

/-- Binds the list at `li` to the count field at `pi`, which is its only candidate. -/
def bindPair (owner : String) (ci : Nat) (attrs : List Attribute) (li pi : Nat)
    (list p : Attribute) : List Attribute × Report :=
  let attrs := attrs.set pi { p with isCount := true }
  if !isCountable p then (attrs, .empty)
  else
    match p.countedList? with
    | some other =>
        let otherName := (attrs[other.attr]?.map (·.name)).getD ""
        (attrs, .error Diagnostic.unresolvedCount
          ("count field " ++ Text.quoted p.name ++ " sizes both " ++ Text.quoted otherName ++
            " and " ++ Text.quoted list.name) owner p.name)
    | none =>
        let attrs := attrs.set pi
          { p with
            isCount := true
            countedList? := some ⟨ci, li⟩
            counts := if p.counts.isEmpty then list.name else p.counts }
        (attrs.set li { list with countField? := some ⟨ci, pi⟩ }, .empty)

/-- Binds the list at `li`. -/
def bindList (sc : Scope) (owner : String) (ci : Nat) (attrs : List Attribute) (li : Nat)
    (list : Attribute) : List Attribute × Report :=
  match candidates? attrs li list with
  | none =>
      (attrs, .error Diagnostic.unresolvedCount
        ("count field " ++ Text.quoted list.countFieldName ++ " of list " ++
          Text.quoted list.name ++ " is not declared in " ++ owner) owner list.name
        (sc.suggest list.countFieldName (primitiveNames attrs)))
  | some [] =>
      (attrs, .error Diagnostic.unresolvedCount
        ("variable list " ++ Text.quoted list.name ++ " has no count field") owner list.name
        (sc.suggest (list.name ++ "Count") (primitiveNames attrs)))
  | some [pi] =>
      match attrs[pi]? with
      | some p => bindPair owner ci attrs li pi list p
      | none => (attrs, .empty)
  | some places =>
      (attrs, .error Diagnostic.unresolvedCount
        ("variable list " ++ Text.quoted list.name ++ " has " ++ toString places.length ++
          " count fields: " ++ quotedNames attrs places) owner list.name)

/-- Binds the lists at the given places, in order. -/
def bindLists (sc : Scope) (owner : String) (ci : Nat) :
    List Nat → List Attribute → List Attribute × Report
  | [], attrs => (attrs, .empty)
  | li :: rest, attrs =>
      match attrs[li]? with
      | some list =>
          if list.isVariableList then
            let (attrs, found) := bindList sc owner ci attrs li list
            let (attrs, more) := bindLists sc owner ci rest attrs
            (attrs, found ++ more)
          else bindLists sc owner ci rest attrs
      | none => bindLists sc owner ci rest attrs

/-- What is wrong with a count field once all lists are bound. -/
def checkCount (sc : Scope) (owner : String) (attrs : List Attribute) (p : Attribute) : Report :=
  if !isCountable p then
    .error Diagnostic.unresolvedCount
      ("count field " ++ Text.quoted p.name ++ " must be an integer primitive, got " ++
        p.shapeName ++ " " ++ Text.quoted p.type) owner p.name
  else
    (match p.default? with
      | some literal =>
          Report.warning Diagnostic.defaultIgnored
            ("default " ++ Text.quoted literal ++
              " ignored on count field; its value is the list length") owner p.name
      | none => .empty) ++
    if p.countedList?.isSome then .empty
    else if p.counts.isEmpty then
      .error Diagnostic.unresolvedCount
        ("count field " ++ Text.quoted p.name ++ " does not name the list it sizes") owner p.name
    else
      let sizes := "count field " ++ Text.quoted p.name ++ " sizes " ++ Text.quoted p.counts
      match attrs.find? (·.name == p.counts) with
      | none =>
          .error Diagnostic.unresolvedCount
            (sizes ++ ", which is not declared in " ++ owner) owner p.name
            (sc.suggest p.counts (variableListNames attrs))
      | some target =>
          if target.isVariableList then .empty
          else
            .error Diagnostic.unresolvedCount
              (sizes ++ ", which is a " ++ target.shapeName ++ ", not a variable list") owner p.name

/-- Binds the variable lists of the message type at `ci` and checks its count fields. -/
def bindCounts (sc : Scope) (owner : String) (ci : Nat) (attrs : List Attribute) :
    List Attribute × Report :=
  let cleared := attrs.map fun a => { a with countField? := none, countedList? := none }
  let (bound, found) := bindLists sc owner ci (List.range cleared.length) cleared
  (bound, found ++ .join ((bound.filter (·.isCount)).map (checkCount sc owner bound)))

end WireSchema.Resolve
