import WireSchema.Schema.Entry
import WireSchema.Yaml.Decode

/-!
# Loading schemas

A schema file is a document whose records are read key by key; unknown keys are ignored.  The two
kinds of lists can be given in short, as a text, or as a record.
-/

namespace WireSchema.Schema

open Yaml (Document Node Decode)

/-- Why a text is no schema. -/
inductive LoadError where
  /-- The text is no document. -/
  | malformed
  /-- Values of the wrong type. -/
  | mismatched (faults : List String)
  /-- A list that is given neither in short nor as a record. -/
  | refused (reason : String)
  /-- A document that describes no model. -/
  | entry (e : EntryError)
  deriving DecidableEq, Repr

/-- The error in words; a malformed document has none of its own. -/
def LoadError.message : LoadError → String
  | .malformed => "failed to parse schema YAML"
  | .mismatched faults =>
      "failed to parse schema YAML: yaml: unmarshal errors:\n  " ++ Text.joinWith "\n  " faults
  | .refused reason => "failed to parse schema YAML: " ++ reason
  | .entry e => e.message

/-- Reads a fixed list in short, or with `record` as a record. -/
def readFixedListWith (record : Node → Decode (Option FixedListEntry)) (n : Node) :
    Decode (Option FixedListEntry) :=
  let place := "line " ++ toString n.line ++ ": "
  match n with
  | .scalar _ _ _ text =>
      match splitShorthand text with
      | none =>
          throw (.refused (place ++
            "fixed_list shorthand must look like type[length], got " ++ Text.quoted text))
      | some (type, digits) =>
          match shorthandLength digits with
          | .ok length => return some ⟨String.ofList type, length⟩
          | .error f =>
              throw (.refused (place ++ "fixed_list length: " ++
                Number.faultText "Atoi" (String.ofList digits) f))
  | .mapping .. => record n
  | _ => throw (.refused (place ++ "fixed_list must be a string or mapping"))

/-- Reads a fixed list as a record. -/
def readFixedListRecord (doc : Document) (n : Node) : Decode (Option FixedListEntry) :=
  Decode.apart (Decode.enter doc n (Decode.record doc "schema.plain"
    [ ("type", Decode.slot Decode.text fun (e : FixedListEntry) t => { e with type := t }),
      ("length", Decode.slot Decode.int fun e l => { e with length := l }) ] {}))

/-- Reads a fixed list, as a record or in short. -/
def readFixedList (doc : Document) (n : Node) : Decode (Option FixedListEntry) :=
  readFixedListWith (readFixedListRecord doc) n

/-- Reads a variable list, as a record or in short. -/
def readVariableList (doc : Document) (n : Node) : Decode (Option VariableListEntry) :=
  match n with
  | .scalar _ _ _ text => return some ⟨Text.trim text, ""⟩
  | .mapping .. =>
      Decode.apart (Decode.enter doc n (Decode.record doc "schema.plain"
        [ ("type", Decode.slot Decode.text fun (e : VariableListEntry) t => { e with type := t }),
          ("count_field", Decode.slot Decode.text fun e c => { e with countField := c }) ] {}))
  | n =>
      throw (.refused
        ("line " ++ toString n.line ++ ": variable_list must be a string or mapping"))

/-- Reads an attribute. -/
def readAttribute (doc : Document) : Node → Decode (Option AttributeEntry) :=
  let text := Decode.text
  Decode.record doc "schema.attributeYAML"
    [ ("name", Decode.slot text fun (a : AttributeEntry) s => { a with name := s }),
      ("primitive", Decode.slot text fun a s => { a with primitive := s }),
      ("class", Decode.slot text fun a s => { a with class_ := s }),
      ("fixed_list",
        Decode.slot (Decode.optional "schema.fixedListYAML" (readFixedList doc)) fun a f =>
          { a with fixedList := f }),
      ("variable_list",
        Decode.slot (Decode.optional "schema.variableListYAML" (readVariableList doc)) fun a v =>
          { a with variableList := v }),
      ("count_of", Decode.slot text fun a s => { a with countOf := s }),
      ("serialize",
        Decode.slot (Decode.optional "bool" Decode.bool) fun a b => { a with serialize := b }),
      ("default",
        Decode.slot (Decode.optional "string" text) fun a s => { a with default_ := s }),
      ("could_be_string", Decode.slot Decode.bool fun a b => { a with couldBeString := b }),
      ("comment", Decode.slot text fun a s => { a with comment := s }) ] {}

/-- Reads an initial value. -/
def readInitialValue (doc : Document) : Node → Decode (Option InitialValueEntry) :=
  let text := Decode.text
  Decode.record doc "schema.initialValueYAML"
    [ ("setter", Decode.slot text fun (v : InitialValueEntry) s => { v with setter := s }),
      ("value", Decode.slot text fun v s => { v with value := s }) ] {}

/-- Reads a message type. -/
def readClass (doc : Document) : Node → Decode (Option ClassEntry) :=
  let text := Decode.text
  Decode.record doc "schema.classYAML"
    [ ("name", Decode.slot text fun (c : ClassEntry) s => { c with name := s }),
      ("parent", Decode.slot text fun c s => { c with parent := s }),
      ("comment", Decode.slot text fun c s => { c with comment := s }),
      ("attributes",
        Decode.slot (Decode.list doc "[]schema.attributeYAML" (readAttribute doc)) fun c l =>
          { c with attributes := l }),
      ("initial_values",
        Decode.slot (Decode.list doc "[]schema.initialValueYAML" (readInitialValue doc)) fun c l =>
          { c with initialValues := l }) ] {}

/-- Reads a schema file. -/
def readFile (doc : Document) : Node → Decode (Option FileEntry) :=
  Decode.record doc "schema.fileYAML"
    [ ("version", Decode.slot Decode.text fun (f : FileEntry) s => { f with version := s }),
      ("classes",
        Decode.slot (Decode.list doc "[]schema.classYAML" (readClass doc)) fun f l =>
          { f with classes := l }) ] {}

/-- The entries of a schema file. -/
def FileEntry.ofBytes (bytes : List UInt8) : Except LoadError FileEntry :=
  match Document.ofBytes? bytes with
  | .error _ => .error .malformed
  | .ok none => .ok {}
  | .ok (some doc) =>
      match Decode.run doc (readFile doc) with
      | .error .malformed => .error .malformed
      | .error (.refused reason) => .error (.refused reason)
      | .ok (file, []) => .ok (file.getD {})
      | .ok (_, faults) => .error (.mismatched faults)

/-- The unresolved model of a file that is read with `read`. -/
def loadWith (read : σ → Except LoadError FileEntry) (s : σ) : Except LoadError Model := do
  let file ← read s
  match file.toModel with
  | .ok m => return m
  | .error e => throw (.entry e)

/-- The unresolved model of a schema file. -/
def load (bytes : List UInt8) : Except LoadError Model := loadWith FileEntry.ofBytes bytes

end WireSchema.Schema
