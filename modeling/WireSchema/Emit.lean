import WireSchema.Emit.File

/-!
# Emitters

An emitter turns plans into files.  All files of a run have different names.  Emitters are found by
the name of their backend in a registry; the standard one knows the `go` backend.
-/

namespace WireSchema

/-- A generated file. -/
structure GeneratedFile where
  /-- The path below the output directory. -/
  filename : String
  content : String
  /-- The message type it implements; empty if it serves all. -/
  type : String
  backend : String
  deriving DecidableEq, Repr

/-- The bytes a generated file is written as. -/
def GeneratedFile.bytes (f : GeneratedFile) : List UInt8 := Text.bytesOf f.content

/-- What an emitter is asked for. -/
structure EmitConfig where
  package : String
  /-- Comments of the schema are copied. -/
  comments : Bool := true

/-- Turns plans into files. -/
structure Emitter where
  name : String
  /-- The file of a plan of the set. -/
  emit : PlanSet → Plan → Except Emit.Error GeneratedFile
  /-- The files that serve all plans. -/
  support : List Plan → Except Emit.Error (List GeneratedFile) := fun _ => .ok []

namespace Emitter

/-- The first file whose name an earlier one has. -/
def sharedFile? : (seen : List (String × String)) → List GeneratedFile → Option Emit.Error
  | _, [] => none
  | seen, f :: rest =>
      match seen.lookup f.filename with
      | some other => some (.sharedFile other f.type f.filename)
      | none => sharedFile? ((f.filename, f.type) :: seen) rest

/-- The files of all accepted plans, parents first, and then the ones that serve them all. -/
def emitAll (e : Emitter) (set : PlanSet) : Except Emit.Error (List GeneratedFile) := do
  let files ← set.plans.mapM fun p => (e.emit set p).mapError (.whileEmitting p.name e.name)
  let support ← (e.support set.plans).mapError (.whileSupporting e.name)
  let all := files ++ support
  match sharedFile? [] all with
  | some err => throw err
  | none => return all

end Emitter

namespace Emit

/-- The backend that emits Go source. -/
def goBackend : String := "go"

/-- Where generated code finds its readers and writers unless told otherwise. -/
def defaultWireImport : String := "pdu-generator/wire"

/-- The name of the file that serves all types. -/
def supportFilename : String := "messages.go"

/-- The lines of a file, with what else decides whether they are source text. -/
structure Source where
  target : Target
  /-- What the lines mention can stand where it does. -/
  fits : Bool
  lines : List Line

/-- Lays out the lines of a file, unless they are no source text. -/
abbrev Formatter : Type := Source → Option String

/-- The standard layout. -/
def layOut : Formatter := fun s =>
  if isImportText s.target.wireImport && s.fits && commentsFit s.lines then some (format s.lines)
  else none

/-- A file in the layout of `formatter`. -/
def finish (formatter : Formatter) (t : Target) (filename type : String) (fits : Bool)
    (lines : List Line) : Except Error GeneratedFile :=
  match formatter ⟨t, fits, lines⟩ with
  | some content => .ok ⟨filename, content, type, goBackend⟩
  | none => .error (.malformed filename (draft lines))

/-- The emitter of Go source for a package, with its files in the layout of `formatter`. -/
def goEmitterWith (formatter : Formatter) (config : EmitConfig) (wireImport : String) :
    Except Error Emitter :=
  if !isIdent config.package then .error (.badPackage config.package)
  else
    let target : Target := ⟨config.package, wireImport, config.comments⟩
    .ok {
      name := goBackend
      emit := fun set p => do
        checkPlan p
        let lines ← typeLines target set p
        finish formatter target (Text.lowerCase p.name ++ ".go") p.name (mentionsFit p) lines
      support := fun plans => do
        checkPackage plans
        return [← finish formatter target supportFilename "" true (supportLines target plans)] }

/-- The emitter of Go source for a package. -/
def goEmitter (config : EmitConfig) (wireImport : String) : Except Error Emitter :=
  goEmitterWith layOut config wireImport

end Emit

/-- Backends by name. -/
structure Registry where
  factories : List (String × (EmitConfig → Except Emit.Error Emitter))

namespace Registry

/-- No backends. -/
def empty : Registry := ⟨[]⟩

/-- Adds a backend under a new name. -/
def register (r : Registry) (name : String) (f : EmitConfig → Except Emit.Error Emitter) :
    Except Emit.Error Registry :=
  if (r.factories.lookup name).isSome then .error (.knownBackend name)
  else .ok ⟨(name, f) :: r.factories⟩

/-- The names in order. -/
def names (r : Registry) : List String := (r.factories.map (·.1)).mergeSort

/-- The emitter of a backend. -/
def new (r : Registry) (name : String) (config : EmitConfig) : Except Emit.Error Emitter :=
  match r.factories.lookup name with
  | some f => f config
  | none => .error (.unknownBackend name r.names)

/-- The registry of the built-in backends, with their files in the layout of `formatter`. -/
def standardWith (formatter : Emit.Formatter) : Registry :=
  ⟨[(Emit.goBackend, fun c => Emit.goEmitterWith formatter c Emit.defaultWireImport)]⟩

/-- The registry of the built-in backends. -/
def standard : Registry := standardWith Emit.layOut

end Registry

end WireSchema
