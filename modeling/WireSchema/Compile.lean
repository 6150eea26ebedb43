import WireSchema.Log
import WireSchema.Output
import WireSchema.Resolve
import WireSchema.Schema.Load
import WireSchema.Settings

/-!
# Compiling a schema

A run resolves a schema, plans its message types, emits their files, and writes them unless asked
not to.  Types that cannot be planned are rejected; the others are written all the same, and then
the run fails.  A run that stops early still says what it found.
-/

namespace WireSchema

namespace Compile

/-- Why a run failed. -/
inductive Error where
  | badSettings (problems : String)
  | unreadable (path : String) (cause : Disk.Error)
  | badSchema (cause : Schema.LoadError)
  /-- Names of the schema do not bind. -/
  | unresolved (findings : String)
  /-- The run was called off. -/
  | cancelled
  | notPlanned (cause : PlanSet.Failure)
  | notEmitted (cause : Emit.Error)
  | notOutput (cause : Output.Error)
  /-- Types were rejected. -/
  | rejected (names : List String)
  deriving DecidableEq, Repr

/-- The error in words. -/
def Error.message : Error → String
  | .badSettings ps => "invalid config: " ++ ps
  | .unreadable path e => "failed to read schema file " ++ path ++ ": " ++ e.message
  | .badSchema e => e.message
  | .unresolved t => "schema resolution failed: " ++ t
  | .cancelled => "deriving plans: context canceled"
  | .notPlanned e => "deriving plans: " ++ e.message
  | .notEmitted e => e.message
  | .notOutput e => e.message
  | .rejected names => "message types rejected: [" ++ Text.joinWith " " names ++ "]"

/-- What a run produced. -/
structure Result where
  /-- The plans, if the run came so far. -/
  plans? : Option PlanSet := none
  files : List GeneratedFile := []
  report : Report := .empty
  rejected : List String := []
  /-- The files are on the disk. -/
  written : Bool := false
  /-- The names of the stale files that were removed. -/
  pruned : List String := []

/-- How a run ended. -/
structure Outcome where
  result : Result
  error? : Option Error
  log : List Log.Entry
  disk : Disk

/-! ## What a run says -/

/-- The entry after resolution. -/
def resolvedEntry (r : Resolution) : Log.Entry :=
  ⟨.debug, "schema resolved",
    [("classes", .number r.model.classes.length), ("errors", .number r.report.errors.length),
      ("warnings", .number r.report.warnings.length)]⟩

/-- The entry after a failed resolution. -/
def unresolvedEntry (r : Resolution) : Log.Entry :=
  ⟨.error, "schema does not resolve", [("errors", .number r.report.errors.length)]⟩

/-- The entries after planning. -/
def plannedEntries (m : Model) (set : PlanSet) : List Log.Entry :=
  ⟨.info, "plans derived",
    [("types", .number m.classes.length), ("accepted", .number set.plans.length),
      ("rejected", .number set.rejected.length)]⟩ ::
    set.rejected.map fun name => ⟨.debug, "type rejected", [("type", .text name)]⟩

/-- The entry after emission. -/
def emittedEntry (backend : String) (files : List GeneratedFile) : Log.Entry :=
  ⟨.info, "code emitted", [("backend", .text backend), ("files", .number files.length)]⟩

/-- The entry for a stale file. -/
def prunedEntry (name : String) : Log.Entry :=
  ⟨.info, "removed stale file", [("file", .text name)]⟩

/-- The entry after writing. -/
def writtenEntry (dir : String) (files : List GeneratedFile) : Log.Entry :=
  ⟨.info, "files written", [("dir", .text dir), ("files", .number files.length)]⟩

/-- The entry after loading. -/
def loadedEntry (path : String) (m : Model) : Log.Entry :=
  ⟨.info, "schema loaded", [("schema", .text path), ("types", .number m.classes.length)]⟩

/-! ## Stages -/

/-- The plans of a resolved model, unless the run was called off before the first. -/
def plan (cancelled : Bool) (sized : Bool) (m : Model) : Except Error PlanSet :=
  if cancelled && !m.classes.isEmpty then .error .cancelled
  else (PlanSet.derive sized m).mapError .notPlanned

/-- The emitter that settings ask for. -/
def emitterOf (formatter : Emit.Formatter) (s : Settings) : Except Emit.Error Emitter :=
  let config : EmitConfig := ⟨s.package, s.comments⟩
  if s.backend = Emit.goBackend ∧ s.wireImport ≠ "" then
    Emit.goEmitterWith formatter config s.wireImport
  else (Registry.standardWith formatter).new s.backend config

/-- The name of the backend and the files of all accepted plans. -/
def emit (formatter : Emit.Formatter) (s : Settings) (set : PlanSet) :
    Except Emit.Error (String × List GeneratedFile) := do
  let e ← emitterOf formatter s
  return (e.name, ← e.emitAll set)

/-- The disk after a failed emission: a text that could not be laid out is kept. -/
def keepDraft (s : Settings) (e : Emit.Error) (d : Disk) : Disk :=
  match e.malformed? with
  | some (filename, text) => Output.keepDraft s.outputDir filename text d
  | none => d

/-- Prunes and writes the output folder. -/
def writeOut (s : Settings) (o : Outcome) : Outcome :=
  let files := o.result.files
  let (pruned, d) :=
    if s.prune then (Output.prune s.outputDir files).run o.disk else (.ok [], o.disk)
  match pruned with
  | .error e => { o with error? := some (.notOutput e), disk := d }
  | .ok names =>
      let o := { o with
        result := { o.result with pruned := names }
        log := o.log ++ names.map prunedEntry }
      let (written, d) := (Output.write s.outputDir files).run d
      match written with
      | .error e => { o with error? := some (.notOutput e), disk := d }
      | .ok () =>
          { o with
            result := { o.result with written := true }
            log := o.log ++ [writtenEntry s.outputDir files]
            disk := d }

/-- A run fails at its end if types were rejected. -/
def checkRejected (o : Outcome) : Outcome :=
  match o.error?, o.result.rejected with
  | none, name :: more => { o with error? := some (.rejected (name :: more)) }
  | _, _ => o

/-- Emits the plans of a set, and writes them unless settings say otherwise. -/
def finish (formatter : Emit.Formatter) (s : Settings) (set : PlanSet) (o : Outcome) : Outcome :=
  match emit formatter s set with
  | .error e => { o with error? := some (.notEmitted e), disk := keepDraft s e o.disk }
  | .ok (backend, files) =>
      let o := { o with
        result := { o.result with files }
        log := o.log ++ [emittedEntry backend files] }
      checkRejected (if s.dryRun then o else writeOut s o)

end Compile

open Compile in
/-- Compiles a model to files in the layout of `formatter`. -/
def compileWith (formatter : Emit.Formatter) (cancelled : Bool) (s : Settings) (m : Model)
    (d : Disk) : Compile.Outcome :=
  let r := Resolve.run .standard Resolve.defaultSuggestions m
  let o : Outcome := ⟨{ report := r.report }, none, [resolvedEntry r], d⟩
  match r.errorText? with
  | some t => { o with error? := some (.unresolved t), log := o.log ++ [unresolvedEntry r] }
  | none =>
      match plan cancelled s.sizeMethods r.model with
      | .error e => { o with error? := some e }
      | .ok set =>
          finish formatter s set { o with
            result := { o.result with
              plans? := some set
              rejected := set.rejected
              report := (r.report ++ set.report).sort }
            log := o.log ++ plannedEntries r.model set }

/-- Compiles a model. -/
def compile (cancelled : Bool) (s : Settings) (m : Model) (d : Disk) : Compile.Outcome :=
  compileWith Emit.layOut cancelled s m d

open Compile in
/-- Loads the schema that settings name and compiles it.  Without a schema there is no outcome, only
an error. -/
def compileFile (cancelled : Bool) (s : Settings) (d : Disk) :
    Except Compile.Error Compile.Outcome := do
  if let some problems := s.problemText? then throw (.badSettings problems)
  let bytes ← (d.read s.schema).mapError (.unreadable s.schema)
  let m ← (Schema.load bytes).mapError .badSchema
  let o := compile cancelled s m d
  return { o with log := loadedEntry s.schema m :: o.log }

end WireSchema
