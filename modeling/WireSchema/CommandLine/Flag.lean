import WireSchema.Number.IntegerLiteral
import WireSchema.Settings

/-!
# Flags

A flag starts with one or two dashes and sets something, with a value behind an equals sign or in
the next argument; a switch needs no value.  The flags end at the first argument that is none, or
after two dashes alone.
-/

namespace WireSchema.CommandLine

/-- What a command line says beside settings. -/
structure Options where
  /-- The settings file; empty for none. -/
  configPath : String := ""
  /-- The generated package is checked. -/
  check : Bool := false
  /-- Where the plans are written; a dash for standard output, empty for nowhere. -/
  dumpPlan : String := ""
  deriving DecidableEq, Repr

/-- What a flag sets. -/
inductive Change where
  | configPath (path : String)
  | check (b : Bool)
  | dumpPlan (path : String)
  | schema (path : String)
  | outputDir (path : String)
  | package (name : String)
  | backend (name : String)
  | workers (n : Int)
  | noSize (b : Bool)
  | noComments (b : Bool)
  | dryRun (b : Bool)
  | prune (b : Bool)
  | logLevel (name : String)
  deriving DecidableEq, Repr

/-- Options after a change. -/
def Change.onOptions (o : Options) : Change → Options
  | .configPath p => { o with configPath := p }
  | .check b => { o with check := b }
  | .dumpPlan p => { o with dumpPlan := p }
  | _ => o

/-- Settings after a change. -/
def Change.onSettings (s : Settings) : Change → Settings
  | .schema p => { s with schema := p }
  | .outputDir p => { s with outputDir := p }
  | .package n => { s with package := n }
  | .backend n => { s with backend := n }
  | .workers n => { s with workers := n }
  | .noSize b => { s with sizeMethods := !b }
  | .noComments b => { s with comments := !b }
  | .dryRun b => { s with dryRun := b }
  | .prune b => { s with prune := b }
  | .logLevel n => { s with logLevel := n }
  | _ => s

/-- What kind of value a flag takes. -/
inductive Flag.Kind where
  | text (change : String → Change)
  | number (change : Int → Change)
  | switch (change : Bool → Change)

/-- A flag. -/
structure Flag where
  name : String
  kind : Flag.Kind
  usage : String
  /-- The default as it is shown; empty if it is not. -/
  default : String := ""

/-- The flags in the order of their names. -/
def flags : List Flag :=
  let d := Settings.standard
  [ ⟨"backend", .text .backend, "code generation backend", Text.quoted d.backend⟩,
    ⟨"check", .switch .check, "type-check the generated package after writing it", ""⟩,
    ⟨"config", .text .configPath, "TOML config file", ""⟩,
    ⟨"dry-run", .switch .dryRun, "derive and render without writing files", ""⟩,
    ⟨"dump-plan", .text .dumpPlan,
      "write the derived plans as YAML to this path (- for stdout)", ""⟩,
    ⟨"log-level", .text .logLevel, "trace|debug|info|warn|error|off", Text.quoted d.logLevel⟩,
    ⟨"no-comments", .switch .noComments, "do not copy schema comments", ""⟩,
    ⟨"no-size", .switch .noSize, "omit size expressions and MarshalledSize", ""⟩,
    ⟨"out", .text .outputDir, "output directory", Text.quoted d.outputDir⟩,
    ⟨"package", .text .package, "generated package name", Text.quoted d.package⟩,
    ⟨"prune", .switch .prune, "remove stale generated files from the output directory", ""⟩,
    ⟨"schema", .text .schema, "YAML schema path", Text.quoted d.schema⟩,
    ⟨"workers", .number .workers, "concurrent plan derivations (0 = unbounded)",
      toString d.workers⟩ ]

/-- The lines that explain a flag. -/
def Flag.help (f : Flag) : String :=
  let value :=
    match f.kind with
    | .text _ => " string"
    | .number _ => " int"
    | .switch _ => ""
  let default := if f.default.isEmpty then "" else " (default " ++ f.default ++ ")"
  "  -" ++ f.name ++ value ++ "\n    \t" ++ f.usage ++ default ++ "\n"

/-- The name of the program. -/
def programName : String := "pdu-generator"

/-- The explanation of all flags. -/
def usage : String :=
  "Usage of " ++ programName ++ ":\n" ++ String.join (flags.map Flag.help)

/-- Why arguments are not understood. -/
inductive FlagError where
  /-- Help was asked for. -/
  | help
  | badSyntax (argument : String)
  | undefined (name : String)
  | noValue (name : String)
  | badSwitch (value name : String)
  | badNumber (value name : String) (fault : Number.Fault)
  deriving DecidableEq, Repr

/-- The error in words. -/
def FlagError.message : FlagError → String
  | .help => "flag: help requested"
  | .badSyntax a => "bad flag syntax: " ++ a
  | .undefined n => "flag provided but not defined: -" ++ n
  | .noValue n => "flag needs an argument: -" ++ n
  | .badSwitch v n => "invalid boolean value " ++ Text.quoted v ++ " for -" ++ n ++ ": parse error"
  | .badNumber v n f =>
      let reason :=
        match f with
        | .syntaxError => "parse error"
        | .outOfRange => "value out of range"
      "invalid value " ++ Text.quoted v ++ " for flag -" ++ n ++ ": " ++ reason

/-- What is written about the error while arguments are read. -/
def FlagError.notice : FlagError → String
  | .help => usage
  | e => e.message ++ "\n" ++ usage

/-- A truth value as a switch takes it. -/
def switchValue? (s : String) : Option Bool :=
  if ["1", "t", "T", "true", "TRUE", "True"].contains s then some true
  else if ["0", "f", "F", "false", "FALSE", "False"].contains s then some false
  else none

/-- An argument as a flag: its name and the value behind an equals sign. -/
structure Written where
  name : String
  value? : Option String

/-- What an argument is. -/
inductive Argument where
  /-- Not a flag. -/
  | plain
  /-- The flags end here. -/
  | stop
  | bad
  | flag (w : Written)

/-- Reads an argument. -/
def Argument.read (s : String) : Argument :=
  let named (body : List Char) : Argument :=
    match body with
    | [] => .bad
    | '-' :: _ => .bad
    | '=' :: _ => .bad
    | body =>
        let name := String.ofList (body.takeWhile (· ≠ '='))
        match body.dropWhile (· ≠ '=') with
        | [] => .flag ⟨name, none⟩
        | _ :: value => .flag ⟨name, some (String.ofList value)⟩
  match s.toList with
  | ['-', '-'] => .stop
  | '-' :: '-' :: body => named body
  | '-' :: c :: body => named (c :: body)
  | _ => .plain

/-- What was read of some arguments: changes in order, the arguments behind the flags, and what
went wrong. -/
structure Reading where
  changes : List Change := []
  rest : List String := []
  error? : Option FlagError := none

/-- A reading with one more change at its front. -/
def Reading.after (c : Change) (r : Reading) : Reading := { r with changes := c :: r.changes }

/-- Reads flags up to the first argument that is none. -/
def readFlags : List String → Reading
  | [] => {}
  | arg :: rest =>
      match Argument.read arg with
      | .plain => { rest := arg :: rest }
      | .stop => { rest := rest }
      | .bad => { error? := some (.badSyntax arg) }
      | .flag w =>
          match flags.find? (·.name == w.name) with
          | none =>
              let isHelp := decide (w.name = "help" ∨ w.name = "h")
              { error? := some (if isHelp then .help else .undefined w.name) }
          | some f =>
              match f.kind, w.value?, rest with
              | .switch change, none, rest => (readFlags rest).after (change true)
              | .switch change, some v, rest =>
                  match switchValue? v with
                  | some b => (readFlags rest).after (change b)
                  | none => { changes := [change false], error? := some (.badSwitch v w.name) }
              | .text change, some v, rest => (readFlags rest).after (change v)
              | .text change, none, v :: rest => (readFlags rest).after (change v)
              | .number change, some v, rest =>
                  match Number.parseSigned 64 v.toList with
                  | .ok n => (readFlags rest).after (change n)
                  | .error e => { error? := some (.badNumber v w.name e) }
              | .number change, none, v :: rest =>
                  match Number.parseSigned 64 v.toList with
                  | .ok n => (readFlags rest).after (change n)
                  | .error e => { error? := some (.badNumber v w.name e) }
              | _, none, [] => { error? := some (.noValue w.name) }
termination_by args => args.length

end WireSchema.CommandLine
