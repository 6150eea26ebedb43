import WireSchema.CommandLine.Flag
import WireSchema.Compile
import WireSchema.Plan.Layout
import WireSchema.Surface

/-!
# The command line

A command line lays flags over a settings file over the defaults.  A run then compiles the schema,
reports every finding, writes the plans where it was asked to, and checks the generated package if
that is wanted.
-/

namespace WireSchema.CommandLine

/-- Why a command line is not followed. -/
inductive ArgumentError where
  | flag (e : FlagError)
  | unexpected (arguments : List String)
  | settings (e : Settings.LoadError)
  /-- A check was asked for on a run that writes nothing. -/
  | checkWithoutOutput
  | problems (text : String)
  deriving DecidableEq, Repr

/-- The error in words. -/
def ArgumentError.message : ArgumentError → String
  | .flag e => e.message
  | .unexpected arguments => "unexpected arguments: [" ++ Text.joinWith " " arguments ++ "]"
  | .settings e => e.message
  | .checkWithoutOutput => "-check needs written output; drop -dry-run"
  | .problems text => text

/-- What a command line asks for. -/
structure Request where
  /-- Blank if they could not be put together. -/
  settings : Settings
  options : Options
  error? : Option ArgumentError
  /-- What was written while the flags were read. -/
  notice : String := ""

/-- Reads a command line. -/
def parse (args : List String) (d : Disk) : Request :=
  let r := readFlags args
  let options := r.changes.foldl Change.onOptions {}
  let refuse (e : ArgumentError) : Request := ⟨.blank, options, some e, ""⟩
  match r.error?, r.rest with
  | some e, _ => { refuse (.flag e) with notice := e.notice }
  | none, arg :: more => refuse (.unexpected (arg :: more))
  | none, [] =>
      let base :=
        if options.configPath.isEmpty then .ok Settings.standard
        else Settings.load d options.configPath
      match base with
      | .error e => refuse (.settings e)
      | .ok base =>
          let settings := r.changes.foldl Change.onSettings base
          if options.check && settings.dryRun then refuse .checkWithoutOutput
          else ⟨settings, options, settings.problemText?.map .problems, ""⟩

/-- How a command ended. -/
structure Exit where
  code : Nat
  stdout : String := ""
  stderr : String := ""
  log : List Log.Entry := []
  disk : Disk

/-- The command did what it was asked for. -/
def success : Nat := 0

/-- The command failed. -/
def failure : Nat := 1

/-- The command was not understood. -/
def misuse : Nat := 2

/-- A line of the program about an error. -/
def complaint (message : String) : String := programName ++ ": " ++ message ++ "\n"

/-- The findings of a run, one a line. -/
def findings (r : Report) : String :=
  String.join ((r.errors ++ r.warnings ++ r.infos).map fun d =>
    d.severity.name ++ ": " ++ d.text ++ "\n")

/-- Writes the plans where they were asked for; `x` is how the command stands. -/
def dumpPlans (path : String) (set : PlanSet) (x : Exit) : Except Disk.Error Exit :=
  let text := (LayoutReport.ofSet set).render
  if path.isEmpty then .ok x
  else if path = "-" then .ok { x with stdout := x.stdout ++ text }
  else do return { x with disk := ← x.disk.write path (Text.bytesOf text) }

/-- Checks the generated package; `inspect` says what a folder declares. -/
def checkOutput (inspect : String → Except String Surface) (s : Settings) (r : Compile.Result)
    (x : Exit) : Exit :=
  let names := (r.plans?.map (·.plans.map (·.name))).getD []
  let fail (text : String) : Exit :=
    { x with code := failure, stderr := x.stderr ++ complaint ("check: " ++ text) }
  match inspect s.outputDir with
  | .error e => fail e
  | .ok surface =>
      match surface.gapText? names s.sizeMethods with
      | some t => fail t
      | none =>
          { x with log := x.log ++ [⟨.info, "generated package checks out",
              [("package", .text surface.path), ("types", .number names.length)]⟩] }

/-- Carries out what a command line asks for. -/
def carryOut (cancelled : Bool) (inspect : String → Except String Surface) (q : Request)
    (d : Disk) : Exit :=
  match compileFile cancelled q.settings d with
  | .error e => { code := failure, stderr := complaint e.message, disk := d }
  | .ok o =>
      let x : Exit :=
        { code := success, stderr := findings o.result.report, log := o.log, disk := o.disk }
      let fail (x : Exit) (text : String) : Exit :=
        { x with code := failure, stderr := x.stderr ++ complaint text }
      let dumped :=
        match o.result.plans? with
        | some set => dumpPlans q.options.dumpPlan set x
        | none => .ok x
      match dumped, o.error? with
      | .error e, _ => fail x e.message
      | .ok x, some e => fail x e.message
      | .ok x, none =>
          if q.options.check && o.result.written then checkOutput inspect q.settings o.result x
          else x

/-- Runs a command line on a disk. -/
def run (cancelled : Bool) (inspect : String → Except String Surface) (args : List String)
    (d : Disk) : Exit :=
  let q := parse args d
  match q.error? with
  | some (.flag .help) => { code := success, stderr := q.notice, disk := d }
  | some e => { code := misuse, stderr := q.notice ++ complaint e.message, disk := d }
  | none => carryOut cancelled inspect q d

end WireSchema.CommandLine
