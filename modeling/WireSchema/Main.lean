import WireSchema.CommandLine

/-!
# The program

Runs a command line on the files around it: copies what the run can look at onto a disk, runs the
command there, and carries the changes back.
-/

namespace WireSchema.Main

open CommandLine (Exit)

/-- Copies a path and the folders on its way onto a disk, as far as they exist. -/
def bring (d : Disk) (path : String) : IO Disk := do
  let here ← IO.currentDir
  (Path.ancestry path).foldlM (fun d (p : String) => do
    let place := here / p
    if ← place.isDir then return (d.ensureFolder p).toOption.getD d
    else if ← place.pathExists then 
      return (d.write p (← IO.FS.readBinFile place).toList).toOption.getD d
    else return d) d

/-- Copies a folder and the source files in it onto a disk. -/
def bringSources (d : Disk) (dir : String) : IO Disk := do
  let d ← bring d dir
  let place := (← IO.currentDir) / dir
  if dir.isEmpty || !(← place.isDir) then return d
  let entries ← place.readDir
  entries.foldlM (fun d e =>
    if Output.isSourceName e.fileName then bring d (Path.join dir e.fileName) else return d) d

/-- The path of a location. -/
def pathOf (l : Location) : String :=
  (if l.absolute then "/" else "") ++ Text.joinWith "/" l.names

/-- Carries the changes from one disk to another back to the files. -/
def carryBack (before after : Disk) : IO Unit := do
  for (l, n) in after.nodes.reverse do
    if before.node? l ≠ some n then
      match n with
      | .folder => IO.FS.createDirAll (pathOf l)
      | .file content => IO.FS.writeBinFile (pathOf l) ⟨content.toArray⟩
  for (l, n) in before.nodes do
    if n ≠ .folder ∧ after.node? l = none then IO.FS.removeFile (pathOf l)

/-- What a command line can look at. -/
def worldOf (args : List String) : IO Disk := do
  let options := (CommandLine.readFlags args).changes.foldl CommandLine.Change.onOptions {}
  let d ← if options.configPath.isEmpty then pure .empty else bring .empty options.configPath
  let q := CommandLine.parse args d
  let d ← bring d q.settings.schema
  let d ← if options.dumpPlan.isEmpty || options.dumpPlan = "-" then pure d
    else bring d options.dumpPlan
  bringSources d q.settings.outputDir

/-- The values of the variables that a console looks at. -/
def environment : IO (String → String) := do
  let names := [Log.levelVariable, Log.timestampVariable, Log.noColorVariable]
  let values ← names.mapM fun n => do return (n, (← IO.getEnv n).getD "")
  return fun n => (values.lookup n).getD ""

/-- Generated packages cannot be loaded from here. -/
def inspect (dir : String) : Except String Surface :=
  .error ("failed to load package in " ++ dir)

end WireSchema.Main

open WireSchema in
/-- Runs the program. -/
def main (args : List String) : IO UInt32 := do
  let before ← Main.worldOf args
  let x := CommandLine.run false Main.inspect args before
  Main.carryBack before x.disk
  let settings := (CommandLine.parse args before).settings
  let console := Log.Profile.runtime.configured settings.logLevel (← Main.environment)
  IO.eprint (Log.render console.level x.log)
  IO.print x.stdout
  IO.eprint x.stderr
  return UInt32.ofNat x.code
