import WireSchema.Disk
import WireSchema.Emit

/-!
# Output folders

Generated files are written below an output folder.  Pruning removes from it the generated files
that are no longer emitted; a file counts as generated if its first line says so, so nothing else is
ever removed.  Text that could not be laid out is kept beside the file it was meant for.
-/

namespace WireSchema.Output

/-- Why an output folder is not as asked for. -/
inductive Error where
  | noFolder (cause : Disk.Error)
  | noFolderFor (filename : String) (cause : Disk.Error)
  | notWritten (filename : String) (cause : Disk.Error)
  | notListed (cause : Disk.Error)
  | notOpened (path : String) (cause : Disk.Error)
  | notRemoved (name : String) (cause : Disk.Error)
  deriving DecidableEq, Repr

/-- The error in words. -/
def Error.message : Error → String
  | .noFolder e => "creating output directory: " ++ e.message
  | .noFolderFor f e => "creating directory for " ++ f ++ ": " ++ e.message
  | .notWritten f e => "writing file " ++ f ++ ": " ++ e.message
  | .notListed e => "reading output directory: " ++ e.message
  | .notOpened p e => "opening " ++ p ++ ": " ++ e.message
  | .notRemoved n e => "removing stale file " ++ n ++ ": " ++ e.message

/-- An operation on an output folder. -/
abbrev Action (α : Type) : Type := Disk.Action Error α

/-- An operation of the disk with its error in place. -/
def placed (wrap : Disk.Error → Error) (a : Disk.Action Disk.Error α) : Action α :=
  fun d =>
    let (r, d') := a.run d
    (r.mapError wrap, d')

/-- Writes one file below `dir`. -/
def writeFile (dir : String) (f : GeneratedFile) : Action Unit := do
  let path := Path.join dir f.filename
  placed (.noFolderFor f.filename) (Disk.makeFolders (Path.parent path))
  placed (.notWritten f.filename) (Disk.change (·.write path f.bytes))

/-- Writes all files below `dir`, in order. -/
def write (dir : String) (files : List GeneratedFile) : Action Unit := do
  placed .noFolder (Disk.makeFolders dir)
  files.forM (writeFile dir)

/-- The bytes of the first line. -/
def firstLine (content : List UInt8) : List UInt8 := content.takeWhile (· != 0x0a)

/-- The content of a file says on its first line that it is generated. -/
def isGenerated (content : List UInt8) : Bool :=
  (Text.ofBytes? (firstLine content)).any (Text.trim · == Emit.header)

/-- The name of a source file. -/
def isSourceName (name : String) : Bool := name.endsWith ".go"

/-- An entry of the output folder is a generated file that is not among those to keep. -/
def isStale (keep : List String) (name : String) : Disk.Node → Bool
  | .folder => false
  | .file content => isSourceName name && !keep.contains name && isGenerated content

/-- The names to keep: those of the emitted files. -/
def keptNames (files : List GeneratedFile) : List String :=
  files.map fun f => Path.clean f.filename

/-- Removes the stale files among the entries and lists their names. -/
def pruneEntries (dir : String) (keep : List String) :
    List (String × Disk.Node) → Action (List String)
  | [] => return []
  | (name, n) :: rest => do
      if isStale keep name n then
        placed (.notRemoved name) (Disk.change (·.remove (Path.join dir name)))
        return name :: (← pruneEntries dir keep rest)
      else pruneEntries dir keep rest

/-- Removes the generated files in `dir` that are not emitted and lists their names.  A folder that
is not there has nothing to remove. -/
def prune (dir : String) (files : List GeneratedFile) : Action (List String) := do
  let entries ← Disk.look fun d =>
    match d.list dir with
    | .ok entries => .ok entries
    | .error e => if e.fault = .missing then .ok [] else .error (.notListed e)
  pruneEntries dir (keptNames files) entries

/-- The name a text is kept under when it could not be laid out. -/
def draftName (filename : String) : String :=
  let cs := filename.toList
  let stem := if isSourceName filename then cs.take (cs.length - 3) else cs
  String.ofList stem ++ ".go.unformatted"

/-- Keeps the text of a file that could not be laid out, if there is an output folder; that this
may fail is no concern. -/
def keepDraft (dir filename text : String) (d : Disk) : Disk :=
  if dir.isEmpty || filename.isEmpty then d
  else
    let keep : Disk.Action Disk.Error Unit := do
      Disk.makeFolders dir
      Disk.change (·.write (Path.join dir (draftName filename)) (Text.bytesOf text))
    (keep.run d).2

end WireSchema.Output
