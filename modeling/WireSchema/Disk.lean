import WireSchema.Disk.Path

/-!
# A disk

A disk holds folders and files by location.  Paths are followed part by part and every part but the
last has to be a folder.  Operations run on a disk: one that fails keeps what was done before it
failed, and reports what it tried, on which path, and why that was not possible.
-/

namespace WireSchema

/-- A place on a disk, as seen from the root or from the working folder. -/
structure Location where
  absolute : Bool
  names : List String
  deriving DecidableEq, Repr

namespace Location

/-- The working folder. -/
def here : Location := ⟨false, []⟩

/-- The place one part further. -/
def step (l : Location) (part : String) : Location :=
  { l with names := (Path.step l.absolute l.names.reverse part).reverse }

/-- The root, the working folder, and the folders around it: they are always there. -/
def isOuter (l : Location) : Bool := l.names.all (· == "..")

end Location

namespace Disk

/-- What is at a location. -/
inductive Node where
  | folder
  | file (content : List UInt8)
  deriving DecidableEq, Repr

/-- Why an operation is not possible. -/
inductive Fault where
  | missing
  | notFolder
  | isFolder
  | taken
  | longName
  | badName
  deriving DecidableEq, Repr

/-- The fault in words. -/
def Fault.message : Fault → String
  | .missing => "no such file or directory"
  | .notFolder => "not a directory"
  | .isFolder => "is a directory"
  | .taken => "file exists"
  | .longName => "file name too long"
  | .badName => "invalid argument"

/-- What was tried, on which path, and why it failed. -/
structure Error where
  operation : String
  path : String
  fault : Fault
  deriving DecidableEq, Repr

/-- The error in words. -/
def Error.message (e : Error) : String :=
  e.operation ++ " " ++ e.path ++ ": " ++ e.fault.message

end Disk

/-- Folders and files by location, each location at most once. -/
structure Disk where
  nodes : List (Location × Disk.Node)
  deriving Repr

namespace Disk

/-- A disk with nothing on it. -/
def empty : Disk := ⟨[]⟩

/-- What is at a location. -/
def node? (d : Disk) (l : Location) : Option Node :=
  if l.isOuter then some .folder else d.nodes.lookup l

/-- The disk without a location. -/
def erase (d : Disk) (l : Location) : Disk := ⟨d.nodes.filter fun e => e.1 != l⟩

/-- The disk with a location filled anew. -/
def put (d : Disk) (l : Location) (n : Node) : Disk := ⟨(l, n) :: (d.erase l).nodes⟩

/-- The names can be no longer than this many bytes. -/
def longestName : Nat := 255

/-- Follows the parts of a path; all but the last lead to folders. -/
def walk (d : Disk) (l : Location) : List String → Except Fault Location
  | [] => .ok l
  | part :: rest =>
      match d.node? l with
      | none => .error .missing
      | some (.file _) => .error .notFolder
      | some .folder =>
          if longestName < part.utf8ByteSize then .error .longName else d.walk (l.step part) rest

/-- The location a path leads to, whether something is there or not. -/
def locate (d : Disk) (path : String) : Except Fault Location :=
  if path.isEmpty then .error .missing
  else if path.toList.contains '\x00' then .error .badName
  else d.walk ⟨Path.isAbsolute path, []⟩ (Path.parts path)

/-- What a path leads to. -/
def find (d : Disk) (path : String) : Except Fault Node := do
  match d.node? (← d.locate path) with
  | some n => return n
  | none => throw .missing

/-- The content of a file. -/
def read (d : Disk) (path : String) : Except Error (List UInt8) :=
  match d.find path with
  | .ok (.file content) => .ok content
  | .ok .folder => .error ⟨"read", path, .isFolder⟩
  | .error f => .error ⟨"open", path, f⟩

/-- The names in the folder at a location, in order, with what they name. -/
def entries (d : Disk) (l : Location) : List (String × Node) :=
  let inside := d.nodes.filterMap fun (m, n) =>
    match m.names.reverse with
    | name :: above =>
        if m.absolute = l.absolute ∧ above.reverse = l.names then some (name, n) else none
    | [] => none
  inside.mergeSort fun a b => a.1 ≤ b.1

/-- The names in a folder, in order, with what they name. -/
def list (d : Disk) (path : String) : Except Error (List (String × Node)) :=
  match d.find path, d.locate path with
  | .ok .folder, .ok l => .ok (d.entries l)
  | .ok (.file _), _ => .error ⟨"open", path, .notFolder⟩
  | .error f, _ => .error ⟨"open", path, f⟩
  | _, .error f => .error ⟨"open", path, f⟩

/-- An operation on a disk that can fail. -/
abbrev Action (ε α : Type) : Type := ExceptT ε (StateM Disk) α

/-- Looks at the disk. -/
def look (f : Disk → Except ε α) : Action ε α := fun d => (f d, d)

/-- Changes the disk unless that is not possible. -/
def change (f : Disk → Except ε Disk) : Action ε Unit := fun d =>
  match f d with
  | .ok d' => (.ok (), d')
  | .error e => (.error e, d)

/-- The disk after a file was written.  A path that ends in a slash names a folder. -/
def write (d : Disk) (path : String) (content : List UInt8) : Except Error Disk :=
  match d.locate (Path.trimSlashes path) with
  | .error f => .error ⟨"open", path, f⟩
  | .ok l =>
      if Path.trimSlashes path ≠ path ∨ d.node? l = some .folder then
        .error ⟨"open", path, .isFolder⟩
      else .ok (d.put l (.file content))

/-- The disk after a folder was made. -/
def makeFolder (d : Disk) (path : String) : Except Error Disk :=
  match d.locate (Path.trimSlashes path) with
  | .error f => .error ⟨"mkdir", path, f⟩
  | .ok l =>
      if (d.node? l).isSome then .error ⟨"mkdir", path, .taken⟩ else .ok (d.put l .folder)

/-- The disk after making sure that a folder is there. -/
def ensureFolder (d : Disk) (path : String) : Except Error Disk :=
  match d.find path with
  | .ok .folder => .ok d
  | .ok (.file _) => .error ⟨"mkdir", path, .notFolder⟩
  | .error _ => d.makeFolder path

/-- Makes sure that a folder and all folders on the way to it are there. -/
def makeFolders (path : String) : Action Error Unit :=
  (Path.ancestry path).forM fun p => change (ensureFolder · p)

/-- The disk after a file was removed. -/
def remove (d : Disk) (path : String) : Except Error Disk :=
  match d.locate path with
  | .error f => .error ⟨"remove", path, f⟩
  | .ok l =>
      match d.node? l with
      | some (.file _) => .ok (d.erase l)
      | some .folder => .error ⟨"remove", path, .isFolder⟩
      | none => .error ⟨"remove", path, .missing⟩

/-- The files below the working folder with their contents as they are shown, and the empty folders
without, in order; the path of a folder ends in a slash. -/
def tree (d : Disk) : List (String × Option String) :=
  let named := d.nodes.filterMap fun (l, n) =>
    let path := Text.joinWith "/" l.names
    if l.absolute ∨ l.names.head? = some ".." then none
    else
      match n with
      | .file content => some (path, some (Text.shown content))
      | .folder => if (d.entries l).isEmpty then some (path ++ "/", none) else none
  named.mergeSort fun a b => a.1 ≤ b.1

/-- A disk with the given texts as files below the working folder; a path that ends in a slash is an
empty folder. -/
def ofFiles (files : List (String × String)) : Disk :=
  files.foldl (fun d (path, text) =>
    let place : Action Error Unit := do
      if Path.trimSlashes path = path then
        makeFolders (Path.parent path)
        change (write · path (Text.bytesOf text))
      else makeFolders path
    (place.run d).2) empty

end Disk

end WireSchema
