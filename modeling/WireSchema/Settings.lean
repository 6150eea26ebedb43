import WireSchema.Disk
import WireSchema.Toml.Document

/-!
# Settings of a run

What a run reads, what it writes, and how.  Settings come from a file: every key that is there
replaces its default, paths are taken from the folder of the file, and texts lose the white space at
their ends.  A key that differs from a known one only in the case of its letters is accepted if its
value fits, and changes nothing; a key that is not known at all is an error.
-/

namespace WireSchema

/-- The settings of a run. -/
structure Settings where
  /-- The path of the schema. -/
  schema : String
  /-- Where generated files go. -/
  outputDir : String
  /-- The name of the generated package. -/
  package : String
  backend : String
  /-- How many plans are derived at a time at most; zero for no bound. -/
  workers : Int
  /-- Sizes are planned and their methods emitted. -/
  sizeMethods : Bool
  /-- Comments of the schema are copied. -/
  comments : Bool
  /-- Where generated code finds its readers and writers; empty for the standard place. -/
  wireImport : String
  /-- Nothing is written. -/
  dryRun : Bool
  /-- Stale generated files are removed. -/
  prune : Bool
  logLevel : String
  deriving DecidableEq, Repr

namespace Settings

/-- The settings of a run without a settings file. -/
def standard : Settings where
  schema := "schema.yaml"
  outputDir := "./generated"
  package := "pdu"
  backend := "go"
  workers := 4
  sizeMethods := true
  comments := true
  wireImport := ""
  dryRun := false
  prune := false
  logLevel := "info"

/-- No settings at all. -/
def blank : Settings := ⟨"", "", "", "", 0, false, false, "", false, false, ""⟩

/-! ## Reading -/

/-- Why a settings file does not give settings. -/
inductive LoadError where
  | unreadable (cause : Disk.Error)
  /-- The text is no settings file, or a value does not fit its key. -/
  | malformed
  | unknownKeys (path : String) (keys : List String)
  deriving DecidableEq, Repr

/-- The error in words; a malformed file has none of its own. -/
def LoadError.message : LoadError → String
  | .unreadable e => "load config: " ++ e.message
  | .malformed => "load config"
  | .unknownKeys path keys =>
      "load config " ++ path ++ ": unknown keys " ++ Text.joinWith ", " keys

/-- Stores a value in the settings, if it fits. -/
abbrev Store : Type := Toml.Value → Settings → Option Settings

/-- Stores a text without the white space at its ends. -/
def storeText (set : String → Settings → Settings) : Store
  | .text t, s => some (set (Text.trim t) s)
  | _, _ => none

/-- Stores a truth value. -/
def storeBool (set : Bool → Settings → Settings) : Store
  | .bool b, s => some (set b s)
  | _, _ => none

/-- Stores a number. -/
def storeInt (set : Int → Settings → Settings) : Store
  | .integer n, s => some (set n s)
  | _, _ => none

/-- A path as seen from the working folder, if it was given as seen from `base`. -/
def relativeTo (base p : String) : String :=
  if p.isEmpty || Path.isAbsolute p then p else Path.join base p

/-- The keys of a settings file in the folder `base`, with what they set. -/
def keys (base : String) : List (String × Store) :=
  [ ("schema", storeText fun t s => { s with schema := relativeTo base t }),
    ("output_dir", storeText fun t s => { s with outputDir := relativeTo base t }),
    ("package", storeText fun t s => { s with package := t }),
    ("backend", storeText fun t s => { s with backend := t }),
    ("workers", storeInt fun n s => { s with workers := n }),
    ("size_methods", storeBool fun b s => { s with sizeMethods := b }),
    ("comments", storeBool fun b s => { s with comments := b }),
    ("wire_import", storeText fun t s => { s with wireImport := t }),
    ("dry_run", storeBool fun b s => { s with dryRun := b }),
    ("prune", storeBool fun b s => { s with prune := b }),
    ("log_level", storeText fun t s => { s with logLevel := t }) ]

/-- A small letter and a character that is the same letter in either case. -/
def sameLetter (small c : Char) : Bool :=
  c.toLower == small || (small == 's' && c == '\u017f') || (small == 'k' && c == '\u212a')

/-- Two keys differ in the case of their letters at most; the first has small letters only. -/
def sameKey : (small key : List Char) → Bool
  | [], [] => true
  | a :: as, b :: bs => sameLetter a b && sameKey as bs
  | _, _ => false

/-- What a key sets, if it is known in any case of its letters. -/
def store? (base key : String) : Option Store :=
  ((keys base).find? fun e => sameKey e.1.toList key.toList).map (·.2)

/-- Settings with one more key taken over; the value of a known key has to fit. -/
def takeOver (base : String) (s : Settings) (entry : String × Toml.Slot) : Option Settings :=
  match store? base entry.1, entry.2 with
  | none, _ => some s
  | some store, .value v =>
      (store v s).map fun changed => if ((keys base).lookup entry.1).isSome then changed else s
  | some _, _ => none

/-- The keys of a settings file that are not known, as they are shown. -/
def unknownKeys (doc : Toml.Document) : List String :=
  let isKnown : Toml.Key → Bool
    | [name] => (store? "" name).isSome
    | _ => false
  (doc.keys.filter fun k => !isKnown k).map Toml.shownKey

/-- The settings in the bytes of the settings file at `path`. -/
def ofBytes (path : String) (bytes : List UInt8) : Except LoadError Settings := do
  let some doc := Toml.Document.parse? bytes | throw .malformed
  let some s := doc.root.foldlM (takeOver (Path.parent path)) standard | throw .malformed
  match unknownKeys doc with
  | [] => return s
  | unknown => throw (.unknownKeys path unknown)

/-- The settings in a settings file. -/
def load (d : Disk) (path : String) : Except LoadError Settings := do
  ofBytes path (← (d.read path).mapError .unreadable)

/-! ## Checking -/

/-- What is wrong with settings. -/
inductive Problem where
  | noSchema
  | noBackend
  | noPackage
  | negativeWorkers (n : Int)
  | noOutputDir
  deriving DecidableEq, Repr

/-- The problem in words. -/
def Problem.message : Problem → String
  | .noSchema => "schema path is empty"
  | .noBackend => "backend is empty"
  | .noPackage => "package name is empty"
  | .negativeWorkers n => "workers must not be negative, got " ++ toString n
  | .noOutputDir => "output_dir is empty"

/-- Everything that is wrong with settings. -/
def problems (s : Settings) : List Problem :=
  let isEmpty (t : String) : Bool := (Text.trim t).isEmpty
  (if isEmpty s.schema then [.noSchema] else []) ++
    (if isEmpty s.backend then [.noBackend] else []) ++
    (if isEmpty s.package then [.noPackage] else []) ++
    (if s.workers < 0 then [.negativeWorkers s.workers] else []) ++
    (if !s.dryRun && isEmpty s.outputDir then [.noOutputDir] else [])

/-- Everything that is wrong with settings, in words, one problem a line; nothing if they are
right. -/
def problemText? (s : Settings) : Option String :=
  match s.problems with
  | [] => none
  | ps => some (Text.joinWith "\n" (ps.map Problem.message))

end Settings

end WireSchema
