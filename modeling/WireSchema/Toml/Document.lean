import WireSchema.Toml.Statement

/-!
# Settings files

The statements of a settings file build a tree of tables.  A table that only stands on the way to
another one is there by implication: it may be opened once by a head of its own.  Everything else is
said once; only a list can take the place of what is no list of values.  The keys are remembered in
the order in which they were written.
-/

namespace WireSchema.Toml

/-- What a key of a table holds. -/
inductive Slot where
  | value (v : Value)
  | table (slots : List (String × Slot))
  /-- A list of tables; the last one is open. -/
  | tables (earlier : List (List (String × Slot))) (last : List (String × Slot))
  deriving Repr

/-- The keys of a table with what they hold. -/
abbrev Table : Type := List (String × Slot)

/-- The open table of a slot, if it has one. -/
def Slot.open? : Slot → Option Table
  | .value _ => none
  | .table slots => some slots
  | .tables _ last => some last

/-- A slot with another open table. -/
def Slot.reopen (s : Slot) (t : Table) : Slot :=
  match s with
  | .tables earlier _ => .tables earlier t
  | _ => .table t

/-- A list that was written as a value. -/
def Slot.isListOfValues : Slot → Bool
  | .value (.array _) => true
  | _ => false

namespace Table

/-- A table with a key filled anew. -/
def put (t : Table) (key : String) (s : Slot) : Table :=
  if (t.lookup key).isSome then t.map fun e => if e.1 = key then (key, s) else e
  else t ++ [(key, s)]

/-- The open table at the end of a path. -/
def at? (t : Table) : Key → Option Table
  | [] => some t
  | part :: path => (t.lookup part).bind fun s => s.open?.bind fun inner => at? inner path

/-- A table with a key of the open table at the end of a path filled anew. -/
def putAt (t : Table) : Key → String → Slot → Table
  | [], key, s => put t key s
  | part :: path, key, s =>
      match t.lookup part with
      | some slot => put t part (slot.reopen (putAt (slot.open?.getD []) path key s))
      | none => t

end Table

/-- What has been built so far. -/
structure Draft where
  root : Table := []
  /-- The keys of tables that are there by implication. -/
  implied : List Key := []
  /-- The keys that hold lists. -/
  lists : List Key := []
  /-- The keys in the order in which they were written, last one first. -/
  written : List Key := []

namespace Draft

/-- Remembers that a key was written. -/
def write (d : Draft) (key : Key) : Draft := { d with written := key :: d.written }

/-- Remembers a table as one that is there by implication. -/
def imply (d : Draft) (key : Key) : Draft := { d with implied := key :: d.implied }

/-- Remembers a table as one that was opened by itself. -/
def expose (d : Draft) (key : Key) : Draft := { d with implied := d.implied.filter (· ≠ key) }

/-- Remembers whether a key holds a list. -/
def noteList (d : Draft) (key : Key) (isList : Bool) : Draft :=
  { d with lists := if isList then key :: d.lists else d.lists.filter (· ≠ key) }

/-- Fills a key of the open table at `path`, unless it was filled before.  What was there by
implication stays, and a list replaces it, as it replaces everything but a list of values. -/
def fill (d : Draft) (path : Key) (key : String) (s : Slot) : Option Draft := do
  let whole := path ++ [key]
  let t ← d.root.at? path
  match t.lookup key with
  | none => return { d with root := d.root.putAt path key s }
  | some old =>
      let implied := d.implied.contains whole
      if d.lists.contains whole then
        if implied || !old.isListOfValues then
          return { d.expose whole with root := d.root.putAt path key s }
        else none
      else if implied then return d.expose whole
      else none

/-- Makes sure that all parts of a path are tables; those that are not there are implied. -/
def reach (d : Draft) (here : Key) : Key → Option Draft
  | [] => some d
  | part :: rest => do
      let t ← d.root.at? here
      let next := here ++ [part]
      let d' :=
        if (t.lookup part).isNone then
          { d.imply next with root := d.root.putAt here part (.table []) }
        else d
      let _ ← d'.root.at? next
      d'.reach next rest

/-- Opens a table. -/
def openTable (d : Draft) (key : Key) : Option Draft := do
  let d ← d.reach [] key.dropLast
  d.fill key.dropLast (key.getLast?.getD "") (.table [])

/-- Opens one more table of a list of tables. -/
def openTables (d : Draft) (key : Key) : Option Draft := do
  let d ← d.reach [] key.dropLast
  let last := key.getLast?.getD ""
  let t ← d.root.at? key.dropLast
  let slot ←
    match t.lookup last with
    | none => some (Slot.tables [] [])
    | some (.tables earlier open_) => some (.tables (earlier ++ [open_]) [])
    | some _ => none
  return { d with root := d.root.putAt key.dropLast last slot }

/-- Opens the tables on the way of a key, one part after the other, each by implication. -/
def openWay (d : Draft) (context : Key) : Key → Option Draft
  | [] => some d
  | part :: rest => do
      let here := context ++ [part]
      let d ← (d.imply here).openTable here
      d.openWay here rest

/-- The value is a list. -/
def isList : Value → Bool
  | .array _ => true
  | _ => false

mutual

/-- Builds what a value brings along before its key is filled: a table on the spot is opened under
that key, and a list of such tables is a list of tables meanwhile. -/
def place (d : Draft) (key : Key) (inList : Bool) : Value → Option Draft
  | .array items => placeItems (d.noteList key true) key items
  | .inline pairs => do
      let d := d.imply key
      let d ← if inList then d.openTables key else d.openTable key
      placePairs d key pairs
  | _ => some d

/-- Builds what the items of a list bring along. -/
def placeItems (d : Draft) (key : Key) : List Value → Option Draft
  | [] => some d
  | v :: rest => do placeItems (← place d key true v) key rest

/-- Builds the assignments of a table on the spot. -/
def placePairs (d : Draft) (context : Key) : List (Key × Value) → Option Draft
  | [] => some d
  | (key, v) :: rest => do
      let way := context ++ key.dropLast
      let whole := context ++ key
      let d ← d.openWay context key.dropLast
      let d ← place (d.write whole) whole false v
      let d ← d.fill way (key.getLast?.getD "") (.value v)
      placePairs (d.noteList whole (isList v)) context rest

end

/-- Carries out a statement in the table that is open, and says which table is open then. -/
def run (d : Draft) (context : Key) : Statement → Option (Draft × Key)
  | .table key => do
      let d ← d.openTable key
      return ((d.noteList key false).write key, key)
  | .tables key => do
      let d ← d.openTables key
      return ((d.noteList key false).write key, key)
  | .assign key v => do return (← placePairs d context [(key, v)], context)

/-- Carries out statements one after the other. -/
def runAll (d : Draft) (context : Key) : List Statement → Option Draft
  | [] => some d
  | s :: rest => do
      let (d, context) ← d.run context s
      d.runAll context rest

end Draft

/-- A settings file: its outermost table, and its keys in the order in which they were written. -/
structure Document where
  root : Table
  keys : List Key

/-- What a settings file says, unless its bytes are no settings file. -/
def Document.parse? (bytes : List UInt8) : Option Document := do
  let d ← Draft.runAll {} [] (← statements bytes)
  return ⟨d.root, d.written.reverse⟩

end WireSchema.Toml
