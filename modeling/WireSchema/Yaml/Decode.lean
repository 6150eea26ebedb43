import WireSchema.Text.Utf8
import WireSchema.Yaml.Node.OfTokens

/-!
# Reading values out of a tree

Reading a record goes through its node and fills in fields.  A value of the wrong type is noted and
the field keeps what it had; reading goes on, so that all such faults are reported together.  Null
leaves a field as it was.  A few faults end reading at once; one of them is that nearly everything
was read through aliases, many times over.

A reader takes a node that is no alias: whoever has an alias gets to its node by `enter`.  A field
has a `Slot`: how it takes a node, which may change the record.
-/

namespace WireSchema.Yaml

/-- What ends reading at once. -/
inductive Stop where
  /-- The document makes no sense, whatever is read from it. -/
  | malformed
  /-- A field refuses its node for a reason of its own. -/
  | refused (reason : String)
  deriving DecidableEq, Repr

/-- How far reading has come. -/
structure Progress where
  /-- The noted faults in order. -/
  faults : List String := []
  /-- How many nodes were entered. -/
  entered : Nat := 0
  /-- How many of them below an alias. -/
  aliased : Nat := 0
  /-- How many aliases lead to the current node. -/
  aliases : Nat := 0

/-- Reading with noted faults. -/
abbrev Decode (α : Type) : Type := StateT Progress (Except Stop) α

/-- Whether too many nodes were entered below aliases: more than 99 in a hundred.  From four hundred
thousand nodes on that share goes down, to ten in a hundred at four million. -/
def Progress.isExcessive (p : Progress) : Bool :=
  let low := 400000
  let high := 4000000
  decide (100 < p.aliased ∧ 1000 < p.entered) &&
    (if p.entered ≤ low then decide (99 * p.entered < 100 * p.aliased)
      else if high ≤ p.entered then decide (10 * p.entered < 100 * p.aliased)
      else
        decide (p.entered * (99 * (high - low) - 89 * (p.entered - low)) <
          100 * p.aliased * (high - low)))

namespace Decode

/-- Notes a fault. -/
def note (fault : String) : Decode Unit :=
  modify fun p => { p with faults := p.faults ++ [fault] }

/-- Counts one more node. -/
def count : Decode Unit := do
  let p ← get
  let p := { p with
    entered := p.entered + 1, aliased := p.aliased + (if p.aliases = 0 then 0 else 1) }
  if p.isExcessive then throw .malformed else set p

/-- Reads below an alias. -/
def belowAlias (d : Decode α) : Decode α := do
  modify fun p => { p with aliases := p.aliases + 1 }
  let a ← d
  modify fun p => { p with aliases := p.aliases - 1 }
  return a

/-- The node an alias stands for. -/
def follow (doc : Document) : Node → Node
  | .alias line _ target => doc.anchors[target]?.getD (Node.missing line)
  | n => n

/-- Reads a node; of an alias, the node it stands for. -/
def enter (doc : Document) (n : Node) (read : Node → Decode α) : Decode α := do
  count
  match n with
  | .alias .. =>
      belowAlias do
        count
        read (follow doc n)
  | n => read n

/-- Reads with a count of its own. -/
def apart (d : Decode α) : Decode α := do
  let p ← get
  set { p with entered := 0, aliased := 0, aliases := 0 }
  let a ← d
  modify fun q => { p with faults := q.faults }
  return a

/-- A text as it is shown in a fault: cut to seven bytes if it has more than ten. -/
def excerpt (s : String) : String :=
  let bytes := Text.bytesOf s
  let shown :=
    if 10 < bytes.length then
      Text.shown (bytes.take 7) ++ "..."
    else s
  " `" ++ shown ++ "`"

/-- Notes that a node is not of the type asked for. -/
def mismatch (n : Node) (type : String) : Decode Unit :=
  let shown := if n.tag == Tag.seq || n.tag == Tag.map then n.text else excerpt n.text
  note ("line " ++ toString n.line ++ ": cannot unmarshal " ++ n.tag ++ shown ++ " into " ++ type)

/-- Notes the keys of a mapping that an earlier one repeats; whether there are none. -/
def uniqueKeys : List (Node × Node) → Decode Bool
  | [] => pure true
  | (k, _) :: rest => do
      let clashes := rest.filter fun (j, _) => k.kindCode == j.kindCode && k.text == j.text
      for (j, _) in clashes do
        note ("line " ++ toString j.line ++ ": mapping key " ++ Text.quoted j.text ++
          " already defined at line " ++ toString k.line)
      let others ← uniqueKeys rest
      return clashes.isEmpty && others

/-! ## Scalars -/

/-- The six bits of a base-64 character. -/
def base64Value (c : Char) : Option Nat :=
  let n := c.toNat
  if c.isUpper then some (n - 65)
  else if c.isLower then some (n - 71)
  else if c.isDigit then some (n + 4)
  else if c == '+' then some 62
  else if c == '/' then some 63
  else none

/-- Decodes base 64 in groups of four. -/
def base64 : List Char → Option (List UInt8)
  | [] => some []
  | a :: b :: c :: d :: rest => do
      let x ← base64Value a
      let y ← base64Value b
      let first := UInt8.ofNat (x * 4 + y / 16)
      if c == '=' then
        if d == '=' && rest.isEmpty then return [first] else none
      else
        let z ← base64Value c
        let second := UInt8.ofNat (y * 16 + z / 4)
        if d == '=' then
          if rest.isEmpty then return [first, second] else none
        else
          let w ← base64Value d
          let more ← base64 rest
          return first :: second :: UInt8.ofNat (z * 64 + w) :: more
  | _ => none

/-- The value of a scalar node.  Binary data is text in base 64.  Values are texts of characters, so
stray bytes of such data are not told apart: a value has them as they are shown. -/
def scalarValue (tag text : String) : Decode Value :=
  if tag == Tag.binary then
    match base64 (text.toList.filter fun c => c != '\n' && c != '\r') with
    | some bytes => pure (.text (Text.shown bytes))
    | none => throw .malformed
  else
    match Value.ofTagged tag text with
    | some v => pure v
    | none => throw .malformed

/-- Takes a scalar with `take`; anything else is a fault. -/
def scalar (type : String) (n : Node) (take : (text : String) → Value → Option α)
    (whenNull : Option α) : Decode (Option α) :=
  match n with
  | .scalar _ tag _ text => do
      let v ← scalarValue tag text
      if v = .null then return whenNull
      else
        match take text v with
        | some a => return some a
        | none =>
            mismatch n type
            return none
  | .mapping _ _ entries => do
      if ← uniqueKeys entries then mismatch n type
      return none
  | n => do
      mismatch n type
      return none

/-- A text; every scalar but null has one. -/
def text (n : Node) : Decode (Option String) :=
  scalar "string" n (fun s v =>
    match v with
    | .text t => some t
    | _ => some s) none

/-- An integer.  Floating point is cut toward zero if it fits. -/
def int (n : Node) : Decode (Option Int) :=
  scalar "int" n (fun _ v =>
    match v with
    | .int i => if i < 0x8000000000000000 then some i else none
    | .float bits =>
        let f := Number.Format.double
        match f.truncate? bits with
        | some i =>
            if 0x8000000000000000 < i then none
            else if i < -(0x8000000000000000) ∨ i = 0x8000000000000000 then
              some (-(0x8000000000000000))
            else some i
        | none => if f.isNaN bits || !f.negative bits then none else some (-(0x8000000000000000))
    | _ => none) none

/-- A boolean, or one of the words that also mean one. -/
def bool (n : Node) : Decode (Option Bool) :=
  scalar "bool" n (fun _ v =>
    match v with
    | .bool b => some b
    | .text s =>
        if ["y", "Y", "yes", "Yes", "YES", "on", "On", "ON"].contains s then some true
        else if ["n", "N", "no", "No", "NO", "off", "Off", "OFF"].contains s then some false
        else none
    | _ => none) none

/-- A value that may be absent: null makes it so.  A list or mapping that says of itself that it is
null is of no type at all. -/
def optional (type : String) (read : Node → Decode (Option α)) (n : Node) :
    Decode (Option (Option α)) :=
  if n.tag == Tag.null then scalar ("*" ++ type) n (fun _ _ => none) (some none)
  else return (← read n).map some

/-! ## Collections -/

/-- A list; items that cannot be read are left out.  Null is an empty list. -/
def list (doc : Document) (type : String) (item : Node → Decode (Option α)) (n : Node) :
    Decode (Option (List α)) :=
  match n with
  | .sequence _ _ items => do
      let read ← items.mapM fun i => enter doc i item
      return some (read.filterMap id)
  | n => scalar type n (fun _ _ => none) (some [])

/-- How a field of a record takes a node. -/
abbrev Slot (σ : Type) : Type := Node → σ → Decode σ

/-- A slot from a reader and a setter. -/
def slot (read : Node → Decode (Option α)) (set : σ → α → σ) : Slot σ := fun n s => do
  match ← read n with
  | some a => return set s a
  | none => return s

/-- A mapping key that merges other mappings in. -/
def isMergeKey : Node → Bool
  | .scalar _ tag _ text => text == "<<" && tag == Tag.merge
  | _ => false

/-- The nodes a merge value names. -/
def mergeNodes : Node → List Node
  | .sequence _ _ items => items
  | n => [n]

/-- The number of an alias that is not among those on the way here: a node must not contain
itself. -/
def aliasTarget (way : List Nat) : Node → Decode (List Nat)
  | .alias _ _ target => if way.contains target then throw .malformed else pure (target :: way)
  | _ => pure way

/-- The entries of a mapping that is merged in. -/
def mergeEntries (doc : Document) (n : Node) : Decode (List (Node × Node)) :=
  match follow doc n with
  | .mapping _ _ entries => pure entries
  | _ => throw .malformed

/-- What a node is where everything is allowed. -/
inductive Loose where
  | value (v : Value)
  | collection

/-- Reads a node where everything is allowed, apart from repeated keys and keys that are
collections. -/
def anything (doc : Document) : (fuel : Nat) → (way : List Nat) → Node → Decode (Option Loose)
  | 0, _, _ => throw .malformed
  | fuel + 1, way, n => do
      let way ← aliasTarget way n
      enter doc n fun
        | .scalar _ tag _ text => return some (.value (← scalarValue tag text))
        | .sequence _ _ items => do
            for i in items do
              let _ ← anything doc fuel way i
            return some .collection
        | .mapping _ _ entries => do
            if ← uniqueKeys entries then
              for (k, v) in entries do
                if !isMergeKey k then
                  match ← anything doc fuel way k with
                  | some .collection => throw .malformed
                  | some (.value _) => let _ ← anything doc fuel way v
                  | none => pure ()
              for (k, v) in entries do
                if isMergeKey k then
                  for m in mergeNodes v do
                    let _ ← mergeEntries doc m
                    let _ ← anything doc fuel way m
              return some .collection
            else return none
        | .alias .. => return none

/-- The names of the keys that win over what is merged into their mapping. -/
def keyNames (doc : Document) (fuel : Nat) (entries : List (Node × Node)) :
    Decode (List String) := do
  let names ← entries.mapM fun (k, _) => do
    match ← anything doc fuel [] k with
    | some (.value (.text name)) => return [name]
    | some .collection => throw .malformed
    | _ => return []
  return names.flatten

/-- Reads the entries of a mapping without repeated keys into a record, apart from what is merged
in; that is returned.  `taken` are the keys that win over this mapping, when it is merged into
another; fields of unknown name are skipped. -/
def ownFields (doc : Document) (type : String) (slots : List (String × Slot σ)) :
    List (Node × Node) → (taken : Option (List String)) → (done : List String) →
      (merge : Option Node) → σ → Decode (σ × Option (List String) × Option Node)
  | [], taken, _, merge, s => return (s, taken, merge)
  | (k, v) :: rest, taken, done, merge, s => do
      if isMergeKey k then ownFields doc type slots rest taken done (some v) s
      else
        match ← enter doc k text with
        | none => ownFields doc type slots rest taken done merge s
        | some name =>
            if (taken.getD []).contains name then
              ownFields doc type slots rest taken done merge s
            else
              let taken := taken.map (name :: ·)
              match slots.lookup name with
              | none => ownFields doc type slots rest taken done merge s
              | some slot =>
                  if done.contains name then
                    note ("line " ++ toString k.line ++ ": field " ++ name ++
                      " already set in type " ++ type)
                    ownFields doc type slots rest taken done merge s
                  else
                    let s ← enter doc v (slot · s)
                    ownFields doc type slots rest taken (name :: done) merge s

/-- Reads a mapping without repeated keys into a record, and then what is merged into it, where the
first to give a key wins.  The fuel bounds how deep merging goes. -/
def fields (doc : Document) (type : String) (slots : List (String × Slot σ)) :
    (fuel : Nat) → (way : List Nat) → (taken : Option (List String)) → List (Node × Node) → σ →
      Decode (σ × Option (List String))
  | 0, _, _, _, _ => throw .malformed
  | fuel + 1, way, taken, entries, s => do
      let (s, after, merge) ← ownFields doc type slots entries taken [] none s
      match merge with
      | none => return (s, after)
      | some m => do
          let start ←
            match after with
            | some names => pure names
            | none => keyNames doc (fuel + 1) entries
          let (s, after) ← (mergeNodes m).foldlM (fun (s, after) source => do
            let merged ← mergeEntries doc source
            let way ← aliasTarget way source
            enter doc source fun _ => do
              if ← uniqueKeys merged then fields doc type slots fuel way after merged s
              else pure (s, after)) (s, some start)
          return (s, if taken.isSome then after else none)

/-- Reads a record. -/
def record (doc : Document) (type : String) (slots : List (String × Slot σ)) (init : σ)
    (n : Node) : Decode (Option σ) :=
  match n with
  | .mapping _ _ entries => do
      if ← uniqueKeys entries then
        let fuel := (doc.anchors.size + 1) * (doc.depth + 1)
        let (s, _) ← fields doc type slots fuel [] none entries init
        return some s
      else return none
  | n => scalar type n (fun _ _ => none) none

/-- Reads a document; noted faults come out in order. -/
def run (doc : Document) (read : Node → Decode α) : Except Stop (α × List String) := do
  let (a, p) ← StateT.run (do count; enter doc doc.root read) {}
  return (a, p.faults)

end Decode

end WireSchema.Yaml
