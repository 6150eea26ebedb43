import WireSchema.Yaml.Node
import WireSchema.Yaml.Token.Lexer

/-!
# From tokens to trees

The grammar of documents over tokens.  Reading stops after the first document; what follows it is
not looked at, apart from the few tokens that are read ahead.

Every function takes as fuel a bound on how often it may still descend or go on; a list of `n`
tokens never needs more than `2 n`.
-/

namespace WireSchema.Yaml

/-- The state of reading: the place among the tokens, the anchors seen so far with the number of
their node, the nodes by number, and the declared tag handles. -/
structure Parse where
  pos : Nat := 0
  names : List (String × Nat) := []
  anchors : Array Node := #[]
  handles : List (String × String) := []

namespace Parse

/-- How many tokens are read ahead of the current one. -/
def lookahead : Nat := 2

/-- The token at the current place.  A fault in the text is noticed as soon as reading ahead meets
it. -/
def peek (ts : TokenList) (p : Parse) : Except Malformed Token :=
  if !ts.complete && decide (ts.tokens.size ≤ p.pos + lookahead) then .error {}
  else .ok (ts.tokens[p.pos]?.getD ⟨.streamEnd, 0⟩)

/-- Moves on by one token. -/
def advance (p : Parse) : Parse := { p with pos := p.pos + 1 }

/-- Reserves the number of an anchored node. -/
def reserve (p : Parse) (anchor : Option String) : Parse × Option Nat :=
  match anchor with
  | none => (p, none)
  | some name =>
      let id := p.anchors.size
      ({ p with names := (name, id) :: p.names, anchors := p.anchors.push (Node.missing 0) },
        some id)

/-- Fills in an anchored node. -/
def fill (p : Parse) (id : Option Nat) (n : Node) : Parse :=
  match id with
  | none => p
  | some id => { p with anchors := p.anchors.setIfInBounds id n }

/-- The tag a handle and suffix stand for. -/
def resolveTag (p : Parse) (handle suffix : String) : Except Malformed String :=
  if handle.isEmpty then .ok suffix
  else
    match p.handles.lookup handle with
    | some lead => .ok (lead ++ suffix)
    | none =>
        if handle == "!" then .ok ("!" ++ suffix)
        else if handle == "!!" then .ok (Tag.standardLead ++ suffix)
        else .error {}

end Parse

/-- An anchor and a tag, in either order, and the line they start on. -/
structure Properties where
  anchor : Option String := none
  tag : String := ""
  line : Nat

/-- Reads the properties of a node. -/
def readProperties (ts : TokenList) (p : Parse) : Except Malformed (Properties × Parse) := do
  let t ← p.peek ts
  match t.kind with
  | .anchor a =>
      let p := p.advance
      let u ← p.peek ts
      match u.kind with
      | .tag h s => return (⟨some a, ← p.resolveTag h s, t.line⟩, p.advance)
      | _ => return (⟨some a, "", t.line⟩, p)
  | .tag h s =>
      let p := p.advance
      let tag ← p.resolveTag h s
      let u ← p.peek ts
      match u.kind with
      | .anchor a => return (⟨some a, tag, t.line⟩, p.advance)
      | _ => return (⟨none, tag, t.line⟩, p)
  | _ => return (⟨none, "", t.line⟩, p)

mutual

/-- Reads a node.  Block collections are looked for in block context only, and a sequence at the
indentation of its mapping key only where it may stand. -/
def readNode (ts : TokenList) : (fuel : Nat) → (block indentless : Bool) → Parse →
    Except Malformed (Node × Parse)
  | 0, _, _, _ => .error {}
  | fuel + 1, block, indentless, p => do
      let t ← p.peek ts
      match t.kind with
      | .alias name =>
          match p.names.lookup name with
          | some id => return (.alias t.line name id, p.advance)
          | none => throw {}
      | _ =>
          let (props, p) ← readProperties ts p
          let t ← p.peek ts
          let (p, id) := p.reserve props.anchor
          let done (r : Node × Parse) : Node × Parse := (r.1, r.2.fill id r.1)
          let seq (r : List Node × Parse) : Node × Parse :=
            done (.sequence props.line (Node.collectionTag props.tag Tag.seq) r.1, r.2)
          let map (r : List (Node × Node) × Parse) : Node × Parse :=
            done (.mapping props.line (Node.collectionTag props.tag Tag.map) r.1, r.2)
          match t.kind with
          | .scalar text style =>
              return done
                (.scalar props.line (Node.scalarTag props.tag style text) style text, p.advance)
          | .flowSequenceStart => return seq (← readFlowItems ts fuel true p.advance)
          | .flowMappingStart => return map (← readFlowEntries ts fuel true p.advance)
          | kind =>
              if indentless && kind == .blockEntry then
                return seq (← readIndentlessItems ts fuel p)
              else if block && kind == .blockSequenceStart then
                return seq (← readBlockItems ts fuel p.advance)
              else if block && kind == .blockMappingStart then
                return map (← readBlockEntries ts fuel p.advance)
              else if props.anchor.isSome || props.tag ≠ "" then
                return done (.scalar props.line (Node.scalarTag props.tag .plain "") .plain "", p)
              else throw {}

/-- Reads the entries of a block sequence and its end. -/
def readBlockItems (ts : TokenList) : (fuel : Nat) → Parse → Except Malformed (List Node × Parse)
  | 0, _ => .error {}
  | fuel + 1, p => do
      let t ← p.peek ts
      match t.kind with
      | .blockEntry =>
          let p := p.advance
          let u ← p.peek ts
          let (item, p) ←
            if u.kind == .blockEntry || u.kind == .blockEnd then pure (Node.missing t.line, p)
            else readNode ts fuel true false p
          let (items, p) ← readBlockItems ts fuel p
          return (item :: items, p)
      | .blockEnd => return ([], p.advance)
      | _ => throw {}

/-- Reads the entries of a sequence that stands at the indentation of its key. -/
def readIndentlessItems (ts : TokenList) :
    (fuel : Nat) → Parse → Except Malformed (List Node × Parse)
  | 0, _ => .error {}
  | fuel + 1, p => do
      let t ← p.peek ts
      match t.kind with
      | .blockEntry =>
          let p := p.advance
          let u ← p.peek ts
          let (item, p) ←
            if [.blockEntry, .key, .value, .blockEnd].contains u.kind then
              pure (Node.missing t.line, p)
            else readNode ts fuel true false p
          let (items, p) ← readIndentlessItems ts fuel p
          return (item :: items, p)
      | _ => return ([], p)

/-- Reads the entries of a block mapping and its end. -/
def readBlockEntries (ts : TokenList) :
    (fuel : Nat) → Parse → Except Malformed (List (Node × Node) × Parse)
  | 0, _ => .error {}
  | fuel + 1, p => do
      let t ← p.peek ts
      match t.kind with
      | .key =>
          let p := p.advance
          let (k, p) ← readBlockPart ts fuel t.line p
          let v ← p.peek ts
          let (v, p) ←
            if v.kind == .value then readBlockPart ts fuel v.line p.advance
            else pure (Node.missing v.line, p)
          let (entries, p) ← readBlockEntries ts fuel p
          return ((k, v) :: entries, p)
      | .value =>
          throw {}
      | .blockEnd => return ([], p.advance)
      | _ => throw {}

/-- Reads the key or value of a block mapping entry, which may be missing. -/
def readBlockPart (ts : TokenList) :
    (fuel : Nat) → (line : Nat) → Parse → Except Malformed (Node × Parse)
  | 0, _, _ => .error {}
  | fuel + 1, line, p => do
      let t ← p.peek ts
      if [.key, .value, .blockEnd].contains t.kind then return (Node.missing line, p)
      else readNode ts fuel true true p

/-- Reads the items of a flow sequence and its end. -/
def readFlowItems (ts : TokenList) :
    (fuel : Nat) → (first : Bool) → Parse → Except Malformed (List Node × Parse)
  | 0, _, _ => .error {}
  | fuel + 1, first, p => do
      let t ← p.peek ts
      if t.kind == .flowSequenceEnd then return ([], p.advance)
      let p ←
        if first then pure p
        else if t.kind == .flowEntry then pure p.advance
        else throw {}
      let t ← p.peek ts
      match t.kind with
      | .flowSequenceEnd => return ([], p.advance)
      | .key =>
          let (pair, p) ← readFlowPair ts fuel t.line p.advance
          let (items, p) ← readFlowItems ts fuel false p
          return (pair :: items, p)
      | _ =>
          let (item, p) ← readNode ts fuel false false p
          let (items, p) ← readFlowItems ts fuel false p
          return (item :: items, p)

/-- Reads a single entry written without braces inside a flow sequence. -/
def readFlowPair (ts : TokenList) :
    (fuel : Nat) → (line : Nat) → Parse → Except Malformed (Node × Parse)
  | 0, _, _ => .error {}
  | fuel + 1, line, p => do
      let t ← p.peek ts
      let (k, p) ←
        if [.value, .flowEntry, .flowSequenceEnd].contains t.kind then
          pure (Node.missing t.line, p.advance)
        else readNode ts fuel false false p
      let t ← p.peek ts
      if t.kind == .value then
        let p := p.advance
        let u ← p.peek ts
        if [.flowEntry, .flowSequenceEnd].contains u.kind then
          return (.mapping line Tag.map [(k, Node.missing t.line)], p)
        else
          let (v, p) ← readNode ts fuel false false p
          return (.mapping line Tag.map [(k, v)], p)
      else return (.mapping line Tag.map [(k, Node.missing t.line)], p)

/-- Reads the entries of a flow mapping and its end. -/
def readFlowEntries (ts : TokenList) :
    (fuel : Nat) → (first : Bool) → Parse → Except Malformed (List (Node × Node) × Parse)
  | 0, _, _ => .error {}
  | fuel + 1, first, p => do
      let t ← p.peek ts
      if t.kind == .flowMappingEnd then return ([], p.advance)
      let p ←
        if first then pure p
        else if t.kind == .flowEntry then pure p.advance
        else throw {}
      let t ← p.peek ts
      match t.kind with
      | .flowMappingEnd => return ([], p.advance)
      | .key =>
          let p := p.advance
          let u ← p.peek ts
          let (k, p) ←
            if [.value, .flowEntry, .flowMappingEnd].contains u.kind then
              pure (Node.missing u.line, p)
            else readNode ts fuel false false p
          let u ← p.peek ts
          let (v, p) ←
            if u.kind == .value then do
              let p := p.advance
              let w ← p.peek ts
              if [.flowEntry, .flowMappingEnd].contains w.kind then pure (Node.missing w.line, p)
              else readNode ts fuel false false p
            else pure (Node.missing u.line, p)
          let (entries, p) ← readFlowEntries ts fuel false p
          return ((k, v) :: entries, p)
      | _ =>
          let (k, p) ← readNode ts fuel false false p
          let u ← p.peek ts
          let (entries, p) ← readFlowEntries ts fuel false p
          return ((k, Node.missing u.line) :: entries, p)

end

/-- Reads the directives before a document, of which there is `any`.  At most one of them gives a
version, and that is 1.1; no handle is declared twice. -/
def readDirectives (ts : TokenList) :
    (fuel : Nat) → (any version : Bool) → Parse → Except Malformed (Bool × Parse)
  | 0, _, _, _ => .error {}
  | fuel + 1, any, version, p => do
      let t ← p.peek ts
      match t.kind with
      | .versionDirective major minor =>
          if version || major != 1 || minor != 1 then throw {}
          else readDirectives ts fuel true true p.advance
      | .tagDirective handle lead =>
          if (p.handles.lookup handle).isSome then throw {}
          else
            readDirectives ts fuel true version
              { p.advance with handles := (handle, lead) :: p.handles }
      | _ => return (any, p)

/-- The first document of a file; none if the file has no content. -/
def Document.ofBytes? (bytes : List UInt8) : Except Malformed (Option Document) := do
  let ts := TokenList.ofInput (.ofBytes bytes)
  let fuel := 2 * ts.tokens.size + 4
  let (directives, p) ← readDirectives ts fuel false false {}
  let t ← p.peek ts
  let contentEnds : TokenKind → Bool
    | .versionDirective _ _ | .tagDirective _ _ | .documentStart | .documentEnd | .streamEnd => true
    | _ => false
  let (root, p) ←
    match t.kind with
    | .documentStart => do
        let p := p.advance
        let u ← p.peek ts
        if contentEnds u.kind then pure (some (Node.missing u.line), p)
        else do
          let (n, p) ← readNode ts fuel true false p
          pure (some n, p)
    | .streamEnd => if directives then throw {} else pure (none, p)
    | _ =>
        if directives then throw {}
        else do
          let (n, p) ← readNode ts fuel true false p
          pure (some n, p)
  let _ ← p.peek ts
  return root.map fun n => ⟨n, p.anchors, ts.tokens.size⟩

end WireSchema.Yaml
