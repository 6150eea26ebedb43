import WireSchema.Yaml.Input
import WireSchema.Yaml.Token.Scalar

/-!
# From text to tokens

The lexer keeps the indentation of the open blocks and, for every level of flow nesting, the place
of a token that may turn out to be a mapping key.  When a colon shows that it is one, the key token
and, at a new indentation, the start of a block mapping are put in front of it.

A key of this kind must end on its own line and within 1024 characters.  In a block mapping whose
entries start at this column it must be a key, so its colon may not be missing.

Lexing stops at the first fault; the tokens before it are kept, since the reader of tokens may need
no more than those.
-/

namespace WireSchema.Yaml

/-- A token that may turn out to be a mapping key. -/
structure KeyPlace where
  possible : Bool := false
  required : Bool := false
  /-- Its place among the tokens. -/
  token : Nat := 0
  line : Nat := 0
  column : Nat := 0
  index : Nat := 0

/-- The state of the lexer. -/
structure Lexer where
  at_ : Cursor
  /-- One more than the characters of the text: no loop runs longer. -/
  limit : Nat
  /-- How many characters can be read before a piece with a fault. -/
  readable : Nat
  tokens : Array Token := #[]
  indent : Int := -1
  /-- The indentations of the enclosing blocks, innermost first. -/
  outer : List Int := []
  keyAllowed : Bool := true
  /-- The key place of the current level. -/
  key : KeyPlace := {}
  /-- The key places of the enclosing flow levels, innermost first; one per level. -/
  outerKeys : List KeyPlace := []
  finished : Bool := false

namespace Lexer

/-- Inside a flow collection. -/
def inFlow (lx : Lexer) : Bool := !lx.outerKeys.isEmpty

/-- The line at the cursor, counted from one. -/
def line (lx : Lexer) : Nat := lx.at_.line + 1

/-- Adds a token that starts at the cursor. -/
def add (lx : Lexer) (kind : TokenKind) : Lexer :=
  { lx with tokens := lx.tokens.push ⟨kind, lx.line⟩ }

/-- Makes sure that the `n` characters after the cursor can be read. -/
def need (lx : Lexer) (n : Nat) : Except Malformed Unit :=
  if lx.readable < lx.at_.index + n then .error {} else .ok ()

/-- Moves over `n` characters. -/
def skip (lx : Lexer) (n : Nat := 1) : Lexer := { lx with at_ := lx.at_.skip n }

/-- How many blocks, and how many flow collections, can stand one inside the other. -/
def maxDepth : Nat := 10000

/-- Opens a block at a column further right than the current one, with its start token at the given
place among the tokens.  In flow context there are no blocks. -/
def openBlock (lx : Lexer) (column : Nat) (place line : Nat) (kind : TokenKind) :
    Except Malformed Lexer :=
  if lx.inFlow || decide ((column : Int) ≤ lx.indent) then .ok lx
  else if maxDepth ≤ lx.outer.length then .error {}
  else
    .ok { lx with
      outer := lx.indent :: lx.outer
      indent := column
      tokens := lx.tokens.insertIdxIfInBounds place ⟨kind, line⟩ }

/-- Closes the blocks further right than a column. -/
def closeBlocks (column : Int) : (outer : List Int) → Lexer → Lexer
  | [], lx => lx
  | i :: outer, lx =>
      if lx.indent ≤ column then lx
      else closeBlocks column outer { lx.add .blockEnd with indent := i, outer }

/-- Closes the blocks further right than a column; in flow context there are none. -/
def closeTo (lx : Lexer) (column : Int) : Lexer :=
  if lx.inFlow then lx else closeBlocks column lx.outer lx

/-- Gives up the possible key of the current level. -/
def dropKey (lx : Lexer) : Except Malformed Lexer :=
  if lx.key.possible && lx.key.required then .error {}
  else .ok { lx with key := { lx.key with possible := false } }

/-- Remembers the next token as a possible key, if one is allowed here. -/
def saveKey (lx : Lexer) : Except Malformed Lexer :=
  if lx.keyAllowed then do
    let lx ← lx.dropKey
    return { lx with
      key :=
        { possible := true
          required := !lx.inFlow && lx.indent == (lx.at_.column : Int)
          token := lx.tokens.size
          line := lx.at_.line
          column := lx.at_.column
          index := lx.at_.index } }
  else .ok lx

/-- Whether the remembered token can still be a key here. -/
def keyHolds (lx : Lexer) : Except Malformed Bool :=
  if !lx.key.possible then .ok false
  else if lx.key.line < lx.at_.line || decide (lx.key.index + 1024 < lx.at_.index) then
    if lx.key.required then .error {} else .ok false
  else .ok true

/-- Moves over blanks, comments and line ends to the next token. -/
def toNextToken : (fuel : Nat) → Lexer → Lexer
  | 0, lx => lx
  | fuel + 1, lx =>
      let c := lx.at_
      let c := if c.column == 0 && c.peek == some '\ufeff' then c.skip else c
      let tabs := lx.inFlow || !lx.keyAllowed
      let (_, c) := c.takeWhile fun ch => ch == ' ' || (tabs && ch == '\t')
      let c := if c.peek == some '#' then c.overComments lx.limit else c
      match c.peek with
      | some ch =>
          if isBreak ch then
            toNextToken fuel
              { lx with at_ := c.lineBreak.2, keyAllowed := !lx.inFlow || lx.keyAllowed }
          else { lx with at_ := c }
      | none => { lx with at_ := c }

/-- A character of an anchor name. -/
def isNameChar (c : Char) : Bool :=
  decide (c.toNat < 128) && (c.isAlphanum || c == '_' || c == '-')

/-- A character of a tag. -/
def isTagChar (c : Char) : Bool :=
  isNameChar c ||
    [';', '/', '?', ':', '@', '&', '=', '+', '$', ',', '.', '!', '~', '*', '\'', '(', ')', '[',
      ']', '%'].contains c

/-- Reads an anchor or alias after its indicator. -/
def anchorName (c : Cursor) : Except Malformed (String × Cursor) :=
  let (name, next) := c.takeWhile isNameChar
  let ends :=
    match next.peek with
    | none => true
    | some ch => isGap (some ch) || ['?', ':', ',', ']', '}', '%', '@', '`'].contains ch
  if name.isEmpty || !ends then .error {} else .ok (String.ofList name, next)

/-- A byte written as a percent sign and two hexadecimal digits, and the rest. -/
def octet? : List Char → Option (Nat × List Char)
  | '%' :: a :: b :: rest => (hexValue [a, b]).map (·, rest)
  | _ => none

/-- How many more bytes a character has whose first byte this is. -/
def octetsAfter? (first : Nat) : Option Nat :=
  if first < 0x80 then some 0
  else if first / 0x20 = 6 then some 1
  else if first / 0x10 = 14 then some 2
  else if first / 8 = 30 then some 3
  else none

/-- Reads escaped bytes that continue a character. -/
def octets? : (count : Nat) → List Char → Option (List Nat × List Char)
  | 0, cs => some ([], cs)
  | count + 1, cs => do
      let (o, cs) ← octet? cs
      if o / 0x40 ≠ 2 then none
      let (os, cs) ← octets? count cs
      return (o :: os, cs)

/-- Reads the bytes of a tag: characters as they are, and escaped ones. -/
def tagBytes : (fuel : Nat) → List Char → Except Malformed (List Nat × List Char)
  | 0, cs => .ok ([], cs)
  | _, [] => .ok ([], [])
  | fuel + 1, c :: cs =>
      if c == '%' then
        let escaped : Option (List Nat × List Char) := do
          let (o, cs) ← octet? (c :: cs)
          let (os, cs) ← octets? (← octetsAfter? o) cs
          return (o :: os, cs)
        match escaped with
        | none => .error {}
        | some (os, cs) => do
            let (more, cs) ← tagBytes fuel cs
            return (os ++ more, cs)
      else if isTagChar c then do
        let (more, cs) ← tagBytes fuel cs
        return (c.toNat :: more, cs)
      else .ok ([], c :: cs)

/-- Reads the text of a tag. -/
def tagText (c : Cursor) : Except Malformed (String × Cursor) := do
  let (bytes, rest) ← tagBytes (c.rest.length + 1) c.rest
  let glyphs := Text.decode (bytes.map UInt8.ofNat)
  return (String.ofList (glyphs.map Text.Glyph.toChar), c.skip (c.rest.length - rest.length))

/-- Reads a tag text with something in it. -/
def someTagText (c : Cursor) : Except Malformed (String × Cursor) := do
  let (text, next) ← tagText c
  if text.isEmpty then throw {} else return (text, next)

/-- Reads the handle of a tag at its exclamation mark, if there is one: a word between two of
them. -/
def tagHandle? (c : Cursor) : Option (String × Cursor) :=
  let (name, next) := c.skip.takeWhile isNameChar
  if next.peek == some '!' then some ("!" ++ String.ofList name ++ "!", next.skip) else none

/-- Reads a tag at its exclamation mark: its handle and suffix. -/
def tagParts (c : Cursor) : Except Malformed ((String × String) × Cursor) := do
  let ((handle, suffix), c) ←
    if c.peekAt 1 == some '<' then do
      let (uri, c) ← someTagText (c.skip 2)
      if c.peek != some '>' then throw {}
      pure (("", uri), c.skip)
    else
      match tagHandle? c with
      | some (handle, c) => do
          let (uri, c) ← someTagText c
          pure ((handle, uri), c)
      | none => do
          let (uri, c) ← tagText c.skip
          pure (if uri.isEmpty then ("", "!") else ("!", uri), c)
  if isGap c.peek then return ((handle, suffix), c) else throw {}

/-- Moves over blanks. -/
def overBlanks (c : Cursor) : Cursor := (c.takeWhile isBlank).2

/-- Reads a number of one or two digits. -/
def versionNumber (c : Cursor) : Except Malformed (Nat × Cursor) :=
  let (digits, next) := c.takeWhile Char.isDigit
  if digits.isEmpty || decide (2 < digits.length) then .error {}
  else .ok (digits.foldl (fun n d => n * 10 + (d.toNat - 48)) 0, next)

/-- Reads what a version directive says. -/
def versionDirective (c : Cursor) : Except Malformed (TokenKind × Cursor) := do
  let (major, c) ← versionNumber (overBlanks c)
  if c.peek != some '.' then throw {}
  let (minor, c) ← versionNumber c.skip
  return (.versionDirective major minor, c)

/-- Reads what a tag directive says. -/
def tagDirective (c : Cursor) : Except Malformed (TokenKind × Cursor) := do
  let c := overBlanks c
  if c.peek != some '!' then throw {}
  let (handle, c) := (tagHandle? c).getD ("!", c.skip)
  if !(c.peek.map isBlank).getD false then throw {}
  let (lead, c) ← someTagText (overBlanks c)
  if !isGap c.peek then throw {}
  return (.tagDirective handle lead, c)

/-- Reads a directive line. -/
def directive (lx : Lexer) : Except Malformed Lexer := do
  let (name, c) := lx.at_.skip.takeWhile isNameChar
  if !isGap c.peek then throw {}
  let (kind, c) ←
    if name == "YAML".toList then versionDirective c
    else if name == "TAG".toList then tagDirective c
    else throw {}
  let c := overBlanks c
  let c := if c.peek == some '#' then c.skipLineText else c
  if !isLineEnd c.peek then throw {}
  return { lx.add kind with at_ := c.lineBreak.2 }

/-- Opens a flow collection. -/
def openFlow (lx : Lexer) (kind : TokenKind) : Except Malformed Lexer := do
  let lx ← lx.saveKey
  if maxDepth ≤ lx.outerKeys.length then throw {}
  return { (lx.add kind).skip with
    outerKeys := lx.key :: lx.outerKeys, key := {}, keyAllowed := true }

/-- Closes a flow collection. -/
def closeFlow (lx : Lexer) (kind : TokenKind) : Except Malformed Lexer := do
  let lx ← lx.dropKey
  let lx := { (lx.add kind).skip with keyAllowed := false }
  match lx.outerKeys with
  | k :: ks => return { lx with key := k, outerKeys := ks }
  | [] => return lx

/-- Reads a scalar that may be a key. -/
def keyScalar (lx : Lexer) (read : Cursor → Except Malformed (List Char × Bool × Cursor))
    (style : Style) : Except Malformed Lexer := do
  let lx ← lx.saveKey
  let (text, keyAllowed, c) ← read lx.at_
  return { lx.add (.scalar (String.ofList text) style) with at_ := c, keyAllowed }

/-- Reads the dash of a sequence entry. -/
def blockEntry (lx : Lexer) : Except Malformed Lexer := do
  if !lx.inFlow && !lx.keyAllowed then throw {}
  let lx ← lx.openBlock lx.at_.column lx.tokens.size lx.line .blockSequenceStart
  let lx ← lx.dropKey
  return { (lx.add .blockEntry).skip with keyAllowed := true }

/-- Reads the question mark of an explicit key. -/
def explicitKey (lx : Lexer) : Except Malformed Lexer := do
  if !lx.inFlow && !lx.keyAllowed then throw {}
  let lx ← lx.openBlock lx.at_.column lx.tokens.size lx.line .blockMappingStart
  let lx ← lx.dropKey
  return { (lx.add .key).skip with keyAllowed := !lx.inFlow }

/-- Reads the colon of a value. -/
def valueMark (lx : Lexer) : Except Malformed Lexer := do
  if ← lx.keyHolds then
    let k := lx.key
    let lx := { lx with tokens := lx.tokens.insertIdxIfInBounds k.token ⟨.key, k.line + 1⟩ }
    let lx ← lx.openBlock k.column k.token (k.line + 1) .blockMappingStart
    let lx := { lx with key := { k with possible := false }, keyAllowed := false }
    return (lx.add .value).skip
  else
    if !lx.inFlow && !lx.keyAllowed then throw {}
    let lx ← lx.openBlock lx.at_.column lx.tokens.size lx.line .blockMappingStart
    let lx := { lx with keyAllowed := !lx.inFlow }
    return (lx.add .value).skip

/-- Whether a plain scalar can start with `c` before `next`. -/
def startsPlain (lx : Lexer) (c : Char) (next : Option Char) : Bool :=
  let indicators :=
    ['-', '?', ':', ',', '[', ']', '{', '}', '#', '&', '*', '!', '|', '>', '\'', '"', '%', '@', '`']
  !(isGap (some c) || indicators.contains c) ||
    (c == '-' && !(next.map isBlank).getD false) ||
    (!lx.inFlow && (c == '?' || c == ':') && !isGap next)

/-- Reads a token of the content that starts with `ch` before `after`, and says whether a comment
may follow it on its line. -/
def content (lx : Lexer) (ch : Char) (after : Option Char) : Except Malformed (Lexer × Bool) := do
  let commented (lx : Except Malformed Lexer) : Except Malformed (Lexer × Bool) :=
    lx.map (·, true)
  if ch == '[' then commented (lx.openFlow .flowSequenceStart)
  else if ch == '{' then commented (lx.openFlow .flowMappingStart)
  else if ch == ']' then commented (lx.closeFlow .flowSequenceEnd)
  else if ch == '}' then commented (lx.closeFlow .flowMappingEnd)
  else if ch == ',' then
    let lx ← lx.dropKey
    return ({ (lx.add .flowEntry).skip with keyAllowed := true }, true)
  else if ch == '-' && isGap after then return (← lx.blockEntry, false)
  else if ch == '?' && (lx.inFlow || isGap after) then commented lx.explicitKey
  else if ch == ':' && (lx.inFlow || isGap after) then commented lx.valueMark
  else if ch == '*' || ch == '&' then
    let lx ← lx.saveKey
    let (name, c) ← anchorName lx.at_.skip
    return ({ lx.add (if ch == '*' then .alias name else .anchor name) with
      at_ := c, keyAllowed := false }, true)
  else if ch == '!' then
    let lx ← lx.saveKey
    let ((handle, suffix), c) ← tagParts lx.at_
    return ({ lx.add (.tag handle suffix) with at_ := c, keyAllowed := false }, true)
  else if (ch == '|' || ch == '>') && !lx.inFlow then
    let lx ← lx.dropKey
    let literal := ch == '|'
    let (text, c) ← readBlock lx.limit literal lx.indent lx.at_.skip
    return ({ lx.add (.scalar (String.ofList text) (if literal then .literal else .folded)) with
      at_ := c, keyAllowed := true }, false)
  else if ch == '\'' || ch == '"' then
    commented (lx.keyScalar (fun c => do
      let (acc, c) ← readQuoted (ch == '\'') lx.limit [] c.skip
      return (acc.reverse, false, c)) (if ch == '\'' then .single else .double))
  else if lx.startsPlain ch after then
    let lx ← lx.keyScalar (fun c => do
      let (acc, gap, c) ←
        readPlain lx.inFlow (lx.indent + 1) lx.limit [] (.blanks []) c
      return (acc.reverse, gap.isBreak, c)) .plain
    return (lx, !lx.keyAllowed)
  else throw {}

/-- Reads the next token or tokens. -/
def next (lx : Lexer) : Except Malformed Lexer := do
  let lx := toNextToken lx.limit lx
  lx.need 4
  let lx := lx.closeTo lx.at_.column
  let c := lx.at_
  match c.rest with
  | [] =>
      let lx := lx.closeTo (-1)
      let lx ← lx.dropKey
      return { lx.add .streamEnd with finished := true, keyAllowed := false }
  | ch :: _ =>
      if c.column == 0 && ch == '%' then
        let lx := lx.closeTo (-1)
        let lx ← lx.dropKey
        let lx ← directive { lx with keyAllowed := false }
        lx.need 0
        return lx
      else if c.atDocumentMark then
        let lx := lx.closeTo (-1)
        let lx ← lx.dropKey
        return { (lx.add (if ch == '-' then .documentStart else .documentEnd)).skip 3 with
          keyAllowed := false }
      else
        let (lx, commentAllowed) ← lx.content ch (c.peekAt 1)
        let lx := if commentAllowed then { lx with at_ := lx.at_.overLineComment } else lx
        lx.need 1
        return lx

/-- Reads tokens to the end, or to the first fault. -/
def run : (fuel : Nat) → Lexer → Array Token × Bool
  | 0, lx => (lx.tokens, false)
  | fuel + 1, lx =>
      if lx.finished then (lx.tokens, true)
      else
        match lx.next with
        | .ok lx => run fuel lx
        | .error _ => (lx.tokens, false)

end Lexer

/-- The tokens of a text, as far as it is well-formed. -/
structure TokenList where
  tokens : Array Token
  /-- The end of the text was reached without a fault. -/
  complete : Bool

/-- The tokens of a file. -/
def TokenList.ofInput (i : Input) : TokenList :=
  let (tokens, complete) :=
    Lexer.run (i.chars.length + 2)
      { at_ := { rest := i.chars }, limit := i.chars.length + 1, readable := i.readable }
  ⟨tokens, complete⟩

end WireSchema.Yaml
