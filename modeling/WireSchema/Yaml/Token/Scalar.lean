import WireSchema.Number.IntegerLiteral
import WireSchema.Yaml.Cursor
import WireSchema.Yaml.Token

/-!
# Scalars

The five ways to write a scalar.  Plain and quoted scalars fold a single line end to a space and
drop one of several; block scalars keep their lines or fold them, and treat the line ends after the
last line as their header says.
-/

namespace WireSchema.Yaml

/-- What stands between two pieces of a scalar: blanks, or line ends with the blanks around them
dropped. -/
inductive Gap where
  | blanks (cs : List Char)
  | breaks (first more : List Char)

namespace Gap

/-- Whether the gap goes over a line end. -/
def isBreak : Gap → Bool
  | .blanks _ => false
  | .breaks _ _ => true

/-- The value of a gap. -/
def fold : Gap → List Char
  | .blanks cs => cs
  | .breaks first more =>
      if first = ['\n'] then (if more.isEmpty then [' '] else more) else first ++ more

end Gap

/-- Reads blanks and line ends.  With a limit, a tab left of that column after a line end is
refused. -/
def readGap (tabLimit : Option Int) : (fuel : Nat) → Gap → Cursor → Except Malformed (Gap × Cursor)
  | 0, gap, c => .ok (gap, c)
  | fuel + 1, gap, c =>
      match c.peek with
      | none => .ok (gap, c)
      | some ch =>
          if isBlank ch then
            match gap with
            | .blanks cs => readGap tabLimit fuel (.blanks (cs ++ [ch])) (c.skip)
            | .breaks _ _ =>
                let misplaced :=
                  match tabLimit with
                  | some limit => ch == '\t' && decide ((c.column : Int) < limit)
                  | none => false
                if misplaced then .error {} else readGap tabLimit fuel gap (c.skip)
          else if isBreak ch then
            let (br, c) := c.lineBreak
            match gap with
            | .blanks _ => readGap tabLimit fuel (.breaks br []) c
            | .breaks first more => readGap tabLimit fuel (.breaks first (more ++ br)) c
          else .ok (gap, c)

/-! ## Plain scalars -/

/-- How many characters a piece of a plain scalar has: up to a blank, a line end, a colon before a
gap, or in flow context an indicator of it. -/
def plainRun (flow : Bool) : List Char → Nat
  | [] => 0
  | c :: rest =>
      if isGap (some c) then 0
      else if c == ':' && isGap rest.head? then 0
      else if flow && [',', '?', '[', ']', '{', '}'].contains c then 0
      else 1 + plainRun flow rest

/-- Reads the pieces of a plain scalar.  Gives its text in reverse, the gap after it and the
place. -/
def readPlain (flow : Bool) (indent : Int) :
    (fuel : Nat) → List Char → Gap → Cursor → Except Malformed (List Char × Gap × Cursor)
  | 0, acc, gap, c => .ok (acc, gap, c)
  | fuel + 1, acc, gap, c =>
      if c.atDocumentMark || c.peek == some '#' then .ok (acc, gap, c)
      else
        let n := plainRun flow c.rest
        let (acc, gap, c) :=
          if n = 0 then (acc, gap, c)
          else ((c.rest.take n).reverse ++ (gap.fold.reverse ++ acc), Gap.blanks [], c.skip n)
        match c.peek with
        | none => .ok (acc, gap, c)
        | some ch =>
            if isBlank ch || isBreak ch then
              match readGap (some indent) fuel gap c with
              | .error e => .error e
              | .ok (gap, c) =>
                  if !flow && decide ((c.column : Int) < indent) then .ok (acc, gap, c)
                  else readPlain flow indent fuel acc gap c
            else .ok (acc, gap, c)

/-! ## Quoted scalars -/

/-- The character of a one-letter escape. -/
def escapeLetter : Char → Option Char
  | '0' => some '\x00'
  | 'a' => some '\x07'
  | 'b' => some '\x08'
  | 't' => some '\t'
  | '\t' => some '\t'
  | 'n' => some '\n'
  | 'v' => some '\x0b'
  | 'f' => some '\x0c'
  | 'r' => some '\r'
  | 'e' => some '\x1b'
  | ' ' => some ' '
  | '"' => some '"'
  | '\'' => some '\''
  | '\\' => some '\\'
  | 'N' => some '\u0085'
  | '_' => some '\u00a0'
  | 'L' => some '\u2028'
  | 'P' => some '\u2029'
  | _ => none

/-- How many hexadecimal digits an escape takes. -/
def escapeWidth : Char → Option Nat
  | 'x' => some 2
  | 'u' => some 4
  | 'U' => some 8
  | _ => none

/-- The number written by hexadecimal digits. -/
def hexValue (cs : List Char) : Option Nat :=
  cs.foldlM (fun acc c =>
    match Number.digitValue c with
    | some d => if d < 16 then some (acc * 16 + d) else none
    | none => none) 0

/-- Why a piece of a quoted scalar ended. -/
inductive PieceEnd where
  | here
  | escapedBreak

/-- Reads a piece of a quoted scalar: up to a blank, a line end or the closing quote. -/
def readPiece (single : Bool) :
    (fuel : Nat) → List Char → Cursor → Except Malformed (List Char × PieceEnd × Cursor)
  | 0, acc, c => .ok (acc, .here, c)
  | fuel + 1, acc, c =>
      match c.rest with
      | [] => .ok (acc, .here, c)
      | ch :: rest =>
          if isGap (some ch) then .ok (acc, .here, c)
          else if single then
            if ch == '\'' then
              if rest.head? == some '\'' then readPiece single fuel ('\'' :: acc) (c.skip 2)
              else .ok (acc, .here, c)
            else readPiece single fuel (ch :: acc) c.skip
          else if ch == '"' then .ok (acc, .here, c)
          else if ch == '\\' then
            match rest with
            | [] => .error {}
            | e :: _ =>
                if isBreak e then .ok (acc, .escapedBreak, c.skip.lineBreak.2)
                else
                  match escapeLetter e, escapeWidth e with
                  | some v, _ => readPiece single fuel (v :: acc) (c.skip 2)
                  | none, some w =>
                      let c := c.skip 2
                      match (if (c.rest.take w).length = w then hexValue (c.rest.take w) else none)
                      with
                      | none => .error {}
                      | some n =>
                          if (0xd800 ≤ n ∧ n ≤ 0xdfff) ∨ 0x10ffff < n then .error {}
                          else readPiece single fuel (Char.ofNat n :: acc) (c.skip w)
                  | none, none => .error {}
          else readPiece single fuel (ch :: acc) c.skip

/-- Reads a quoted scalar after its opening quote.  Gives its text in reverse. -/
def readQuoted (single : Bool) :
    (fuel : Nat) → List Char → Cursor → Except Malformed (List Char × Cursor)
  | 0, _, _ => .error {}
  | fuel + 1, acc, c =>
      if c.atDocumentMark || c.rest.isEmpty then .error {}
      else
        match readPiece single (fuel + 1) acc c with
        | .error e => .error e
        | .ok (acc, pieceEnd, c) =>
            if c.peek == some (if single then '\'' else '"') then .ok (acc, c.skip)
            else
              let start :=
                match pieceEnd with
                | .here => Gap.blanks []
                | .escapedBreak => Gap.breaks [] []
              match readGap none (fuel + 1) start c with
              | .error e => .error e
              | .ok (gap, c) => readQuoted single fuel (gap.fold.reverse ++ acc) c

/-! ## Block scalars -/

/-- The header of a block scalar: an indentation if it gives one, and what to do with the line ends
at the end: `-1` drops them, `1` keeps them, `0` keeps one. -/
structure BlockHeader where
  increment : Nat := 0
  chomp : Int := 0

/-- Reads the two optional signs of a header, in either order. -/
def readBlockHeader (c : Cursor) : Except Malformed (BlockHeader × Cursor) :=
  let chompOf (ch : Char) : Option Int :=
    if ch == '+' then some 1 else if ch == '-' then some (-1) else none
  match c.peek with
  | none => .ok ({}, c)
  | some ch =>
      match chompOf ch with
      | some chomp =>
          match (c.peekAt 1) with
          | some d =>
              if d.isDigit then
                if d == '0' then .error {} else .ok (⟨d.toNat - 48, chomp⟩, c.skip 2)
              else .ok (⟨0, chomp⟩, c.skip)
          | none => .ok (⟨0, chomp⟩, c.skip)
      | none =>
          if ch.isDigit then
            if ch == '0' then .error {}
            else
              match (c.peekAt 1).bind chompOf with
              | some chomp => .ok (⟨ch.toNat - 48, chomp⟩, c.skip 2)
              | none => .ok (⟨ch.toNat - 48, 0⟩, c.skip)
          else .ok ({}, c)

/-- Reads indentation and empty lines.  An indentation of zero is not known yet and is returned as
the widest seen. -/
def readBlockBreaks (indent : Nat) :
    (fuel : Nat) → (widest : Nat) → List Char → Cursor →
      Except Malformed (Nat × List Char × Cursor)
  | 0, widest, breaks, c => .ok (widest, breaks, c)
  | fuel + 1, widest, breaks, c =>
      let spaces := (c.rest.takeWhile (· == ' ')).length
      let c := c.skip (if indent = 0 then spaces else min spaces (indent - c.column))
      let widest := max widest c.column
      if (indent = 0 ∨ c.column < indent) && c.peek == some '\t' then .error {}
      else
        match c.peek with
        | some ch =>
            if isBreak ch then
              let (br, c) := c.lineBreak
              readBlockBreaks indent fuel widest (breaks ++ br) c
            else .ok (widest, breaks, c)
        | none => .ok (widest, breaks, c)

/-- Reads the lines of a block scalar.  `lead` is the line end after the line read last, `breaks`
the empty lines after it.  Gives the text in reverse, the last line end and the empty lines. -/
def readBlockLines (literal : Bool) (indent : Nat) :
    (fuel : Nat) → List Char → (lead breaks : List Char) → (leadBlank : Bool) → Cursor →
      Except Malformed (List Char × List Char × List Char × Cursor)
  | 0, acc, lead, breaks, _, c => .ok (acc, lead, breaks, c)
  | fuel + 1, acc, lead, breaks, leadBlank, c =>
      if c.column = indent && !c.rest.isEmpty then
        let blank := (c.peek.map isBlank).getD false
        let join :=
          if !literal && !leadBlank && !blank && lead == ['\n'] then
            (if breaks.isEmpty then [' '] else [])
          else lead
        let (line, c) := c.takeWhile fun ch => !isBreak ch
        let acc := line.reverse ++ (breaks.reverse ++ (join.reverse ++ acc))
        let (lead, c) := c.lineBreak
        match readBlockBreaks indent (fuel + 1) 0 [] c with
        | .error e => .error e
        | .ok (_, breaks, c) => readBlockLines literal indent fuel acc lead breaks blank c
      else .ok (acc, lead, breaks, c)

/-- Reads a block scalar after its indicator, inside a block of the given indentation.  The fuel is
at least one more than the characters left. -/
def readBlock (fuel : Nat) (literal : Bool) (blockIndent : Int) (c : Cursor) :
    Except Malformed (List Char × Cursor) := do
  let (header, c) ← readBlockHeader c
  let (_, c) := c.takeWhile isBlank
  let c := if c.peek == some '#' then c.skipLineText else c
  if !isLineEnd c.peek then throw {}
  let (_, c) := c.lineBreak
  let given :=
    if header.increment = 0 then 0
    else if 0 ≤ blockIndent then blockIndent.toNat + header.increment
    else header.increment
  let (widest, breaks, c) ← readBlockBreaks given fuel 0 [] c
  let indent := if given = 0 then max (max widest (blockIndent + 1).toNat) 1 else given
  let (acc, lead, breaks, c) ←
    readBlockLines literal indent fuel [] [] breaks false c
  let text := acc.reverse
  let text := if header.chomp = -1 then text else text ++ lead
  let text := if header.chomp = 1 then text ++ breaks else text
  return (text, c)

end WireSchema.Yaml
