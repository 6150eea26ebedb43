/-!
# Reading positions

A cursor is the unread rest of a text with the line and column it starts at.  Lines end at a line
feed, a carriage return, both together, or one of the three Unicode line separators; all but the
last two count as a line feed in the value of a scalar.
-/

namespace WireSchema.Yaml

/-- A place in a text. -/
structure Cursor where
  rest : List Char
  line : Nat := 0
  column : Nat := 0
  /-- Characters before this place. -/
  index : Nat := 0

/-- A space or tab. -/
def isBlank (c : Char) : Bool := c == ' ' || c == '\t'

/-- A character that ends a line. -/
def isBreak (c : Char) : Bool :=
  c == '\n' || c == '\r' || c == '\u0085' || c == '\u2028' || c == '\u2029'

/-- Nothing, a blank or a line end. -/
def isGap : Option Char → Bool
  | none => true
  | some c => isBlank c || isBreak c

/-- Nothing or a line end. -/
def isLineEnd : Option Char → Bool
  | none => true
  | some c => isBreak c

/-- A character that may occur in a document at all. -/
def isAllowed (c : Char) : Bool :=
  let n := c.toNat
  n == 0x09 || n == 0x0a || n == 0x0d || decide (0x20 ≤ n ∧ n ≤ 0x7e) || n == 0x85 ||
    decide (0xa0 ≤ n ∧ n ≤ 0xfffd) || decide (0x10000 ≤ n)

namespace Cursor

/-- The character at the cursor. -/
def peek (c : Cursor) : Option Char := c.rest.head?

/-- The character `n` places ahead. -/
def peekAt (c : Cursor) (n : Nat) : Option Char := c.rest[n]?

/-- Moves over `n` characters within a line. -/
def skip (c : Cursor) (n : Nat := 1) : Cursor :=
  { c with rest := c.rest.drop n, column := c.column + n, index := c.index + n }

/-- Moves over a line end, if there is one, and gives its value. -/
def lineBreak (c : Cursor) : List Char × Cursor :=
  let next (n : Nat) : Cursor :=
    { rest := c.rest.drop n, line := c.line + 1, column := 0, index := c.index + n }
  match c.rest with
  | '\r' :: '\n' :: _ => (['\n'], next 2)
  | ch :: _ =>
      if ch == '\n' || ch == '\r' || ch == '\u0085' then (['\n'], next 1)
      else if isBreak ch then ([ch], next 1)
      else ([], c)
  | [] => ([], c)

/-- The characters up to the first that fails `p`, and the cursor there.  `p` fails at line ends. -/
def takeWhile (c : Cursor) (p : Char → Bool) : List Char × Cursor :=
  let run := c.rest.takeWhile p
  (run, c.skip run.length)

/-- Moves to the end of the line. -/
def skipLineText (c : Cursor) : Cursor := (c.takeWhile fun ch => !isBreak ch).2

/-- Moves over blanks, line feeds and carriage returns. -/
def overGap : (fuel : Nat) → Cursor → Cursor
  | 0, c => c
  | fuel + 1, c =>
      match c.peek with
      | some ch =>
          if isBlank ch then overGap fuel c.skip
          else if ch == '\n' || ch == '\r' then overGap fuel c.lineBreak.2
          else c
      | none => c

/-- How far ahead of a line end or a token a comment is looked for. -/
def commentReach : Nat := 512

/-- Moves over a comment to the end of its line, and over the comments of the lines after it.  Those
lines may be indented by anything, and empty ones may stand between them. -/
def overComments : (fuel : Nat) → Cursor → Cursor
  | 0, c => c
  | fuel + 1, c =>
      let c := c.skipLineText
      match c.peek with
      | some ch =>
          let next := overGap commentReach c
          if (ch == '\n' || ch == '\r') && next.peek == some '#' &&
              decide (next.index < c.index + commentReach) then
            overComments fuel next
          else c
      | none => c

/-- Moves over a comment on the same line, if there is one. -/
def overLineComment (c : Cursor) : Cursor :=
  let (blanks, next) := c.takeWhile isBlank
  if decide (blanks.length < commentReach) && next.peek == some '#' then next.skipLineText else c

/-- Whether one of the marks `---` and `...` stands here, alone at the start of a line. -/
def atDocumentMark (c : Cursor) : Bool :=
  c.column == 0 &&
    match c.rest with
    | '-' :: '-' :: '-' :: rest => isGap rest.head?
    | '.' :: '.' :: '.' :: rest => isGap rest.head?
    | _ => false

end Cursor

end WireSchema.Yaml
