import WireSchema.Text.Blank
import WireSchema.Text.Case
import WireSchema.Text.Letter

/-!
# Documentation comments

The comment above a declaration is text in blocks with one blank line between neighbours.  A block
of one line can be a heading: it starts with a number sign, or it stands between two other blocks
and looks like a title.  Doubled quotes become typographic ones, but not inside an address.
Definitions of links move to the end, the ones that are used before the others.
-/

namespace WireSchema.Emit.DocComment

/-- A definition of a link. -/
structure Link where
  text : String
  url : String
  deriving DecidableEq, Repr

/-- A block of a comment. -/
inductive Block where
  | heading (text : String)
  | paragraph (lines : List String)
  | links (defs : List Link)
  deriving DecidableEq, Repr

/-- The runs of lines between blank ones. -/
def runs : List String → List String → List (List String)
  | [], [] => []
  | current, [] => [current.reverse]
  | current, l :: rest =>
      if l.isEmpty then
        if current.isEmpty then runs [] rest else current.reverse :: runs [] rest
      else runs (l :: current) rest

/-- The schemes a link can have. -/
def schemes : List String := ["file", "ftp", "gopher", "http", "https", "mailto", "nntp"]

/-- The characters before the first occurrence of a text, and those from it on. -/
def splitAtRun (needle : List Char) : List Char → Option (List Char × List Char)
  | [] => none
  | c :: cs =>
      if needle.isPrefixOf (c :: cs) then some ([], c :: cs)
      else (splitAtRun needle cs).map fun (a, b) => (c :: a, b)

/-- A line that defines a link. -/
def link? (line : String) : Option Link := do
  let '[' :: body := line.toList | none
  let (text, rest) ← splitAtRun "]:".toList body
  let gap :: more := rest.drop 2 | none
  if more.isEmpty || (gap != ' ' && gap != '\t') then none
  else
    let url := Text.trim (String.ofList more)
    let (scheme, _) ← splitAtRun "://".toList url.toList
    if schemes.contains (String.ofList scheme) then some ⟨String.ofList text, url⟩ else none

/-- A line marked as a heading. -/
def isMarkedHeading (line : String) : Bool :=
  match line.toList with
  | '#' :: c :: rest => (c == ' ' || c == '\t') && !rest.all Text.isBlank
  | _ => false

/-- Every apostrophe begins the end `'s` of a word. -/
def apostrophesFit : List Char → Bool
  | [] => true
  | '\'' :: rest =>
      (match rest with
        | ['s'] => true
        | 's' :: ' ' :: _ => true
        | _ => false) && apostrophesFit rest
  | _ :: rest => apostrophesFit rest

/-- Every point stands inside a word. -/
def pointsFit : List Char → Bool
  | [] => true
  | '.' :: rest =>
      (match rest with
        | [] => false
        | c :: _ => c != ' ') && pointsFit rest
  | _ :: rest => pointsFit rest

/-- A line that looks like a title. -/
def isTitle (line : String) : Bool :=
  let cs := line.toList
  match cs.head?, cs.getLast? with
  | some first, some last =>
      Text.isLetter first && Text.isUpper first &&
        (Text.isLetter last || Text.isDecimalDigit last) &&
        !cs.any ";:!?+*/=[]\x7b\x7d_^°&§~%#@<\">\\".toList.contains &&
        apostrophesFit cs && pointsFit cs
  | _, _ => false

/-- The block of a run; `inner` says that other runs stand before and after it. -/
def blockOf (inner : Bool) (run : List String) : Block :=
  match run with
  | [line] =>
      if isMarkedHeading line then .heading (Text.trim (String.ofList (line.toList.drop 1)))
      else if inner && isTitle line then .heading line
      else
        match link? line with
        | some l => .links [l]
        | none => .paragraph run
  | run =>
      match run.mapM link? with
      | some defs => .links defs
      | none => .paragraph run

/-- The blocks of a comment. -/
def blocks (lines : List String) : List Block :=
  let rs := runs [] lines
  rs.mapIdx fun i r => blockOf (decide (0 < i ∧ i + 1 < rs.length)) r

/-- Punctuation, which can stand inside an address and not at its end. -/
def isPunctuation (c : Char) : Bool := ".,:;?!".toList.contains c

/-- A character of the host of an address. -/
def isHostChar (c : Char) : Bool := c.isAlphanum || "_@-.[]:".toList.contains c

/-- A character of the path of an address. -/
def isPathChar (c : Char) : Bool := c.isAlphanum || "$'()*+&#=@~_/-[]\x7b\x7d%".toList.contains c

/-- The bracket that closes an opening one. -/
def closing? : Char → Option Char
  | '(' => some ')'
  | '[' => some ']'
  | '\x7b' => some '\x7d'
  | _ => none

/-- A bracket that closes. -/
def isClosing (c : Char) : Bool := ")]\x7d".toList.contains c

/-- The length of a host: its characters up to the last that is no punctuation.  `seen` counts the
characters so far and `best` those up to that one. -/
def hostLength (seen best : Nat) : List Char → Nat
  | [] => best
  | c :: cs =>
      if isHostChar c then hostLength (seen + 1) (if isPunctuation c then best else seen + 1) cs
      else best

/-- The length of a path: it ends neither in punctuation nor inside brackets; `due` holds the
brackets still to be closed. -/
def pathLength (due : List Char) (seen best : Nat) : List Char → Nat
  | [] => best
  | c :: cs =>
      if isPunctuation c then pathLength due (seen + 1) best cs
      else if !isPathChar c then best
      else
        match closing? c with
        | some d => pathLength (d :: due) (seen + 1) best cs
        | none =>
            if isClosing c then
              match due with
              | [] => best
              | d :: rest =>
                  if d ≠ c then best
                  else
                    pathLength rest (seen + 1) (if rest.isEmpty then seen + 1 else best) cs
            else pathLength due (seen + 1) (if due.isEmpty then seen + 1 else best) cs

/-- The length of the address at the front, or zero. -/
def addressLength (cs : List Char) : Nat :=
  match schemes.find? fun s => (s ++ "://").toList.isPrefixOf cs with
  | none => 0
  | some s =>
      let start := s.length + 3
      let host := hostLength 0 0 (cs.drop start)
      match cs.drop start with
      | [] => 0
      | c :: _ =>
          if isHostChar c && !isPunctuation c then
            start + host + pathLength [] 0 0 (cs.drop (start + host))
          else 0

/-- The length of the word at the front, or zero: letters and underscores, then digits too. -/
def wordLength : List Char → Nat
  | [] => 0
  | c :: cs =>
      let isStart (c : Char) : Bool := Text.isLetter c || c == '_'
      if isStart c then 1 + (cs.takeWhile fun d => isStart d || d.isDigit).length else 0

/-- The size of a text in bytes. -/
def byteSize (cs : List Char) : Nat := cs.foldl (fun n c => n + c.utf8Size) 0

/-- The text from a byte on, empty if a character spans it. -/
def fromByte : Nat → List Char → List Char
  | 0, cs => cs
  | _, [] => []
  | n, c :: cs => if c.utf8Size ≤ n then fromByte (n - c.utf8Size) cs else []

/-- How many bytes are copied at the front of `cs`, which starts at the byte `start` of `whole`: an
address, a word, or three backquotes.  Three backquotes take along as many bytes as there are
backquotes from the byte `2 * start + 3` on: at the front of a text, the others of their run. -/
def copied (addresses : Bool) (whole : List Char) (start : Nat) (cs : List Char) : Nat :=
  let address := if addresses then addressLength cs else 0
  let word := if addresses then wordLength cs else 0
  if address ≠ 0 then byteSize (cs.take address)
  else if word ≠ 0 then byteSize (cs.take word)
  else if "```".toList.isPrefixOf cs then
    3 + ((fromByte (2 * start + 3) whole).takeWhile (· == '`')).length
  else 0

/-- Doubled quotes as typographic ones, from the byte `start` of `whole` on; the next `keep` bytes
are copied. -/
def curlQuotes (addresses : Bool) (whole : List Char) :
    (start keep : Nat) → List Char → List Char
  | _, _, [] => []
  | start, keep, c :: cs =>
      let keep := if keep = 0 then copied addresses whole start (c :: cs) else keep
      if keep ≠ 0 then
        c :: curlQuotes addresses whole (start + c.utf8Size) (keep - c.utf8Size) cs
      else
        match c, cs with
        | '`', '`' :: rest => '“' :: curlQuotes addresses whole (start + 2) 0 rest
        | '\'', '\'' :: rest => '”' :: curlQuotes addresses whole (start + 2) 0 rest
        | c, cs => c :: curlQuotes addresses whole (start + c.utf8Size) 0 cs

/-- A piece of a paragraph. -/
inductive Piece where
  | plain (text : List Char)
  /-- A text in brackets that names a link; in the name, line ends and tabs are blanks. -/
  | reference (name : String) (text : List Char)
  deriving DecidableEq, Repr

/-- The pieces of a paragraph in which the names `known` are links.  `before` is the plain text so
far, and `inside` the text and the name since the last opening bracket, all reversed.  A bracket
that opens again starts the text anew and keeps the name. -/
def pieces (known : List String) :
    (before : List Char) → (inside : Option (List Char × List Char)) → List Char → List Piece
  | before, none, [] => [.plain before.reverse]
  | before, some (text, _), [] => [.plain (text ++ '[' :: before).reverse]
  | before, none, c :: cs =>
      if c == '[' then pieces known before (some ([], [])) cs
      else pieces known (c :: before) none cs
  | before, some (text, name), c :: cs =>
      if c == ']' then
        if known.contains (String.ofList name.reverse) then
          .plain before.reverse :: .reference (String.ofList name.reverse) text.reverse ::
            pieces known [] none cs
        else pieces known (']' :: text ++ '[' :: before) none cs
      else if c == '[' then pieces known (text ++ '[' :: before) (some ([], name)) cs
      else
        pieces known before
          (some (c :: text, (if c == '\n' || c == '\t' then ' ' else c) :: name)) cs

namespace Piece

/-- The characters of a piece in their final form. -/
def chars : Piece → List Char
  | .plain t => curlQuotes true t 0 0 t
  | .reference _ t => '[' :: curlQuotes false t 0 0 t ++ [']']

/-- The link a piece names. -/
def name? : Piece → Option String
  | .plain _ => none
  | .reference n _ => some n

end Piece

/-- The pieces of a block. -/
def Block.pieces (known : List String) : Block → List Piece
  | .paragraph ls => DocComment.pieces known [] none (Text.joinWith "\n" ls).toList
  | _ => []

/-- The lines of a block. -/
def Block.lines (known : List String) : Block → List String
  | .heading t => ["# " ++ t]
  | .links _ => []
  | b => Text.lines (String.ofList ((b.pieces known).flatMap Piece.chars))

/-- Definitions with the mark that one is used: it is the first of its name, and the name is
mentioned. -/
def withUse (mentioned : List String) : (seen : List String) → List Link → List (Link × Bool)
  | _, [] => []
  | seen, d :: ds =>
      (d, mentioned.contains d.text && !seen.contains d.text) ::
        withUse mentioned (d.text :: seen) ds

/-- Blocks of lines with a blank line between neighbours. -/
def joinBlocks : List (List String) → List String
  | [] => []
  | [b] => b
  | b :: rest => b ++ "" :: joinBlocks rest

/-- The lines of definitions, after a blank line. -/
def linkLines (ds : List Link) : List String :=
  if ds.isEmpty then [] else "" :: ds.map fun d => "[" ++ d.text ++ "]: " ++ d.url

/-- The lines of a comment in their final form. -/
def format (lines : List String) : List String :=
  let bs := blocks lines
  let content := bs.filter fun
    | .links _ => false
    | _ => true
  let defs := bs.flatMap fun
    | .links ds => ds
    | _ => []
  let known := defs.map (·.text)
  let mentioned := (content.flatMap (Block.pieces known)).filterMap Piece.name?
  let marked := withUse mentioned [] defs
  joinBlocks (content.map (Block.lines known)) ++
    linkLines ((marked.filter (·.2)).map (·.1)) ++
    linkLines ((marked.filter fun d => !d.2).map (·.1))

end WireSchema.Emit.DocComment
