import WireSchema.Text.Blank
import WireSchema.Text.Quoted
import WireSchema.Yaml.Cursor
import WireSchema.Yaml.Node

/-!
# Writing documents

Records and lists are written in block style, indented by multiples of four; the content of a list
item starts two columns after its dash.  A text is written plain if it reads back as that text; over
several lines it becomes a literal block, and otherwise it is quoted.
-/

namespace WireSchema.Yaml

/-- A value to be written. -/
inductive Tree where
  | text (s : String)
  | int (i : Int)
  | bool (b : Bool)
  | list (items : List Tree)
  | record (fields : List (String × Tree))

/-- A character that can be written as it is. -/
def isShowable (c : Char) : Bool :=
  let n := c.toNat
  n == 0x0a || decide (0x20 ≤ n ∧ n ≤ 0x7e) ||
    (decide (0xa0 ≤ n ∧ n ≤ 0xfffd) && n != 0xfeff)

/-- A word that other readers may take for a boolean. -/
def isOldBool (s : String) : Bool :=
  ["y", "Y", "yes", "Yes", "YES", "on", "On", "ON",
    "n", "N", "no", "No", "NO", "off", "Off", "OFF"].contains s

/-- The part of a sexagesimal number after its first digits: groups of a colon and a number below
sixty, then perhaps a point and digits. -/
def isSexagesimalTail : (groups : Nat) → List Char → Bool
  | groups, ':' :: a :: b :: rest =>
      if a.isDigit && decide (a ≤ '5') && b.isDigit then isSexagesimalTail (groups + 1) rest
      else if a.isDigit then isSexagesimalTail (groups + 1) (b :: rest)
      else false
  | _, [':', a] => a.isDigit
  | groups, '.' :: rest => decide (0 < groups) && rest.all fun c => c.isDigit || c == '_'
  | groups, [] => decide (0 < groups)
  | _, _ => false

/-- A number in base sixty, which other readers may take for one. -/
def isSexagesimal (s : String) : Bool :=
  let body :=
    match s.toList with
    | '+' :: rest => rest
    | '-' :: rest => rest
    | rest => rest
  match body with
  | c :: rest =>
      c.isDigit && isSexagesimalTail 0 (rest.dropWhile fun d => d.isDigit || d == '_')
  | [] => false

/-- What a text holds that limits how it can be written. -/
structure Traits where
  indicators : Bool := false
  breaks : Bool := false
  special : Bool := false
  tabs : Bool := false
  leadingGap : Bool := false
  trailingSpace : Bool := false
  trailingBreak : Bool := false
  breakSpace : Bool := false
  spaceBreak : Bool := false

/-- What stood before a character. -/
structure Seen where
  first : Bool := true
  gap : Bool := true
  space : Bool := false
  lineBreak : Bool := false

/-- Goes through the characters of a text. -/
def traitsFrom : Seen → Traits → List Char → Traits
  | _, t, [] => t
  | seen, t, c :: rest =>
      let followed := match rest.head? with
        | none => true
        | some d => isBlank d
      let indicator :=
        if seen.first then
          [ '#', ',', '[', ']', '{', '}', '&', '*', '!', '|', '>', '\'', '"', '%', '@',
            '`' ].contains c
            || ((c == '?' || c == ':' || c == '-') && followed)
        else (c == ':' && followed) || (c == '#' && seen.gap)
      let last := rest.isEmpty
      let isSpace := c == ' '
      let br := isBreak c
      let t : Traits :=
        { indicators := t.indicators || indicator
          breaks := t.breaks || br
          special := t.special || (c != '\t' && !isShowable c)
          tabs := t.tabs || c == '\t'
          leadingGap := t.leadingGap || (seen.first && (isSpace || br))
          trailingSpace := t.trailingSpace || (last && isSpace)
          trailingBreak := t.trailingBreak || (last && br)
          breakSpace := t.breakSpace || (isSpace && seen.lineBreak)
          spaceBreak := t.spaceBreak || (br && seen.space) }
      traitsFrom
        { first := false, gap := isGap (some c), space := isSpace, lineBreak := br } t rest

/-- The traits of a text. -/
def traits (cs : List Char) : Traits :=
  let marks := (['-', '-', '-'].isPrefixOf cs) || (['.', '.', '.'].isPrefixOf cs)
  traitsFrom {} { indicators := marks } cs

/-- The style a text is written in. -/
def styleOf (s : String) : Style :=
  let t := traits s.toList
  let plainReads :=
    match Value.ofPlain s with
    | .text _ => !isSexagesimal s && !isOldBool s
    | _ => false
  if s.toList.contains '\n' then
    if t.trailingSpace || t.spaceBreak || t.special then .double else .literal
  else if plainReads then
    if t.indicators || t.breaks || t.special || t.tabs || t.leadingGap || t.trailingSpace ||
        t.trailingBreak then
      if t.special || t.tabs || t.breakSpace || t.spaceBreak then .double else .single
    else .plain
  else .double

/-- The letter of an escape in double quotes. -/
def escapeOf (c : Char) : List Char :=
  let letter : Option Char :=
    match c.toNat with
    | 0x00 => some '0'
    | 0x07 => some 'a'
    | 0x08 => some 'b'
    | 0x09 => some 't'
    | 0x0a => some 'n'
    | 0x0b => some 'v'
    | 0x0c => some 'f'
    | 0x0d => some 'r'
    | 0x1b => some 'e'
    | 0x22 => some '"'
    | 0x5c => some '\\'
    | 0x85 => some 'N'
    | 0xa0 => some '_'
    | 0x2028 => some 'L'
    | 0x2029 => some 'P'
    | _ => none
  let upper (cs : List Char) : List Char := cs.map Char.toUpper
  match letter with
  | some l => ['\\', l]
  | none =>
      let n := c.toNat
      if n ≤ 0xff then '\\' :: 'x' :: upper (Text.hexDigits 2 n)
      else if n ≤ 0xffff then '\\' :: 'u' :: upper (Text.hexDigits 4 n)
      else '\\' :: 'U' :: upper (Text.hexDigits 8 n)

/-- A character between double quotes. -/
def doubleQuotedChar (c : Char) : List Char :=
  if !isShowable c || c == '\ufeff' || isBreak c || c == '"' || c == '\\' then escapeOf c else [c]

/-- `n` spaces. -/
def spaces (n : Nat) : String := String.ofList (List.replicate n ' ')

/-- The header of a literal block: an indentation if the text starts with a gap, and a sign if it
does not end in exactly one line end. -/
def literalHeader (cs : List Char) : String :=
  let hint := match cs.head? with
    | some c => if c == ' ' || isBreak c then "4" else ""
    | none => ""
  let chomp := match cs.reverse with
    | [] => "-"
    | [c] => if isBreak c then "+" else "-"
    | c :: d :: _ => if !isBreak c then "-" else if isBreak d then "+" else ""
  "|" ++ hint ++ chomp

/-- Characters with an indentation after every run of line ends; `fresh` says that one stands
before them. -/
def indented (indent : Nat) : (fresh : Bool) → List Char → List Char
  | _, [] => []
  | fresh, c :: cs =>
      if isBreak c then c :: indented indent true cs
      else (if fresh then List.replicate indent ' ' else []) ++ c :: indented indent false cs

/-- The content of a literal block; empty lines are not indented.  A line end at its start also ends
the line of the header. -/
def literalBody (indent : Nat) (cs : List Char) : String :=
  let isEnd (c : Option Char) : Bool := (c.map isBreak).getD false
  (if isEnd cs.head? then "" else "\n") ++ String.ofList (indented indent true cs) ++
    if isEnd cs.getLast? then "" else "\n"

/-- A text in its style, with the line end after it. -/
def scalarText (indent : Nat) (s : String) : String :=
  let cs := s.toList
  match styleOf s with
  | .plain => s ++ "\n"
  | .single =>
      let doubled := (indented indent false cs).flatMap fun c =>
        if c == '\'' then ['\'', '\''] else [c]
      String.ofList ('\'' :: doubled ++ ['\'']) ++ "\n"
  | .literal => literalHeader cs ++ literalBody indent cs
  | _ => String.ofList ('"' :: cs.flatMap doubleQuotedChar ++ ['"']) ++ "\n"

/-- The next indentation to the right. -/
def deeper (indent : Nat) : Nat := 4 * ((indent + 4) / 4)

mutual

/-- A value after its key and colon, in a block of the given indentation. -/
def Tree.afterKey (indent : Nat) : Tree → String
  | .text s => " " ++ scalarText (deeper indent) s
  | .int i => " " ++ toString i ++ "\n"
  | .bool b => " " ++ toString b ++ "\n"
  | .list [] => " []\n"
  | .list items => "\n" ++ itemLines (deeper indent) items
  | .record [] => " {}\n"
  | .record fields => "\n" ++ fieldLines (deeper indent) false fields

/-- A value after the dash of a list item at the given indentation. -/
def Tree.afterDash (indent : Nat) : Tree → String
  | .text s => scalarText (indent + 2) s
  | .int i => toString i ++ "\n"
  | .bool b => toString b ++ "\n"
  | .list [] => "[]\n"
  | .list items => itemLines (indent + 2) items
  | .record [] => "{}\n"
  | .record fields => fieldLines (indent + 2) true fields

/-- The items of a list. -/
def itemLines (indent : Nat) : List Tree → String
  | [] => ""
  | item :: rest => spaces indent ++ "- " ++ item.afterDash indent ++ itemLines indent rest

/-- The fields of a record; the first may stand on a line that is already indented. -/
def fieldLines (indent : Nat) (inline : Bool) : List (String × Tree) → String
  | [] => ""
  | (key, value) :: rest =>
      (if inline then "" else spaces indent) ++ key ++ ":" ++ value.afterKey indent ++
        fieldLines indent false rest

end

/-- A document. -/
def Tree.render : Tree → String
  | .record [] => "{}\n"
  | .record fields => fieldLines 0 false fields
  | .list [] => "[]\n"
  | .list items => itemLines 0 items
  | t => t.afterDash 0

end WireSchema.Yaml
