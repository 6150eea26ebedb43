import WireSchema.Number.FloatLiteral
import WireSchema.Yaml.Token

/-!
# Document trees

A document is a tree of scalars, sequences and mappings; aliases point to anchored nodes by number.
A scalar written without quotes has the type its text suggests: null, boolean, integer, floating
point, date, or text if nothing else fits.
-/

namespace WireSchema.Yaml

/-- A node of a document. -/
inductive Node where
  | scalar (line : Nat) (tag : String) (style : Style) (text : String)
  | sequence (line : Nat) (tag : String) (items : List Node)
  | mapping (line : Nat) (tag : String) (entries : List (Node × Node))
  /-- The node anchored under a number. -/
  | alias (line : Nat) (name : String) (target : Nat)

/-- A document with its anchored nodes. -/
structure Document where
  root : Node
  anchors : Array Node
  /-- No path through the tree has more nodes. -/
  depth : Nat

namespace Tag

def null : String := "!!null"
def bool : String := "!!bool"
def str : String := "!!str"
def int : String := "!!int"
def float : String := "!!float"
def timestamp : String := "!!timestamp"
def seq : String := "!!seq"
def map : String := "!!map"
def binary : String := "!!binary"
def merge : String := "!!merge"

/-- The tags that ask for a type other than text. -/
def typed : List String := [null, bool, int, float, timestamp]

/-- The beginning of a standard tag in full. -/
def standardLead : String := "tag:yaml.org,2002:"

/-- A tag with the standard beginning cut down to two exclamation marks. -/
def short (tag : String) : String :=
  if standardLead.toList.isPrefixOf tag.toList then
    "!!" ++ String.ofList (tag.toList.drop standardLead.length)
  else tag

end Tag

/-- The value of a scalar, as far as its type decides what it is. -/
inductive Value where
  | null
  | bool (b : Bool)
  | int (i : Int)
  /-- A double, by pattern. -/
  | float (bits : Nat)
  | timestamp
  | text (s : String)
  deriving DecidableEq, Repr

namespace Value

/-- The tag of a value's type. -/
def tag : Value → String
  | .null => Tag.null
  | .bool _ => Tag.bool
  | .int _ => Tag.int
  | .float _ => Tag.float
  | .timestamp => Tag.timestamp
  | .text _ => Tag.str

/-- The words with a meaning of their own. -/
def word? (s : String) : Option Value :=
  let f := Number.Format.double
  if ["", "~", "null", "Null", "NULL"].contains s then some .null
  else if ["true", "True", "TRUE"].contains s then some (.bool true)
  else if ["false", "False", "FALSE"].contains s then some (.bool false)
  else if [".nan", ".NaN", ".NAN"].contains s then some (.float (f.infinity + 0x8000000000000))
  else if [".inf", ".Inf", ".INF", "+.inf", "+.Inf", "+.INF"].contains s then
    some (.float f.infinity)
  else if ["-.inf", "-.Inf", "-.INF"].contains s then some (.float (f.withSign true f.infinity))
  else none

/-- Digits, at most a point, and an exponent: the shape of a decimal number. -/
def isDecimal (cs : List Char) : Bool :=
  let body :=
    match cs with
    | '+' :: rest => rest
    | '-' :: rest => rest
    | rest => rest
  let whole := body.takeWhile Char.isDigit
  let rest := body.dropWhile Char.isDigit
  let (ok, rest) :=
    match rest with
    | '.' :: frac =>
        let digits := frac.takeWhile Char.isDigit
        (!whole.isEmpty || !digits.isEmpty, frac.dropWhile Char.isDigit)
    | rest => (!whole.isEmpty, rest)
  let exponent : Bool :=
    match rest with
    | [] => true
    | e :: tail =>
        let digits :=
          match tail with
          | '+' :: ds => ds
          | '-' :: ds => ds
          | ds => ds
        (e == 'e' || e == 'E') && !digits.isEmpty && digits.all Char.isDigit
  ok && exponent

/-- A double of that text. -/
def double? (cs : List Char) : Option Value :=
  (Number.parseFloat .double cs).toOption.map .float

/-- An integer in a base, with an optional sign, that fits into 64 bits. -/
def based? (base : Nat) (cs : List Char) : Option Value :=
  let read (limit : Nat) (ds : List Char) : Option Nat :=
    if ds.isEmpty || ds.contains '_' then none
    else (Number.readDigits base limit 0 ds).toOption
  match cs with
  | '-' :: ds => (read (0x8000000000000000 + 1) ds).map fun n => .int (-n)
  | '+' :: ds => (read (0x8000000000000000) ds).map fun n => .int n
  | ds => (read (0x10000000000000000) ds).map fun n => .int n

/-- Up to two digits and the rest. -/
def shortNumber (cs : List Char) : Option (Nat × List Char) :=
  match cs with
  | a :: b :: rest =>
      if a.isDigit then
        if b.isDigit then some ((a.toNat - 48) * 10 + (b.toNat - 48), rest)
        else some (a.toNat - 48, b :: rest)
      else none
  | [a] => if a.isDigit then some (a.toNat - 48, []) else none
  | [] => none

/-- How many days a month has. -/
def daysIn (year month : Nat) : Nat :=
  if month = 2 then
    if (year % 4 = 0 ∧ year % 100 ≠ 0) ∨ year % 400 = 0 then 29 else 28
  else if [4, 6, 9, 11].contains month then 30
  else 31

/-- A time of day with optional fractions of a second, after a point or a comma, and the rest. -/
def timeOfDay (cs : List Char) : Option (List Char) := do
  let (h, cs) ← shortNumber cs
  guard (h < 24 && cs.head? == some ':')
  let (m, cs) ← shortNumber cs.tail
  guard (m < 60 && cs.head? == some ':')
  let (s, cs) ← shortNumber cs.tail
  guard (s < 60)
  match cs with
  | mark :: d :: frac =>
      if (mark == '.' || mark == ',') && d.isDigit then return frac.dropWhile Char.isDigit
      else return cs
  | cs => return cs

/-- A time zone: `Z`, or a signed offset of hours and minutes, of which there may be a whole day and
a whole hour. -/
def isZone : List Char → Bool
  | ['Z'] => true
  | [sign, a, b, ':', c, d] =>
      (sign == '+' || sign == '-') && [a, b, c, d].all Char.isDigit &&
        decide ((a.toNat - 48) * 10 + (b.toNat - 48) ≤ 24 ∧
          (c.toNat - 48) * 10 + (d.toNat - 48) ≤ 60)
  | _ => false

/-- A date, possibly with a time of day: after spaces without a zone, after a letter with one. -/
def isTimestamp (cs : List Char) : Bool :=
  let read : Option Bool := do
    let year := cs.takeWhile Char.isDigit
    guard (year.length == 4)
    let y := year.foldl (fun acc c => acc * 10 + (c.toNat - 48)) 0
    let cs := cs.drop 4
    guard (cs.head? == some '-')
    let (m, cs) ← shortNumber cs.tail
    guard (decide (1 ≤ m ∧ m ≤ 12) && cs.head? == some '-')
    let (d, cs) ← shortNumber cs.tail
    guard (decide (1 ≤ d ∧ d ≤ daysIn y m))
    match cs with
    | [] => return true
    | ' ' :: rest =>
        let rest ← timeOfDay (rest.dropWhile (· == ' '))
        return rest.isEmpty
    | t :: rest =>
        guard (t == 'T' || t == 't')
        let rest ← timeOfDay rest
        return isZone rest
  read.getD false

/-- A number or date in any of the accepted spellings. -/
def number? (dates : Bool) (s : String) : Option Value :=
  let cs := s.toList
  if dates && isTimestamp cs then some .timestamp
  else
    let plain := cs.filter (· ≠ '_')
    match Number.parseSigned 64 plain, Number.parseUnsigned 64 plain with
    | .ok i, _ => some (.int i)
    | .error _, .ok n => some (.int n)
    | .error _, .error _ =>
        match (if isDecimal plain then double? plain else none) with
        | some v => some v
        | none =>
            match plain with
            | '0' :: 'b' :: ds => based? 2 ds
            | '-' :: '0' :: 'b' :: ds => based? 2 ('-' :: ds)
            | '0' :: 'o' :: ds => based? 8 ds
            | '-' :: '0' :: 'o' :: ds => based? 8 ('-' :: ds)
            | _ => none

/-- The value a text suggests, if it is more than text.  Dates are tried only where no other type
was asked for. -/
def suggested? (dates : Bool) (s : String) : Option Value :=
  match s.toList with
  | [] => some .null
  | c :: _ =>
      if c.isDigit || c == '+' || c == '-' then (word? s).or (number? dates s)
      else if c == '.' then (word? s).or (double? s.toList)
      else if ['y', 'Y', 'n', 'N', 't', 'T', 'f', 'F', 'o', 'O', '~'].contains c then word? s
      else none

/-- The value of a plain scalar without a tag. -/
def ofPlain (s : String) : Value := (suggested? true s).getD (.text s)

/-- The value of a scalar with a tag; nothing if the tag asks for a type that the text does not fit.
A tag that asks for no type leaves the text as it is. -/
def ofTagged (tag s : String) : Option Value :=
  if !Tag.typed.contains tag then some (.text s)
  else
    let v := (suggested? (tag == Tag.timestamp) s).getD (.text s)
    if tag == v.tag then some v
    else
      match v with
      | .int i =>
          if tag == Tag.float && decide (i < 0x8000000000000000) then
            let f := Number.Format.double
            some (.float (f.withSign (decide (i < 0)) (f.round i.natAbs 1)))
          else none
      | _ => none

end Value

namespace Node

/-- The line a node starts on, counted from one. -/
def line : Node → Nat
  | .scalar l _ _ _ => l
  | .sequence l _ _ => l
  | .mapping l _ _ => l
  | .alias l _ _ => l

/-- The tag of a node; an alias has none of its own. -/
def tag : Node → String
  | .scalar _ t _ _ => t
  | .sequence _ t _ => t
  | .mapping _ t _ => t
  | .alias _ _ _ => ""

/-- The kind of a node by number. -/
def kindCode : Node → Nat
  | .scalar .. => 0
  | .sequence .. => 1
  | .mapping .. => 2
  | .alias .. => 3

/-- The text of a scalar, the name of an alias, nothing otherwise. -/
def text : Node → String
  | .scalar _ _ _ s => s
  | .alias _ name _ => name
  | _ => ""

/-- The scalar that stands for a missing node. -/
def missing (line : Nat) : Node := .scalar line Tag.null .plain ""

/-- The tag of a scalar: the one it carries, or the one its style and text suggest. -/
def scalarTag (given : String) (style : Style) (text : String) : String :=
  if given ≠ "" ∧ given ≠ "!" then Tag.short given
  else if style ≠ .plain then Tag.str
  else if text == "<<" then Tag.merge
  else (Value.ofPlain text).tag

/-- The tag of a collection: the one it carries, or its own. -/
def collectionTag (given own : String) : String :=
  if given ≠ "" ∧ given ≠ "!" then Tag.short given else own

end Node

end WireSchema.Yaml
