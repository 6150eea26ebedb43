import WireSchema.Number.FloatLiteral
import WireSchema.Toml.Value

/-!
# Numbers, dates and times in a settings file

A number starts with a digit or a sign.  Integers may have a base in front and underscores between
digits, and no needless zeros; decimal fractions and exponents make floating-point numbers.  A date
has a year, a month and a day of that month; a time has hours and minutes and may have seconds and a
fraction; a date with a time may say its distance from universal time.
-/

namespace WireSchema.Toml

/-- A digit of a base. -/
def isDigitOf (base : Nat) (c : Char) : Bool := (Number.digitValue c).any fun d => decide (d < base)

/-- Every underscore stands between digits. -/
def underscoresBetween : (digitBefore : Bool) → List Char → Bool
  | digitBefore, [] => digitBefore
  | digitBefore, c :: cs =>
      if c = '_' then digitBefore && underscoresBetween false cs
      else underscoresBetween (isDigitOf 16 c) cs

/-- A needless zero at the front, after an optional sign. -/
def hasLeadingZero : List Char → Bool
  | '0' :: c :: _ => !(['b', 'o', 'x'].contains c)
  | s :: '0' :: _ :: _ => s == '-' || s == '+'
  | _ => false

/-- The value of an integer. -/
def integerOf (cs : List Char) : Option Value :=
  if underscoresBetween false cs && !hasLeadingZero cs then
    (Number.parseSigned 64 cs).toOption.map .integer
  else none

/-- Every point is followed by a digit. -/
def pointsFollowed : List Char → Bool
  | [] => true
  | '.' :: c :: cs => c.isDigit && pointsFollowed (c :: cs)
  | ['.'] => false
  | _ :: cs => pointsFollowed cs

/-- A floating-point number, if it is a finite one in range. -/
def floatOf (cs : List Char) : Option Value :=
  let pieces := (Text.splitBy (fun c => c == '.' || c == 'e' || c == 'E') cs).filter (!·.isEmpty)
  let fits := pieces.all (underscoresBetween false) &&
    !(pieces.head?.any hasLeadingZero) && pointsFollowed cs
  match fits, Number.parseFloat .double (cs.filter (· ≠ '_')) with
  | true, .ok _ => some (.float (String.ofList cs))
  | _, _ => none

/-- Reads a number of exactly `width` digits. -/
def fixedDigits (width : Nat) (cs : List Char) : Option (Nat × List Char) :=
  let ds := cs.take width
  if ds.length = width ∧ ds.all Char.isDigit then
    some (ds.foldl (fun n c => n * 10 + (c.toNat - 48)) 0, cs.drop width)
  else none

/-- Reads a given character. -/
def mark (c : Char) : List Char → Option (List Char)
  | d :: rest => if d = c then some rest else none
  | [] => none

/-- The number of days of a month. -/
def daysIn (year month : Nat) : Nat :=
  if month = 2 then (if year % 4 = 0 ∧ (year % 100 ≠ 0 ∨ year % 400 = 0) then 29 else 28)
  else if [4, 6, 9, 11].contains month then 30
  else 31

/-- What follows a date. -/
def afterDate (cs : List Char) : Option (List Char) := do
  let (year, cs) ← fixedDigits 4 cs
  let (month, cs) ← fixedDigits 2 (← mark '-' cs)
  let (day, cs) ← fixedDigits 2 (← mark '-' cs)
  if 1 ≤ month ∧ month ≤ 12 ∧ 1 ≤ day ∧ day ≤ daysIn year month then return cs else none

/-- What follows a time. -/
def afterTime (cs : List Char) : Option (List Char) := do
  let (hour, cs) ← fixedDigits 2 cs
  let (minute, cs) ← fixedDigits 2 (← mark ':' cs)
  if 24 ≤ hour ∨ 60 ≤ minute then none
  match cs with
  | ':' :: cs => do
      let (second, cs) ← fixedDigits 2 cs
      if 60 ≤ second then none
      match cs with
      | '.' :: c :: rest => if c.isDigit then return rest.dropWhile Char.isDigit else none
      | cs => return cs
  | cs => return cs

/-- Nothing, or a distance from universal time. -/
def isZone : List Char → Bool
  | [] => true
  | ['Z'] => true
  | s :: cs =>
      let distance : Option (Nat × Nat × List Char) := do
        let (hour, cs) ← fixedDigits 2 cs
        let (minute, cs) ← fixedDigits 2 (← mark ':' cs)
        return (hour, minute, cs)
      (s == '+' || s == '-') &&
        (match distance with
          | some (hour, minute, []) => decide (hour ≤ 24 ∧ minute ≤ 60)
          | _ => false)

/-- A date, a time, or both. -/
def momentOf (cs : List Char) : Option Value :=
  let cs := cs.map fun c => if c = 'z' then 'Z' else if c = 't' ∨ c = ' ' then 'T' else c
  let fits :=
    match afterDate cs with
    | some [] => true
    | some ('T' :: time) => (afterTime time).any isZone
    | some _ => false
    | none => afterTime cs == some []
  if fits then some (.moment (String.ofList cs)) else none

/-- A character of a date or time. -/
def isMomentChar (c : Char) : Bool :=
  c.isDigit || ['-', ':', 'T', 't', ' ', '.', 'Z', 'z', '+'].contains c

/-- A character of a floating-point number. -/
def isFloatChar (c : Char) : Bool := c.isDigit || ['_', '.', '-', '+', 'e', 'E'].contains c

/-- A digit or an underscore. -/
def isDigitOrGap (c : Char) : Bool := c.isDigit || c == '_'

/-- The longest run at the front that satisfies `p`, made into a value, and the rest. -/
def readRun (p : Char → Bool) (make : List Char → Option Value) (cs : List Char) :
    Option (Value × List Char) :=
  (make (cs.takeWhile p)).map (·, cs.dropWhile p)

/-- Reads a decimal number; `body` is what follows its sign. -/
def readDecimal (cs body : List Char) : Option (Value × List Char) :=
  let signWidth := cs.length - body.length
  match body.dropWhile isDigitOrGap with
  | '.' :: _ | 'e' :: _ | 'E' :: _ => readRun isFloatChar floatOf cs
  | rest =>
      (integerOf (cs.take signWidth ++ body.takeWhile isDigitOrGap)).map (·, rest)

/-- Reads an integer with a base in front: `digits` is what follows the mark. -/
def readBased (base : Nat) (mark : Char) (digits : List Char) : Option (Value × List Char) :=
  if digits.head?.any (isDigitOf base) then
    let run := digits.takeWhile fun c => isDigitOf base c || c == '_'
    (integerOf ('0' :: mark :: run)).map (·, digits.drop run.length)
  else none

/-- Reads a number, a date or a time that starts with a digit. -/
def readNumber (cs : List Char) : Option (Value × List Char) :=
  match cs with
  | '0' :: 'b' :: digits => readBased 2 'b' digits
  | '0' :: 'o' :: digits => readBased 8 'o' digits
  | '0' :: 'x' :: digits => readBased 16 'x' digits
  | _ =>
      match cs.dropWhile Char.isDigit with
      | '-' :: _ | ':' :: _ =>
          readRun isMomentChar (fun run => momentOf (Text.trimEnd (· == ' ') run)) cs
      | _ => readDecimal cs cs

/-- Reads a number with a sign; `body` is what follows it. -/
def readSigned (sign : Char) (body : List Char) : Option (Value × List Char) :=
  match body with
  | 'i' :: 'n' :: 'f' :: rest => some (.float (String.ofList [sign, 'i', 'n', 'f']), rest)
  | 'n' :: 'a' :: 'n' :: rest => some (.float (String.ofList [sign, 'n', 'a', 'n']), rest)
  | c :: _ => if c.isDigit then readDecimal (sign :: body) body else none
  | [] => none

end WireSchema.Toml
