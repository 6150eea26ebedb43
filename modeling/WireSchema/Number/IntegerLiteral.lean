import WireSchema.Text.Quoted

/-!
# Integer literals

An integer literal is decimal, or carries a base in front: `0x`, `0o`, `0b`, or a bare leading
zero for octal.  Underscores may stand between digits and after a base.  A literal that is not of
this shape, and one whose value does not fit the requested number of bits, are two different
faults; the second is noticed as soon as the digits read so far are too large, so a literal with
both faults reports the one that comes first from the left.
-/

namespace WireSchema.Number

/-- Why a text is no number of the requested width. -/
inductive Fault where
  | syntaxError
  | outOfRange
  deriving DecidableEq, Repr

/-- The fault in words. -/
def Fault.message : Fault → String
  | .syntaxError => "invalid syntax"
  | .outOfRange => "value out of range"

/-- The value of a digit in any base up to thirty-six. -/
def digitValue (c : Char) : Option Nat :=
  if '0' ≤ c ∧ c ≤ '9' then some (c.toNat - 48)
  else if 'a' ≤ c.toLower ∧ c.toLower ≤ 'z' then some (c.toLower.toNat - 87)
  else none

/-- The base of a literal and the characters after its mark. -/
def splitBase : List Char → Nat × List Char
  | '0' :: c :: d :: rest =>
      if c.toLower = 'b' then (2, d :: rest)
      else if c.toLower = 'o' then (8, d :: rest)
      else if c.toLower = 'x' then (16, d :: rest)
      else (8, c :: d :: rest)
  | '0' :: rest => (8, rest)
  | cs => (10, cs)

/-- Reads digits from the left, skipping underscores, and stops at the first fault. -/
def readDigits (base limit : Nat) : Nat → List Char → Except Fault Nat
  | acc, [] => .ok acc
  | acc, c :: cs =>
      if c = '_' then readDigits base limit acc cs
      else
        match digitValue c with
        | none => .error .syntaxError
        | some d =>
            if base ≤ d then .error .syntaxError
            else if limit ≤ acc * base + d then .error .outOfRange
            else readDigits base limit (acc * base + d) cs

/-- What the character before an underscore was: nothing yet, a digit or base mark, an underscore,
or anything else. -/
inductive Before where
  | start
  | digit
  | underscore
  | other
  deriving DecidableEq, Repr

/-- Whether every underscore follows a digit and is followed by one. -/
def underscoresFrom (hex : Bool) : Before → List Char → Bool
  | b, [] => b != .underscore
  | b, c :: cs =>
      if c.isDigit || (hex && decide ('a' ≤ c.toLower ∧ c.toLower ≤ 'f')) then
        underscoresFrom hex .digit cs
      else if c = '_' then b == .digit && underscoresFrom hex .underscore cs
      else b != .underscore && underscoresFrom hex .other cs

/-- Whether the underscores of a literal stand where they may: between digits, or between a base
mark and a digit. -/
def underscoresFit (cs : List Char) : Bool :=
  let body :=
    match cs with
    | '-' :: rest => rest
    | '+' :: rest => rest
    | rest => rest
  match body with
  | '0' :: c :: rest =>
      let l := c.toLower
      if l = 'b' ∨ l = 'o' ∨ l = 'x' then underscoresFrom (l = 'x') .digit rest
      else underscoresFrom false .start body
  | _ => underscoresFrom false .start body

/-- The value of an unsigned literal below `2 ^ bits`. -/
def parseUnsigned (bits : Nat) (cs : List Char) : Except Fault Nat := do
  if cs.isEmpty then throw .syntaxError
  let (base, digits) := splitBase cs
  let n ← readDigits base (Nat.pow 2 bits) 0 digits
  if digits.contains '_' && !underscoresFit cs then throw .syntaxError
  return n

/-- The value of a literal with an optional sign, in the two's complement range of `bits` bits. -/
def parseSigned (bits : Nat) (cs : List Char) : Except Fault Int :=
  let read (negative : Bool) (body : List Char) : Except Fault Int :=
    let limit := Nat.pow 2 (bits - 1)
    match parseUnsigned bits body with
    | .error f => .error f
    | .ok n =>
        if negative then
          if limit < n then .error .outOfRange else .ok (-n)
        else if limit ≤ n then .error .outOfRange
        else .ok n
  match cs with
  | '+' :: body => read false body
  | '-' :: body => read true body
  | body => read false body

/-- A failed conversion, in words: what was attempted, on what, and what was wrong. -/
def faultText (reader : String) (input : String) (f : Fault) : String :=
  "strconv." ++ reader ++ ": parsing " ++ Text.quoted input ++ ": " ++ f.message

end WireSchema.Number
