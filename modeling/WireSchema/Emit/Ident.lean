import WireSchema.Naming
import WireSchema.Text.Letter
import WireSchema.Text.Printable
import WireSchema.Text.Blank

/-!
# Names in generated Go source

Which texts are identifiers, how schema names become identifiers, and which texts can be imported.
Types and accessors have a capital first letter, stored fields a small one; a stored field that
would be a keyword, or would clash with the constructor, gets an underscore.
-/

namespace WireSchema.Emit

/-- The reserved words. -/
def keywords : List String :=
  ["break", "case", "chan", "const", "continue", "default", "defer", "else", "fallthrough", "for",
    "func", "go", "goto", "if", "import", "interface", "map", "package", "range", "return",
    "select", "struct", "switch", "type", "var"]

/-- A character an identifier can start with. -/
def startsIdent (c : Char) : Bool := Text.isLetter c || c == '_'

/-- A character an identifier can go on with. -/
def continuesIdent (c : Char) : Bool := startsIdent c || Text.isDecimalDigit c

/-- The characters of an identifier, reserved or not. -/
def isWord : List Char → Bool
  | [] => false
  | c :: cs => startsIdent c && cs.all continuesIdent

/-- An identifier that is not reserved. -/
def isIdent (s : String) : Bool := isWord s.toList && !keywords.contains s

/-- The name of the method that gives a new message its defaults. -/
def constructName : String := "construct"

/-- The name of a message type. -/
def typeName (name : String) : String := Naming.initialCap name

/-- The name of the function that makes a new message. -/
def constructorName (type : String) : String := "New" ++ typeName type

/-- The part of accessor names that comes from a field. -/
def exported (field : String) : String := Naming.initialCap field

/-- The stored field of an attribute. -/
def fieldIdent (field : String) : String :=
  let id := Naming.lowerFirst field
  if keywords.contains id || id == constructName then id ++ "_" else id

/-- The local variable that keeps a count while it is needed. -/
def countVar (field : String) : String := Naming.lowerFirst field ++ "Count"

/-- The local variable that keeps the vetted length of a list. -/
def lengthVar (field : String) : String := Naming.lowerFirst field ++ "Len"

/-- A type name that can stand where a type is expected: an identifier, or two joined by a point. -/
def isTypeText (s : String) : Bool :=
  match Text.splitBy (· == '.') s.toList with
  | [a] => isIdent (String.ofList a)
  | [a, b] => isIdent (String.ofList a) && isIdent (String.ofList b)
  | _ => false

/-- The value of a digit in base sixteen. -/
def hexValue? (c : Char) : Option Nat :=
  if c.isDigit then some (c.toNat - 48)
  else if 'a' ≤ c ∧ c ≤ 'f' then some (c.toNat - 87)
  else if 'A' ≤ c ∧ c ≤ 'F' then some (c.toNat - 55)
  else none

/-- Reads exactly `n` digits of a base. -/
def readCode (base : Nat) : (n : Nat) → Nat → List Char → Option (Nat × List Char)
  | 0, acc, cs => some (acc, cs)
  | _ + 1, _, [] => none
  | n + 1, acc, c :: cs => do
      let v ← hexValue? c
      if v < base then readCode base n (acc * base + v) cs else none

/-- What remains after a backslash and the characters it goes with inside quotes. -/
def afterEscape (cs : List Char) : Option (List Char) :=
  let coded (base n limit : Nat) (cs : List Char) : Option (List Char) := do
    let (code, rest) ← readCode base n 0 cs
    if code.isValidChar ∧ code < limit then return rest else none
  match cs with
  | 'x' :: rest => coded 16 2 0x100 rest
  | 'u' :: rest => coded 16 4 0x110000 rest
  | 'U' :: rest => coded 16 8 0x110000 rest
  | c :: rest =>
      if '0' ≤ c ∧ c ≤ '7' then coded 8 3 0x100 cs
      else if ['a', 'b', 'f', 'n', 'r', 't', 'v', '\\', '"'].contains c then some rest
      else none
  | [] => none

/-- A character that source text must not hold. -/
def isForbidden (c : Char) : Bool := c == '\x00' || c == '\ufeff'

/-- Whether characters can stand between quotes as they are. -/
def fitsQuotes : (fuel : Nat) → List Char → Bool
  | _, [] => true
  | 0, _ => false
  | fuel + 1, c :: cs =>
      if c == '"' || c == '\n' || isForbidden c then false
      else if c == '\\' then ((afterEscape cs).map (fitsQuotes fuel)).getD false
      else fitsQuotes fuel cs

/-- A text that can stand between quotes in an import. -/
def isImportText (s : String) : Bool := fitsQuotes s.length s.toList

end WireSchema.Emit
