import WireSchema.Text.Blank
import WireSchema.Text.Quoted

/-!
# Values of a settings file

A key has parts; a part that is no bare word is shown between quotes.  A value is a text, a number,
a truth value, a date or time, a list of values, or a table written on the spot.
-/

namespace WireSchema.Toml

/-- A key: the parts between its dots. -/
abbrev Key : Type := List String

/-- A value as it was written. -/
inductive Value where
  | text (s : String)
  | integer (n : Int)
  | float (literal : String)
  | bool (b : Bool)
  /-- A date, a time, or both. -/
  | moment (literal : String)
  | array (items : List Value)
  | inline (pairs : List (Key × Value))
  deriving Repr

/-- A character of a bare word. -/
def isBare (c : Char) : Bool := c.isAlphanum || c == '_' || c == '-'

/-- A character between the quotes of a key that is shown. -/
def shownChar (c : Char) : List Char :=
  match c with
  | '"' => ['\\', '"']
  | '\\' => ['\\', '\\']
  | '\x08' => ['\\', 'b']
  | '\t' => ['\\', 't']
  | '\n' => ['\\', 'n']
  | '\x0c' => ['\\', 'f']
  | '\r' => ['\\', 'r']
  | c =>
      if c.toNat < 32 ∨ c.toNat = 127 then '\\' :: 'u' :: Text.hexDigits 4 c.toNat else [c]

/-- A part of a key as it is shown. -/
def shownPart (s : String) : String :=
  if !s.isEmpty && s.toList.all isBare then s
  else String.ofList ('"' :: s.toList.flatMap shownChar ++ ['"'])

/-- A key as it is shown. -/
def shownKey (k : Key) : String := Text.joinWith "." (k.map shownPart)

end WireSchema.Toml
