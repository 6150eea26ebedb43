import WireSchema.Text.Blank
import WireSchema.Text.Case

/-!
# Identifiers as words

For comparing names, an identifier is cut into words: at separators (underscore, hyphen, point,
white space), before a capital that follows a small letter, and before the last capital of a run
that a small letter follows.  Words are lower-cased; put together again they are the identifier's
normal form.
-/

namespace WireSchema.Ident

/-- A character that only divides words. -/
def isSeparator (c : Char) : Bool := c == '_' || c == '-' || c == '.' || Text.isBlank c

/-- Whether a word begins at `c`, between the character before it and the one after it. -/
def startsWord (before : Option Char) (c : Char) (after : Option Char) : Bool :=
  match before with
  | none => false
  | some b =>
      Text.isUpper c &&
        ((!Text.isUpper b && !isSeparator b) ||
          (Text.isUpper b && (after.map Text.isLower).getD false))

/-- Ends the current word, kept in reverse, unless it is empty. -/
def flush (current : List Char) : List (List Char) :=
  if current.isEmpty then [] else [current.reverse.map Text.toLower]

/-- The words of the remaining characters, given the character before them and the current word
in reverse. -/
def wordsFrom : Option Char → List Char → List Char → List (List Char)
  | _, current, [] => flush current
  | before, current, c :: cs =>
      if isSeparator c then flush current ++ wordsFrom (some c) [] cs
      else if startsWord before c cs.head? then flush current ++ wordsFrom (some c) [c] cs
      else wordsFrom (some c) (c :: current) cs

/-- The words of an identifier. -/
def words (cs : List Char) : List (List Char) := wordsFrom none [] cs

/-- The normal form of an identifier. -/
def normalize (cs : List Char) : List Char := (words cs).flatten

end WireSchema.Ident
