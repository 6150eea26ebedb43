/-!
# White space

The white space of Unicode, and the three things the library does with it: trimming the ends of a
text, splitting a text into its words, and joining words with single spaces.  All are list
functions underneath, so their laws are laws of `takeWhile` and `dropWhile`.
-/

namespace WireSchema.Text

/-- A white-space character of any script. -/
def isBlank (c : Char) : Bool :=
  [0x09, 0x0a, 0x0b, 0x0c, 0x0d, 0x20, 0x85, 0xa0, 0x1680, 0x2028, 0x2029, 0x202f, 0x205f,
    0x3000].contains c.toNat || decide (0x2000 ≤ c.toNat ∧ c.toNat ≤ 0x200a)

/-- Drops the characters satisfying `p` from both ends. -/
def trimBoth (p : Char → Bool) (cs : List Char) : List Char :=
  ((cs.dropWhile p).reverse.dropWhile p).reverse

/-- Drops the characters satisfying `p` from the end. -/
def trimEnd (p : Char → Bool) (cs : List Char) : List Char :=
  (cs.reverse.dropWhile p).reverse

/-- A text without the white space at its ends. -/
def trim (s : String) : String :=
  String.ofList (trimBoth isBlank s.toList)

/-- Splits at every character satisfying `p`; the pieces may be empty. -/
def splitBy (p : Char → Bool) : List Char → List (List Char)
  | [] => [[]]
  | c :: cs =>
      if p c then [] :: splitBy p cs
      else
        match splitBy p cs with
        | [] => [[c]]
        | piece :: rest => (c :: piece) :: rest

/-- The maximal runs of characters that are not white space. -/
def words (s : String) : List String :=
  ((splitBy isBlank s.toList).filter fun w => !w.isEmpty).map String.ofList

/-- The lines of a text: the pieces between line feeds. -/
def lines (s : String) : List String :=
  (splitBy (· == '\n') s.toList).map String.ofList

/-- Texts joined with a separator between neighbours. -/
def joinWith (sep : String) (parts : List String) : String := sep.intercalate parts

/-- Whether `needle` occurs in `hay` as a run of neighbouring characters. -/
def containsRun [BEq α] (needle : List α) : List α → Bool
  | [] => needle.isEmpty
  | hay@(_ :: rest) => needle.isPrefixOf hay || containsRun needle rest

end WireSchema.Text
