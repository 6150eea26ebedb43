import WireSchema.Text.Case
import WireSchema.Text.Utf8

/-!
# Attribute names and setter names

A setter is named after its attribute: `set` followed by the attribute with a capital first
letter.  `setterField` reads the attribute back; a name that does not have the shape of a setter
names itself.  Each rule is stated once for glyphs, so that it also covers byte strings that are
not well-formed text.
-/

namespace WireSchema.Naming

open Text (Glyph)

/-- The first glyph upper-cased. -/
def initialCapGlyphs : List Glyph → List Glyph
  | [] => []
  | g :: gs => .char (Text.toUpper g.toChar) :: gs

/-- The first glyph lower-cased. -/
def lowerFirstGlyphs : List Glyph → List Glyph
  | [] => []
  | g :: gs => .char (Text.toLower g.toChar) :: gs

/-- The attribute a setter name stands for. -/
def setterFieldGlyphs : List Glyph → List Glyph
  | .char 's' :: .char 'e' :: .char 't' :: g :: rest =>
      if Text.isUpper g.toChar then lowerFirstGlyphs (g :: rest)
      else .char 's' :: .char 'e' :: .char 't' :: g :: rest
  | gs => gs

/-- The setter name of an attribute. -/
def setterNameGlyphs (gs : List Glyph) : List Glyph :=
  .char 's' :: .char 'e' :: .char 't' :: initialCapGlyphs gs

/-- Applies a rule on glyphs to a string. -/
def onString (f : List Glyph → List Glyph) (s : String) : String :=
  String.ofList ((f (Text.ofString s)).map Glyph.toChar)

/-- The first character upper-cased. -/
def initialCap (s : String) : String := onString initialCapGlyphs s

/-- The first character lower-cased. -/
def lowerFirst (s : String) : String := onString lowerFirstGlyphs s

/-- The attribute a setter name stands for. -/
def setterField (s : String) : String := onString setterFieldGlyphs s

/-- The setter name of an attribute. -/
def setterName (s : String) : String := onString setterNameGlyphs s

/-- A parent of this name is no parent: empty, or `root` in any case. -/
def isRoot (parent : String) : Bool :=
  parent.isEmpty || parent.toList.map Char.toLower == "root".toList

end WireSchema.Naming
