/-!
# Tokens

The tokens of a document.  Block structure, which the text shows by indentation, is explicit here:
collections have start and end tokens, and every mapping entry a key and a value token.
-/

namespace WireSchema.Yaml

/-- How a scalar is written. -/
inductive Style where
  | plain
  | single
  | double
  | literal
  | folded
  deriving DecidableEq, Repr

/-- What a token is. -/
inductive TokenKind where
  | streamEnd
  | versionDirective (major minor : Nat)
  | tagDirective (handle lead : String)
  | documentStart
  | documentEnd
  | blockSequenceStart
  | blockMappingStart
  | blockEnd
  | flowSequenceStart
  | flowSequenceEnd
  | flowMappingStart
  | flowMappingEnd
  | blockEntry
  | flowEntry
  | key
  | value
  | alias (name : String)
  | anchor (name : String)
  | tag (handle suffix : String)
  | scalar (text : String) (style : Style)
  deriving DecidableEq, Repr

/-- A token and the line it starts on, counted from one. -/
structure Token where
  kind : TokenKind
  line : Nat
  deriving DecidableEq, Repr

/-- The text does not follow the rules of the format. -/
structure Malformed where
  deriving DecidableEq, Repr

end WireSchema.Yaml
