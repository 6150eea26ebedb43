/-!
# Byte strings as text

Texts that come from outside are byte strings.  Decoding reads them as UTF-8; a byte that starts
no well-formed sequence is kept as a stray byte, so nothing is lost, and counts as the replacement
character wherever a character is asked for.  `Text.encode` is the inverse of `Text.decode`.
-/

namespace WireSchema.Text

/-- One unit of a byte string: a character, or a byte that belongs to none. -/
inductive Glyph where
  | char (c : Char)
  | stray (b : UInt8)
  deriving DecidableEq, Repr

/-- The character a glyph counts as. -/
def Glyph.toChar : Glyph → Char
  | .char c => c
  | .stray _ => '\ufffd'

/-- A continuation byte and the six bits it carries. -/
def tailBits (b : UInt8) : Option Nat :=
  if 0x80 ≤ b.toNat ∧ b.toNat ≤ 0xbf then some (b.toNat - 0x80) else none

/-- The character of a well-formed sequence with the given payload, unless the payload would have
fitted into a shorter sequence or is no scalar value. -/
def scalarFrom (least n : Nat) : Option Char :=
  if n < least then none
  else if h : n.isValidChar then some (Char.ofNatAux n h)
  else none

/-- The character at the front of a byte string and how many bytes it takes. -/
def frontChar : List UInt8 → Option (Char × Nat)
  | [] => none
  | b :: rest =>
      let n := b.toNat
      if n < 0x80 then some (Char.ofNat n, 1)
      else if 0xc0 ≤ n ∧ n < 0xe0 then do
        let t ← rest[0]? >>= tailBits
        let c ← scalarFrom 0x80 ((n - 0xc0) * 64 + t)
        return (c, 2)
      else if 0xe0 ≤ n ∧ n < 0xf0 then do
        let t ← rest[0]? >>= tailBits
        let u ← rest[1]? >>= tailBits
        let c ← scalarFrom 0x800 (((n - 0xe0) * 64 + t) * 64 + u)
        return (c, 3)
      else if 0xf0 ≤ n ∧ n < 0xf8 then do
        let t ← rest[0]? >>= tailBits
        let u ← rest[1]? >>= tailBits
        let v ← rest[2]? >>= tailBits
        let c ← scalarFrom 0x10000 ((((n - 0xf0) * 64 + t) * 64 + u) * 64 + v)
        return (c, 4)
      else none

/-- The glyphs of a byte string. -/
def decode : List UInt8 → List Glyph
  | [] => []
  | b :: rest =>
      match frontChar (b :: rest) with
      | some (c, width) => .char c :: decode (rest.drop (width - 1))
      | none => .stray b :: decode rest
termination_by bs => bs.length
decreasing_by
  all_goals simp only [List.length_cons, List.length_drop]
  all_goals omega

/-- The bytes of a glyph. -/
def Glyph.bytes : Glyph → List UInt8
  | .char c => String.utf8EncodeChar c
  | .stray b => [b]

/-- The bytes of a list of glyphs. -/
def encode (gs : List Glyph) : List UInt8 := gs.flatMap Glyph.bytes

/-- A string as glyphs, none of them stray. -/
def ofString (s : String) : List Glyph := s.toList.map .char

/-- The string with these glyphs, unless one of them is stray. -/
def toString? (gs : List Glyph) : Option String :=
  (gs.mapM fun | Glyph.char c => some c | Glyph.stray _ => none).map String.ofList

/-- The bytes of a string. -/
def bytesOf (s : String) : List UInt8 := s.toList.flatMap String.utf8EncodeChar

/-- They are what the string is kept in. -/
theorem bytesOf_eq (s : String) : bytesOf s = s.toByteArray.data.toList := by
  rw [← String.utf8Encode_toList, List.utf8Encode, List.data_toByteArray, bytesOf]

/-- The string of a byte string, unless it has stray bytes. -/
def ofBytes? (bytes : List UInt8) : Option String := toString? (decode bytes)

/-- A byte string as it is shown. -/
def shown (bytes : List UInt8) : String := String.ofList ((decode bytes).map Glyph.toChar)

end WireSchema.Text
