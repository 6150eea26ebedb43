import WireSchema.Text.Utf8
import WireSchema.Yaml.Cursor

/-!
# The characters of a file

A file is UTF-8 unless it starts with the byte order mark of UTF-16; a mark at the start is ignored.
Bytes that spell no character end what can be read of a file, and so does a character that must not
occur.  A file is read in pieces, and such a fault is a fault of its whole piece: what stands before
it in the same piece is lost with it.
-/

namespace WireSchema.Yaml

/-- How many bytes are read at a time. -/
def pieceBytes : Nat := 512

/-- Some bytes of a file that belong together: the character they spell, if any, and how many they
are. -/
structure Spelling where
  char? : Option Char
  width : Nat
  deriving DecidableEq, Repr

/-- What the file ends in the middle of: it belongs to a piece that never comes. -/
def Spelling.cutOff : Spelling := ⟨none, pieceBytes + 1⟩

/-- How many bytes a sequence of UTF-8 has that starts with this one. -/
def announcedWidth (b : UInt8) : Nat :=
  let n := b.toNat
  if n < 0xc0 then 1
  else if n < 0xe0 then 2
  else if n < 0xf0 then 3
  else if n < 0xf8 then 4
  else 1

/-- UTF-8, up to the first fault; the first `skip` bytes belong to what comes before. -/
def spellingsUtf8 : (skip : Nat) → List UInt8 → List Spelling
  | _, [] => []
  | skip + 1, _ :: rest => spellingsUtf8 skip rest
  | 0, b :: rest =>
      match Text.frontChar (b :: rest) with
      | some (c, width) => ⟨some c, width⟩ :: spellingsUtf8 (width - 1) rest
      | none =>
          if rest.length + 1 < announcedWidth b then [.cutOff] else [⟨none, announcedWidth b⟩]

/-- The first half of a character that takes two units. -/
def isHighHalf (n : Nat) : Bool := decide (0xd800 ≤ n ∧ n ≤ 0xdbff)

/-- The second half of a character that takes two units. -/
def isLowHalf (n : Nat) : Bool := decide (0xdc00 ≤ n ∧ n ≤ 0xdfff)

/-- UTF-16, up to the first fault; `unit` is the number that two bytes make. -/
def spellingsUtf16 (unit : UInt8 → UInt8 → Nat) : List UInt8 → List Spelling
  | [] => []
  | [_] => [.cutOff]
  | a :: b :: rest =>
      let n := unit a b
      if isLowHalf n then [⟨none, 2⟩]
      else if isHighHalf n then
        match rest with
        | c :: d :: rest =>
            let m := unit c d
            if isLowHalf m then
              ⟨some (Char.ofNat (0x10000 + (n - 0xd800) * 0x400 + (m - 0xdc00))), 4⟩ ::
                spellingsUtf16 unit rest
            else [⟨none, 4⟩]
        | _ => [.cutOff]
      else ⟨some (Char.ofNat n), 2⟩ :: spellingsUtf16 unit rest

/-- How many characters stand before the first piece with a fault, if there is one.  A piece has
whole characters only; `used` bytes of the current one, which starts after `start` characters, are
taken. -/
def readableBefore? (start used count : Nat) : List Spelling → Option Nat
  | [] => none
  | s :: rest =>
      let fits := decide (used + s.width ≤ pieceBytes)
      let start := if fits then start else count
      if s.char?.any isAllowed then
        readableBefore? start (if fits then used + s.width else s.width) (count + 1) rest
      else some start

/-- The characters of a file. -/
structure Input where
  chars : List Char
  /-- How many characters can be read before a piece with a fault. -/
  readable : Nat

namespace Input

/-- The characters behind a mark of so many bytes. -/
def ofSpellings (mark : Nat) (spellings : List Spelling) : Input :=
  let chars := spellings.filterMap (·.char?)
  ⟨chars, (readableBefore? 0 mark 0 spellings).getD (chars.length + 4)⟩

/-- The characters in the bytes of a file. -/
def ofBytes : List UInt8 → Input
  | 0xff :: 0xfe :: rest => ofSpellings 2 (spellingsUtf16 (fun a b => a.toNat + 256 * b.toNat) rest)
  | 0xfe :: 0xff :: rest => ofSpellings 2 (spellingsUtf16 (fun a b => 256 * a.toNat + b.toNat) rest)
  | 0xef :: 0xbb :: 0xbf :: rest => ofSpellings 3 (spellingsUtf8 0 rest)
  | bytes => ofSpellings 0 (spellingsUtf8 0 bytes)

end Input

end WireSchema.Yaml
