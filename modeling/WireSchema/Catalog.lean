import WireSchema.Scalar
import WireSchema.Number.FloatLiteral
import WireSchema.Text.Blank
import WireSchema.Text.Case

/-!
# The catalog of primitive types

A primitive type is a schema name such as `unsigned short` bound to a storage kind.  Names are
compared after folding: words separated by single spaces, in lower case.  A catalog keeps one type
per folded name, and lists its names in order.

`Primitive.parse` reads a literal of the type, `Primitive.format` writes one.
-/

namespace WireSchema

/-- A primitive type of the catalog. -/
structure Primitive where
  name : String
  kind : Kind
  deriving DecidableEq, Repr

namespace Primitive

/-- Bits of storage. -/
def bits (t : Primitive) : Nat := t.kind.bits

/-- Bytes on the wire. -/
def wireBytes (t : Primitive) : Nat := t.kind.bytes

/-- Values below zero can be stored. -/
def isSigned (t : Primitive) : Bool := t.kind.isSigned

/-- The zero of the type. -/
def zero (t : Primitive) : Scalar := .zero t.kind

/-- A literal that the type refuses. -/
inductive LiteralError where
  /-- The text is no number of the type. -/
  | fault (type : Primitive) (literal : String) (cause : Number.Fault)
  /-- The text names an infinity or NaN. -/
  | notFinite (type : Primitive) (literal : String)
  deriving DecidableEq, Repr

/-- Which reader a type's literals go through, as messages name it. -/
def reader (t : Primitive) : String :=
  if t.kind.isFloat then "ParseFloat" else if t.isSigned then "ParseInt" else "ParseUint"

/-- The refusal in words. -/
def LiteralError.message : LiteralError → String
  | .fault t lit f =>
      "parse " ++ t.name ++ " literal " ++ Text.quoted lit ++ ": " ++
        Number.faultText t.reader lit f
  | .notFinite t lit =>
      "parse " ++ t.name ++ " literal " ++ Text.quoted lit ++ ": non-finite value"

/-- Reads a literal of the type; white space around it is ignored. -/
def parse (t : Primitive) (literal : String) : Except LiteralError Scalar :=
  let lit := Text.trim literal
  match t.kind.format? with
  | some f =>
      match Number.parseFloat f lit.toList with
      | .error e => .error (.fault t lit e)
      | .ok bits =>
          if f.isFinite bits then .ok (.ofPattern t.kind bits) else .error (.notFinite t lit)
  | none =>
      if t.isSigned then
        match Number.parseSigned t.bits lit.toList with
        | .error e => .error (.fault t lit e)
        | .ok i => .ok ⟨t.kind, BitVec.ofInt _ i⟩
      else
        match Number.parseUnsigned t.bits lit.toList with
        | .error e => .error (.fault t lit e)
        | .ok n => .ok (.ofPattern t.kind n)

/-- Writes a scalar as a literal of the type. -/
def format (t : Primitive) (s : Scalar) : String :=
  match s.kind.format? with
  | some f => Number.floatText f s.pattern
  | none =>
      if t.isSigned then toString s.toWord.toInt64.toInt else toString s.toWord.toNat

end Primitive

/-- A set of primitive types, by folded name, in the order of their names. -/
structure Catalog where
  types : List Primitive
  deriving DecidableEq, Repr

namespace Catalog

/-- Folds a type name: its words, lower-cased, with single spaces between. -/
def fold (name : String) : String := Text.lowerCase (Text.joinWith " " (Text.words name))

/-- The type called `name`, whatever its case and spacing. -/
def lookup (c : Catalog) (name : String) : Option Primitive :=
  c.types.find? fun t => t.name == fold name

/-- The folded names, in order. -/
def names (c : Catalog) : List String := c.types.map (·.name)

/-- Inserts a type where its name belongs; among equal names the later comes first. -/
def insert (t : Primitive) : List Primitive → List Primitive
  | [] => [t]
  | u :: rest => if u.name < t.name then u :: insert t rest else t :: u :: rest

/-- The catalog of the given entries. -/
def ofEntries (entries : List (String × Kind)) : Catalog :=
  ⟨entries.foldl (fun acc (name, kind) => insert ⟨fold name, kind⟩ acc) []⟩

/-- An entry whose code names no kind. -/
def badEntry (name : String) (code : KindCode) : String :=
  "primitive " ++ Text.quoted name ++ " has invalid kind " ++ toString code.code

/-- The catalog of entries given by code; the first entry that names no kind is refused. -/
def ofCodes (entries : List (String × KindCode)) : Except String Catalog := do
  let typed ← entries.mapM fun (name, code) =>
    match code.kind? with
    | some k => .ok (name, k)
    | none => .error (badEntry name code)
  return ofEntries typed

/-- A type that had to be there was not. -/
def unknown (name : String) : String := "unknown primitive: " ++ name

/-- The ten types every schema may use. -/
def standard : Catalog :=
  ofEntries
    [ ("unsigned byte", .uint8), ("unsigned short", .uint16), ("unsigned int", .uint32),
      ("unsigned long", .uint64), ("byte", .int8), ("short", .int16), ("int", .int32),
      ("long", .int64), ("float", .float32), ("double", .float64) ]

end Catalog

end WireSchema
