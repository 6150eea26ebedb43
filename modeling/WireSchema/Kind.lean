import WireSchema.Number.Binary

/-!
# Storage kinds

The ten kinds of stored numbers: unsigned and signed integers of one, two, four and eight bytes,
and floating point of four and eight bytes.  A `Code` is a kind as it is numbered in catalogs; the
codes outside 1 to 10 name no kind, and what may be asked of them is limited.
-/

namespace WireSchema

/-- How a number is stored. -/
inductive Kind where
  | uint8
  | uint16
  | uint32
  | uint64
  | int8
  | int16
  | int32
  | int64
  | float32
  | float64
  deriving DecidableEq, Repr

namespace Kind

/-- Every kind, in the order of its code. -/
def all : List Kind :=
  [.uint8, .uint16, .uint32, .uint64, .int8, .int16, .int32, .int64, .float32, .float64]

/-- Bytes a value takes on the wire. -/
def bytes : Kind → Nat
  | .uint8 | .int8 => 1
  | .uint16 | .int16 => 2
  | .uint32 | .int32 | .float32 => 4
  | .uint64 | .int64 | .float64 => 8

/-- Bits a value takes. -/
def bits (k : Kind) : Nat := 8 * k.bytes

/-- The float format of a floating-point kind. -/
def format? : Kind → Option Number.Format
  | .float32 => some .single
  | .float64 => some .double
  | _ => none

/-- Floating point. -/
def isFloat (k : Kind) : Bool := k.format?.isSome

/-- An integer kind. -/
def isInteger (k : Kind) : Bool := !k.isFloat

/-- Values below zero can be stored. -/
def isSigned : Kind → Bool
  | .uint8 | .uint16 | .uint32 | .uint64 => false
  | _ => true

/-- The largest integer the kind stores; zero for floating point. -/
def maxCount (k : Kind) : Nat :=
  if k.isFloat then 0 else Nat.pow 2 (if k.isSigned then k.bits - 1 else k.bits) - 1

/-- The kind's name in capitals: the suffix of its accessor on readers and writers. -/
def accessor : Kind → String
  | .uint8 => "Uint8"
  | .uint16 => "Uint16"
  | .uint32 => "Uint32"
  | .uint64 => "Uint64"
  | .int8 => "Int8"
  | .int16 => "Int16"
  | .int32 => "Int32"
  | .int64 => "Int64"
  | .float32 => "Float32"
  | .float64 => "Float64"

/-- The name of the type that stores the kind in generated code. -/
def typeName : Kind → String
  | .uint8 => "uint8"
  | .uint16 => "uint16"
  | .uint32 => "uint32"
  | .uint64 => "uint64"
  | .int8 => "int8"
  | .int16 => "int16"
  | .int32 => "int32"
  | .int64 => "int64"
  | .float32 => "float32"
  | .float64 => "float64"

/-- The kind's own name. -/
def name (k : Kind) : String := "Kind" ++ k.accessor

end Kind

/-- A kind by number. -/
structure KindCode where
  code : Int
  deriving DecidableEq, Repr

namespace KindCode

/-- What can be asked of a kind only when it exists. -/
inductive Request where
  | bits
  | typeName
  | zero
  | conversion
  deriving DecidableEq, Repr

/-- The kind with this number, if there is one. -/
def kind? (c : KindCode) : Option Kind :=
  if 1 ≤ c.code then Kind.all[(c.code - 1).toNat]? else none

/-- The name of a code: its kind's, or the bare number. -/
def name (c : KindCode) : String :=
  match c.kind? with
  | some k => k.name
  | none => "KindEnum(" ++ toString c.code ++ ")"

/-- What is reported when something is asked of a code that names no kind. -/
def refusal (c : KindCode) : Request → String
  | .bits => "bits requested for invalid kind: " ++ c.name
  | .typeName => "go type requested for invalid kind: " ++ c.name
  | .zero => "zero requested for invalid kind: " ++ c.name
  | .conversion => "conversion to invalid kind: " ++ c.name

end KindCode

end WireSchema
