import WireSchema.Text.Blank

/-!
# The surface of a generated package

What a package declares: its functions, and its record types with their methods and fields.  A
generated package declares every message type with its constructor and the methods all messages
share; what is missing is listed in full.
-/

namespace WireSchema

namespace Surface

/-- A field of a record type. -/
structure Field where
  name : String
  type : String
  embedded : Bool
  deriving DecidableEq, Repr

/-- A record type. -/
structure TypeSurface where
  name : String
  fields : List Field
  /-- In order. -/
  methods : List String
  deriving DecidableEq, Repr

/-- The names of the embedded fields. -/
def TypeSurface.embedded (t : TypeSurface) : List String :=
  (t.fields.filter (·.embedded)).map (·.name)

/-- Halves the part of an ordered list that may hold a name, until one place is left: the first at
which the list is not below the name. -/
def lowerBound (names : Array String) (name : String) : (fuel lo hi : Nat) → Nat
  | 0, lo, _ => lo
  | fuel + 1, lo, hi =>
      if lo < hi then
        let mid := (lo + hi) / 2
        if names.getD mid "" < name then lowerBound names name fuel (mid + 1) hi
        else lowerBound names name fuel lo mid
      else lo

/-- Whether an ordered list holds a name.  In a list that is not in order a name may be missed. -/
def holds (names : List String) (name : String) : Bool :=
  let names := names.toArray
  names[lowerBound names name (names.size + 1) 0 names.size]? == some name

end Surface

/-- What a package declares. -/
structure Surface where
  path : String
  types : List Surface.TypeSurface
  /-- In order. -/
  functions : List String
  deriving DecidableEq, Repr

namespace Surface

/-- The last type called `name`. -/
def type? (s : Surface) (name : String) : Option TypeSurface :=
  s.types.reverse.find? (·.name == name)

/-- What a package lacks. -/
inductive Gap where
  | type (name : String)
  | constructor (name : String)
  | method (type name : String)
  deriving DecidableEq, Repr

/-- The gap in words. -/
def Gap.message : Gap → String
  | .type n => "type " ++ n ++ " is missing"
  | .constructor n => "constructor New" ++ n ++ " is missing"
  | .method t n => "method " ++ t ++ "." ++ n ++ " is missing"

/-- The methods every message type has. -/
def messageMethods : List String := ["MarshalWire", "UnmarshalWire", "Equal"]

/-- The method of message types with sizes. -/
def sizeMethod : String := "MarshalledSize"

/-- What a package lacks of a message type. -/
def gapsOf (s : Surface) (withSize : Bool) (name : String) : List Gap :=
  match s.type? name with
  | none => [.type name]
  | some t =>
      let required := messageMethods ++ if withSize then [sizeMethod] else []
      (if holds s.functions ("New" ++ name) then [] else [.constructor name]) ++
        (required.filter fun m => !holds t.methods m).map (.method name)

/-- What a package lacks of some message types. -/
def gaps (s : Surface) (names : List String) (withSize : Bool) : List Gap :=
  names.flatMap (s.gapsOf withSize)

/-- What a package lacks, in words; nothing if it has all. -/
def gapText? (s : Surface) (names : List String) (withSize : Bool) : Option String :=
  match s.gaps names withSize with
  | [] => none
  | gs => some ("package " ++ s.path ++ ": " ++ Text.joinWith "; " (gs.map Gap.message))

end Surface

end WireSchema
