import WireSchema.Wire.Reader

/-!
# Failures

Why an operation on a message failed: a cause, and the places it went through on its way out,
outermost first.  A fault is different: the program is stopped, because a message did not have the
form its plan promises or a list could not be made, and what is reported has no places.
-/

namespace WireSchema.Message

/-- The cause of a failure. -/
inductive Cause where
  /-- A type without an accepted plan. -/
  | unknownType
  /-- A field the message does not have. -/
  | noField
  /-- A count field was assigned. -/
  | noSetter
  /-- A value of another type than the field's. -/
  | typeMismatch
  /-- The plan was derived without a size. -/
  | noSize
  /-- A list is longer than its count field can say. -/
  | countOverflow
  /-- Reading failed. -/
  | read (e : Wire.ReadError)
  /-- A list came up before its count. -/
  | countMissing (count field : String)
  /-- The program stops itself. -/
  | halt (text : String)
  /-- The program is stopped by the system that runs it. -/
  | fault (text : String)
  /-- The message nests deeper than any message built from its parts can. -/
  | tooDeep
  deriving DecidableEq, Repr

/-- The cause in words. -/
def Cause.message : Cause → String
  | .unknownType => "interp: unknown type"
  | .noField => "interp: no such field"
  | .noSetter => "interp: field has no setter"
  | .typeMismatch => "interp: value type mismatch"
  | .noSize => "interp: plan has no size expression"
  | .countOverflow => "interp: list too long for its count field"
  | .read e => e.message
  | .countMissing count field => "count " ++ count ++ " of " ++ field ++ " was not decoded"
  | .halt text | .fault text => text
  | .tooDeep => "message nests too deep"

/-- A cause with the places it went through, outermost first. -/
structure Failure where
  places : List String
  cause : Cause
  deriving DecidableEq, Repr

namespace Failure

/-- A failure that has not left its place yet. -/
def of (c : Cause) : Failure := ⟨[], c⟩

/-- A failure at a place. -/
def at_ (place : String) (c : Cause) : Failure := ⟨[place], c⟩

/-- The failure seen from further out; one that stopped the program stays as it is. -/
def within (place : String) (f : Failure) : Failure :=
  match f.cause with
  | .halt _ | .fault _ => f
  | _ => { f with places := place :: f.places }

/-- The failure in words. -/
def message (f : Failure) : String := ": ".intercalate (f.places ++ [f.cause.message])

/-- A value had another form than its plan promises. -/
def badForm (found wanted : String) : Failure :=
  .of (.fault ("interface conversion: interface \x7b\x7d is " ++ found ++ ", not " ++ wanted))

/-- A part that the plan promises is missing. -/
def missingPart : Failure :=
  .of (.fault "runtime error: invalid memory address or nil pointer dereference")

end Failure

/-- A computation that changes a state and may fail; what it did before it failed stays done. -/
abbrev Action (σ α : Type) : Type := ExceptT Failure (StateM σ) α

/-- Runs an action at a place, which its failure then mentions. -/
def within (place : String) (act : Action σ α) : Action σ α := fun s =>
  match act s with
  | (.error f, s) => (.error (f.within place), s)
  | r => r

end WireSchema.Message
