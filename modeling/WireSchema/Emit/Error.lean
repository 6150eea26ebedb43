import WireSchema.Text.Quoted

/-!
# Why nothing is emitted

The errors of emitters, each worded in one place.
-/

namespace WireSchema.Emit

/-- Why a file or a set of files was not emitted. -/
inductive Error where
  | badPackage (name : String)
  | badTypeName (type : String)
  | badFieldName (type field : String)
  /-- Two attributes share a stored field. -/
  | sharedField (type first second ident : String)
  /-- A method is needed twice. -/
  | methodClash (type owner name other : String)
  /-- A name outside all types is needed twice. -/
  | packageClash (name owner other : String)
  | countAssigned (type setter field : String)
  | listWithoutCount (type field : String)
  /-- The text put together is no source text. -/
  | malformed (filename draft : String)
  /-- An emitter refuses for a reason of its own. -/
  | refused (reason : String)
  | whileEmitting (type emitter : String) (cause : Error)
  | whileSupporting (emitter : String) (cause : Error)
  /-- Two types are emitted to one file. -/
  | sharedFile (first second filename : String)
  | unknownBackend (name : String) (known : List String)
  | knownBackend (name : String)
  deriving DecidableEq, Repr

namespace Error

/-- The error in words. -/
def message : Error → String
  | .badPackage n => "invalid Go package name " ++ Text.quoted n
  | .badTypeName t => "type name " ++ Text.quoted t ++ " is not a valid Go identifier"
  | .badFieldName t f =>
      t ++ ": field name " ++ Text.quoted f ++ " is not a valid Go identifier"
  | .sharedField t a b id =>
      t ++ ": fields " ++ a ++ " and " ++ b ++ " map to the same Go field " ++ id
  | .methodClash t owner name other =>
      t ++ ": " ++ owner ++ " " ++ name ++ " collides with " ++ other
  | .packageClash name owner other =>
      "identifier " ++ name ++ " of " ++ owner ++ " collides with " ++ other
  | .countAssigned t setter field =>
      t ++ ": initial value " ++ setter ++ " targets count field " ++ field
  | .listWithoutCount t f => t ++ ": decode " ++ f ++ ": variable list " ++ f ++ " has no count"
  | .malformed file _ => "formatting " ++ file ++ ": (unformatted code returned)"
  | .refused reason => reason
  | .whileEmitting t e cause => "emitting " ++ t ++ " with " ++ e ++ ": " ++ cause.message
  | .whileSupporting e cause => "emitting " ++ e ++ " support files: " ++ cause.message
  | .sharedFile a b file =>
      "types " ++ Text.quoted a ++ " and " ++ Text.quoted b ++ " both map to file " ++ file
  | .unknownBackend n known =>
      "unknown backend " ++ Text.quoted n ++ " (known: [" ++ " ".intercalate known ++ "])"
  | .knownBackend n => "backend " ++ Text.quoted n ++ " already registered"

/-- The malformed file behind an error, if that is its cause: name and text. -/
def malformed? : Error → Option (String × String)
  | .malformed file text => some (file, text)
  | .whileEmitting _ _ cause => cause.malformed?
  | .whileSupporting _ cause => cause.malformed?
  | _ => none

end Error

end WireSchema.Emit
