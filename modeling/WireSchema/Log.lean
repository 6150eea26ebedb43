import WireSchema.Text.Blank
import WireSchema.Text.Case
import WireSchema.Text.Quoted

/-!
# The log of a run

A run says what it does in entries: a level, a message, and values by name.  A console shows the
entries of at least its level, one line each: the level in three letters, the message, and the
values in the order of their names.
-/

namespace WireSchema.Log

/-- How much an entry matters; a console at the last level shows nothing. -/
inductive Level where
  | trace
  | debug
  | info
  | warn
  | error
  | disabled
  deriving DecidableEq, Repr

namespace Level

/-- Levels in order. -/
def rank : Level → Nat
  | .trace => 0
  | .debug => 1
  | .info => 2
  | .warn => 3
  | .error => 4
  | .disabled => 5

/-- The name of a level. -/
def name : Level → String
  | .trace => "trace"
  | .debug => "debug"
  | .info => "info"
  | .warn => "warn"
  | .error => "error"
  | .disabled => "disabled"

/-- The level in front of a line. -/
def label : Level → String
  | .trace => "TRC"
  | .debug => "DBG"
  | .info => "INF"
  | .warn => "WRN"
  | .error => "ERR"
  | .disabled => ""

/-- The level called so, in any case of its letters. -/
def ofName? (raw : String) : Option Level :=
  match Text.lowerCase (Text.trim raw) with
  | "trace" => some .trace
  | "debug" => some .debug
  | "info" => some .info
  | "warn" | "warning" => some .warn
  | "error" => some .error
  | "disabled" | "off" | "none" => some .disabled
  | _ => none

end Level

/-! ## Consoles -/

/-- How a console shows entries. -/
structure Console where
  level : Level
  /-- Lines start with the time. -/
  timestamp : Bool
  noColor : Bool
  deriving DecidableEq, Repr

/-- What a console is for. -/
inductive Profile where
  | runtime
  | test
  deriving DecidableEq, Repr

/-- The console of a profile. -/
def Profile.console : Profile → Console
  | .runtime => ⟨.info, true, false⟩
  | .test => ⟨.debug, false, true⟩

/-- A truth value in the spellings that are common in environments. -/
def truth? (raw : String) : Option Bool :=
  let word := Text.trim raw
  if ["1", "t", "T", "TRUE", "true", "True"].contains word then some true
  else if ["0", "f", "F", "FALSE", "false", "False"].contains word then some false
  else none

/-- The variable that sets the level. -/
def levelVariable : String := "PDUGEN_LOG_LEVEL"

/-- The variable that asks for the time. -/
def timestampVariable : String := "PDUGEN_LOG_TIMESTAMP"

/-- The variable that asks for no colour. -/
def noColorVariable : String := "PDUGEN_LOG_NOCOLOR"

/-- A console as the environment asks for; what it does not say in a known way stays as it is. -/
def Console.applyEnv (c : Console) (env : String → String) : Console where
  level := (Level.ofName? (env levelVariable)).getD c.level
  timestamp := (truth? (env timestampVariable)).getD c.timestamp
  noColor := (truth? (env noColorVariable)).getD c.noColor

/-- The console of a profile at a given level, if that is one, as the environment asks for. -/
def Profile.configured (p : Profile) (level : String) (env : String → String) : Console :=
  let c := p.console
  ({ c with level := (Level.ofName? level).getD c.level } : Console).applyEnv env

/-! ## Entries -/

/-- A value of an entry. -/
inductive Value where
  | number (n : Int)
  | text (s : String)
  deriving DecidableEq, Repr

/-- What a run says. -/
structure Entry where
  level : Level
  message : String
  values : List (String × Value)
  deriving DecidableEq, Repr

/-- Who speaks: a value of every entry. -/
def speaker : String × Value := ("app", .text "pdu-generator")

/-- A text that is shown between quotes: it has blanks, quotes, backslashes, or anything else than
visible ASCII. -/
def needsQuotes (s : String) : Bool :=
  s.toList.any fun c => decide (c.toNat ≤ 0x20 ∨ 0x7e < c.toNat) || c == '\\' || c == '"'

/-- A value as it is shown. -/
def Value.shown : Value → String
  | .number n => toString n
  | .text s => if needsQuotes s then Text.quoted s else s

/-- The line of an entry. -/
def Entry.line (e : Entry) : String :=
  let values := (speaker :: e.values).mergeSort fun a b => a.1 ≤ b.1
  let parts := [e.level.label, e.message].filter (!·.isEmpty)
  Text.joinWith " " (parts ++ values.map fun (name, v) => name ++ "=" ++ v.shown) ++ "\n"

/-- The entry is shown on a console of a level. -/
def Entry.isShown (level : Level) (e : Entry) : Bool :=
  e.level != .disabled && decide (level.rank ≤ e.level.rank)

/-- What a console of a level shows of some entries. -/
def render (level : Level) (entries : List Entry) : String :=
  String.join ((entries.filter (Entry.isShown level)).map Entry.line)

/-- The level below which nothing is shown anywhere, after a console was set up: it only ever
goes down. -/
def globalLevel (before : Level) (c : Console) : Level :=
  if c.level.rank < before.rank then c.level else before

end WireSchema.Log
