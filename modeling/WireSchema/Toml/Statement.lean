import WireSchema.Text.Utf8
import WireSchema.Toml.Literal

/-!
# Statements of a settings file

A settings file is a list of statements, each on a line of its own: the head of a table, the head of
one more table of a list of tables, or an assignment.  Texts stand between single quotes, where
nothing is escaped, or double quotes; three quotes open a text of several lines.
-/

namespace WireSchema.Toml

/-- A line that says something. -/
inductive Statement where
  | table (key : Key)
  | tables (key : Key)
  | assign (key : Key) (value : Value)
  deriving Repr

/-- A space or a tab. -/
def isSpace (c : Char) : Bool := c == ' ' || c == '\t'

/-- A space, a tab, or a character that ends a line. -/
def isSpaceOrBreak (c : Char) : Bool := isSpace c || c == '\n' || c == '\r'

/-- Every character may stand in a settings file: there are no control characters, and a carriage
return only ends a line. -/
def isLegal : List Char → Bool
  | [] => true
  | '\r' :: '\n' :: rest => isLegal rest
  | c :: rest =>
      (c == '\t' || c == '\n' || (decide (32 ≤ c.toNat) && c.toNat != 127)) && isLegal rest

/-- What follows a comment: the end of its line and all lines after it. -/
def afterComment (cs : List Char) : List Char := cs.dropWhile fun c => c != '\n' && c != '\r'

/-- The value of exactly `width` digits in base sixteen. -/
def hexNumber (width : Nat) (cs : List Char) : Option (Nat × List Char) :=
  let ds := cs.take width
  if ds.length = width then
    (ds.foldlM (fun n c => do
      let v ← Number.digitValue c
      if v < 16 then some (n * 16 + v) else none) 0).map (·, cs.drop width)
  else none

/-- The character an escape stands for, and the rest. -/
def readEscape : List Char → Option (Char × List Char)
  | 'b' :: rest => some ('\x08', rest)
  | 't' :: rest => some ('\t', rest)
  | 'n' :: rest => some ('\n', rest)
  | 'f' :: rest => some ('\x0c', rest)
  | 'r' :: rest => some ('\r', rest)
  | 'e' :: rest => some ('\x1b', rest)
  | '"' :: rest => some ('"', rest)
  | '\\' :: rest => some ('\\', rest)
  | 'x' :: rest => coded 2 rest
  | 'u' :: rest => coded 4 rest
  | 'U' :: rest => coded 8 rest
  | _ => none
where
  /-- A character by its number. -/
  coded (width : Nat) (cs : List Char) : Option (Char × List Char) := do
    let (n, rest) ← hexNumber width cs
    if n.isValidChar then return (Char.ofNat n, rest) else none

/-- Reads a text on one line up to its closing quote. -/
def readLineText (quote : Char) : (fuel : Nat) → List Char → Option (List Char × List Char)
  | 0, _ => none
  | _ + 1, [] => none
  | fuel + 1, c :: cs =>
      if c = quote then some ([], cs)
      else if c = '\n' ∨ c = '\r' then none
      else do
        let (d, rest) ← if c = '\\' ∧ quote = '"' then readEscape cs else some (c, cs)
        let (text, rest) ← readLineText quote fuel rest
        return (d :: text, rest)

/-- After a backslash at the end of a line: the next character that is no space and ends no line. -/
def afterFold? (cs : List Char) : Option (List Char) :=
  if (cs.takeWhile isSpaceOrBreak).contains '\n' then some (cs.dropWhile isSpaceOrBreak) else none

/-- How many quotes may stand together at the end of a text of several lines: the closing three and
two more, and after a backslash that stands for itself another one. -/
def quotesAtEnd (afterBackslash : Bool) : Nat := if afterBackslash then 6 else 5

/-- Reads a text of several lines up to its closing quotes.  `afterBackslash` says that the
character before was an escaped backslash. -/
def readLongText (quote : Char) :
    (fuel : Nat) → (afterBackslash : Bool) → List Char → Option (List Char × List Char)
  | 0, _, _ => none
  | _ + 1, _, [] => none
  | fuel + 1, afterBackslash, c :: cs =>
      if c = quote then
        let run := (c :: cs).takeWhile (· == quote)
        let rest := (c :: cs).dropWhile (· == quote)
        if run.length < 3 then do
          let (text, rest) ← readLongText quote fuel false rest
          return (run ++ text, rest)
        else if run.length ≤ quotesAtEnd afterBackslash then some (run.drop 3, rest)
        else none
      else if c = '\\' ∧ quote = '"' then
        match afterFold? cs with
        | some rest => readLongText quote fuel false rest
        | none => do
            let (d, rest) ← readEscape cs
            let (text, rest) ← readLongText quote fuel (cs.head? == some '\\') rest
            return (d :: text, rest)
      else do
        let (text, rest) ← readLongText quote fuel false cs
        return (c :: text, rest)

/-- Reads a text after its first quote. -/
def readText (quote : Char) (fuel : Nat) (cs : List Char) : Option (String × List Char) :=
  let read :=
    match cs with
    | a :: b :: rest =>
        if a = quote ∧ b = quote then
          match rest with
          | '\n' :: rest => readLongText quote fuel false rest
          | rest => readLongText quote fuel false rest
        else readLineText quote fuel cs
    | cs => readLineText quote fuel cs
  read.map fun (text, rest) => (String.ofList text, rest)

/-- Reads the parts of a key. -/
def readKey : (fuel : Nat) → List Char → Option (Key × List Char)
  | 0, _ => none
  | fuel + 1, cs => do
      let cs := cs.dropWhile isSpace
      let (part, rest) ←
        match cs with
        | '"' :: rest => readLineText '"' fuel rest
        | '\'' :: rest => readLineText '\'' fuel rest
        | cs =>
            if (cs.takeWhile isBare).isEmpty then none
            else some (cs.takeWhile isBare, cs.dropWhile isBare)
      match rest.dropWhile isSpace with
      | '.' :: rest => do
          let (parts, rest) ← readKey fuel rest
          return (String.ofList part :: parts, rest)
      | rest => return ([String.ofList part], rest)

/-- Skips spaces, line ends and comments. -/
def skipGaps : (fuel : Nat) → List Char → List Char
  | 0, cs => cs
  | fuel + 1, cs =>
      match cs.dropWhile isSpaceOrBreak with
      | '#' :: rest => skipGaps fuel (afterComment rest)
      | rest => rest

mutual

/-- Reads a value. -/
def readValue : (fuel : Nat) → List Char → Option (Value × List Char)
  | 0, _ => none
  | fuel + 1, cs =>
      match cs.dropWhile isSpace with
      | '[' :: rest => do
          let (items, rest) ← readItems fuel rest
          return (.array items, rest)
      | '{' :: rest => do
          let (pairs, rest) ← readPairs fuel rest
          return (.inline pairs, rest)
      | '"' :: rest => (readText '"' fuel rest).map fun (s, rest) => (.text s, rest)
      | '\'' :: rest => (readText '\'' fuel rest).map fun (s, rest) => (.text s, rest)
      | '+' :: rest => readSigned '+' rest
      | '-' :: rest => readSigned '-' rest
      | 'i' :: 'n' :: 'f' :: rest => some (.float "inf", rest)
      | 'n' :: 'a' :: 'n' :: rest => some (.float "nan", rest)
      | 't' :: 'r' :: 'u' :: 'e' :: rest => some (.bool true, rest)
      | 'f' :: 'a' :: 'l' :: 's' :: 'e' :: rest => some (.bool false, rest)
      | c :: rest => if c.isDigit then readNumber (c :: rest) else none
      | [] => none

/-- Reads the items of a list up to its closing bracket. -/
def readItems : (fuel : Nat) → List Char → Option (List Value × List Char)
  | 0, _ => none
  | fuel + 1, cs =>
      match skipGaps fuel cs with
      | ']' :: rest => some ([], rest)
      | cs => do
          let (v, rest) ← readValue fuel cs
          match skipGaps fuel rest with
          | ',' :: rest => do
              let (items, rest) ← readItems fuel rest
              return (v :: items, rest)
          | ']' :: rest => return ([v], rest)
          | _ => none

/-- Reads the assignments of a table on the spot up to its closing brace. -/
def readPairs : (fuel : Nat) → List Char → Option (List (Key × Value) × List Char)
  | 0, _ => none
  | fuel + 1, cs =>
      match skipGaps fuel cs with
      | '}' :: rest => some ([], rest)
      | cs => do
          let (key, rest) ← readKey fuel cs
          let (v, rest) ← readValue fuel (← mark '=' rest)
          match skipGaps fuel rest with
          | ',' :: rest => do
              let (pairs, rest) ← readPairs fuel rest
              return ((key, v) :: pairs, rest)
          | '}' :: rest => return ([(key, v)], rest)
          | _ => none

end

/-- What follows a statement on its line: nothing but a comment. -/
def lineEnd (cs : List Char) : Option (List Char) :=
  match cs.dropWhile isSpace with
  | [] => some []
  | '\n' :: rest => some rest
  | '\r' :: rest => some rest
  | '#' :: rest => some (afterComment rest)
  | _ => none

/-- Reads one statement. -/
def readStatement (fuel : Nat) (cs : List Char) : Option (Statement × List Char) :=
  match cs with
  | '[' :: '[' :: rest => do
      let (key, rest) ← readKey fuel rest
      return (.tables key, ← mark ']' (← mark ']' rest))
  | '[' :: rest => do
      let (key, rest) ← readKey fuel rest
      return (.table key, ← mark ']' rest)
  | cs => do
      let (key, rest) ← readKey fuel cs
      let (v, rest) ← readValue fuel (← mark '=' rest)
      return (.assign key v, rest)

/-- Reads statements to the end. -/
def readStatements : (fuel : Nat) → List Char → Option (List Statement)
  | 0, _ => none
  | fuel + 1, cs =>
      match skipGaps fuel cs with
      | [] => some []
      | cs => do
          let (s, rest) ← readStatement fuel cs
          let more ← readStatements fuel (← lineEnd rest)
          return s :: more

/-- The characters of a settings file.  A byte order mark at the front is no part of it; whatever
encoding it is a mark of, the rest is UTF-8. -/
def charsOf? (bytes : List UInt8) : Option (List Char) :=
  let unmarked :=
    match bytes with
    | 0xff :: 0xfe :: rest | 0xfe :: 0xff :: rest | 0xef :: 0xbb :: 0xbf :: rest => rest
    | bytes => bytes
  (Text.ofBytes? unmarked).map (·.toList)

/-- The statements of a settings file. -/
def statements (bytes : List UInt8) : Option (List Statement) := do
  let cs ← charsOf? bytes
  if isLegal cs then readStatements (cs.length + 2) cs else none

end WireSchema.Toml
