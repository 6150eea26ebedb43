import Mathlib
import WireSchema.Emit.Reading

/-!
# The words of the reading method

A line of generated code is a text.  What it says about local variables is read off its words: a
word behind a dot is a part of something, any other is a name; a line of a body declares the name it
starts with if `:=` follows.  `ReadStmt.code` gives the lines of a statement in words, and the words
spell the lines (`spelled`).

The names that are filled in are words of their own, whatever characters they have: the name of a
type is not looked at before the file of that type is emitted.

## Main results

* `spelled` — the lines of the reading method, blank ones aside, are spelled by its words.
-/

namespace WireSchema.Emit

/-- A piece of a line of code. -/
inductive Token where
  /-- A name, a reserved word or a number. -/
  | word (text : String)
  /-- The dot before a part of something. -/
  | dot
  /-- Other marks, with the blanks around them. -/
  | mark (text : String)
  deriving DecidableEq, Repr

namespace Token

/-- The text of a piece. -/
@[simp] def text : Token → String
  | .word s | .mark s => s
  | .dot => "."

/-- The words that do not stand behind a dot. -/
@[simp] def names : List Token → List String
  | [] => []
  | .dot :: .word _ :: rest => names rest
  | .word s :: rest => s :: names rest
  | .dot :: rest | .mark _ :: rest => names rest

/-- A part of something is named. -/
@[simp] def selects (whole part : String) : List Token → Bool
  | .word a :: .dot :: .word b :: rest =>
      (a == whole && b == part) || selects whole part (.word b :: rest)
  | _ :: rest => selects whole part rest
  | [] => false

/-- No two words stand side by side. -/
def separated : List Token → Bool
  | .word _ :: .word _ :: _ => false
  | _ :: rest => separated rest
  | [] => true

/-- A text without the characters of words and without dots. -/
def isMarks (s : String) : Bool := s.toList.all fun c => c != '.' && !continuesIdent c

/-- A text of the characters of words. -/
def isLetters (s : String) : Bool := !s.toList.isEmpty && s.toList.all continuesIdent

/-- A piece is what it seems to be: a word has the characters of words, unless it is one of `types`
or makes a message of one, and marks have none of these. -/
def Fits (types : List String) : Token → Prop
  | .word s => isLetters s = true ∨ ∃ type ∈ types, s = type ∨ s = "New" ++ type
  | .dot => True
  | .mark s => isMarks s = true

section Fits

variable {types : List String} {s : String}

theorem fits_dot : Token.dot.Fits types := trivial

theorem fits_mark (h : isMarks s = true) : (Token.mark s).Fits types := h

theorem fits_word (h : isLetters s = true) : (Token.word s).Fits types := .inl h

theorem fits_type (h : s ∈ types) : (Token.word s).Fits types := .inr ⟨s, h, .inl rfl⟩

theorem fits_new (h : s ∈ types) : (Token.word ("New" ++ s)).Fits types := .inr ⟨s, h, .inr rfl⟩

end Fits

theorem isLetters_of_isWord {s : String} (h : isWord s.toList = true) : isLetters s = true := by
  rw [isLetters]
  cases hs : s.toList with
  | nil =>
      rw [hs] at h
      cases h
  | cons c cs =>
      rw [hs, isWord, Bool.and_eq_true] at h
      rw [List.all_cons, continuesIdent, h.1, h.2]
      rfl

theorem isLetters_accessor (k : Kind) : isLetters k.accessor = true := by cases k <;> decide +kernel

end Token

/-- A line of a body in pieces. -/
structure CodeLine where
  depth : Nat
  tokens : List Token
  deriving DecidableEq, Repr

namespace CodeLine

/-- The line that the pieces spell. -/
def line (c : CodeLine) : Line := .code c.depth (String.ofList (c.tokens.flatMap (·.text.toList)))

/-- The pieces are those that the text of the line falls into. -/
structure Fits (types : List String) (c : CodeLine) : Prop where
  tokens : ∀ t ∈ c.tokens, t.Fits types
  separated : Token.separated c.tokens = true

/-- The variable that a line declares for the rest of the body. -/
def local? (c : CodeLine) : Option String :=
  match c.tokens with
  | .word v :: .mark s :: _ => if c.depth = 1 ∧ s = " := " then some v else none
  | _ => none

/-- The names that a line uses: all but the one it declares. -/
def uses (c : CodeLine) : List String :=
  Token.names (if c.local?.isSome then c.tokens.drop 1 else c.tokens)

/-- The field that a line sets. -/
def target? (c : CodeLine) : Option String :=
  match c.tokens with
  | .word a :: .dot :: .word f :: .mark s :: _ => if a = "m" ∧ s = " = " then some f else none
  | _ => none

/-- The line asks the reader how long a list may be. -/
def asks (c : CodeLine) : Bool := Token.selects "r" "Count" c.tokens

end CodeLine

/-- The variables that the lines of a body declare, in order. -/
def locals (code : List CodeLine) : List String := code.filterMap CodeLine.local?

/-! ## Statements in words -/

/-- A line put together from parts. -/
@[simp] def codeLine (depth : Nat) (parts : List (List Token)) : CodeLine := ⟨depth, parts.flatten⟩

/-- A field of the message. -/
@[simp] def fieldTokens (field : String) : List Token := [.word "m", .dot, .word field]

/-- An element of a field. -/
@[simp] def elementTokens (field : String) : List Token :=
  [.word "m", .dot, .word field, .mark "[", .word "i", .mark "]"]

/-- The number that is read next. -/
@[simp] def readTokens (read : String) : List Token := [.word "r", .dot, .word read, .mark "()"]

/-- What reads itself. -/
@[simp] def fillTokens : List Token :=
  [.dot, .word "UnmarshalWire", .mark "(", .word "r", .mark ")"]

/-- The vetted length of a list. -/
@[simp] def countTokens (n width : String) : List Token :=
  [.word "r", .dot, .word "Count", .mark "(", .word "uint64", .mark "(", .word n, .mark "), ",
    .word width, .mark ")"]

/-- A call whose error is returned. -/
@[simp] def checkedCode (depth : Nat) (target : List Token) : List CodeLine :=
  [ codeLine depth
      [[.word "if", .mark " ", .word "err", .mark " := "], target, fillTokens,
        [.mark "; ", .word "err", .mark " != ", .word "nil", .mark " \x7b"]],
    ⟨depth + 1, [.word "return", .mark " ", .word "err"]⟩, ⟨depth, [.mark "\x7d"]⟩]

/-- The head of a loop over the elements of a field. -/
@[simp] def eachCode (field : String) : CodeLine :=
  codeLine 1
    [[.word "for", .mark " ", .word "i", .mark " := ", .word "range", .mark " "],
      fieldTokens field, [.mark " \x7b"]]

/-- The head of a loop that is run as often as something says. -/
@[simp] def timesCode (number : List Token) : CodeLine :=
  codeLine 1 [[.word "for", .mark " ", .word "range", .mark " "], number, [.mark " \x7b"]]

/-- The end of a loop. -/
@[simp] def closeCode : CodeLine := ⟨1, [.mark "\x7d"]⟩

/-- An element is added to a field. -/
@[simp] def appendCode (field : String) (element : List Token) : CodeLine :=
  codeLine 2
    [fieldTokens field, [.mark " = ", .word "append", .mark "("], fieldTokens field, element,
      [.mark ")"]]

/-- The lines of a statement in words, blank ones aside. -/
def ReadStmt.code : ReadStmt → List CodeLine
  | .parent type => checkedCode 1 (fieldTokens type)
  | .assign field read => [codeLine 1 [fieldTokens field, [.mark " = "], readTokens read]]
  | .skip read => [codeLine 1 [[.word "_", .mark " = "], readTokens read]]
  | .count v read => [codeLine 1 [[.word v, .mark " := "], readTokens read]]
  | .fill field => checkedCode 1 (fieldTokens field)
  | .fillEach field => eachCode field :: (checkedCode 2 (elementTokens field)).concat closeCode
  | .assignEach field read =>
      [ eachCode field, codeLine 2 [elementTokens field, [.mark " = "], readTokens read],
        closeCode]
  | .messages field type n =>
      codeLine 1 [fieldTokens field, [.mark " = ", .word "nil"]] ::
        timesCode (countTokens n "0") ::
          ⟨2, [.word "e", .mark " := ", .word ("New" ++ type), .mark "()"]⟩ ::
            (checkedCode 2 [.word "e"]).append
              [appendCode field [.mark ", *", .word "e"], closeCode]
  | .numbers field n length t =>
      [ codeLine 1 [[.word length, .mark " := "], countTokens n (toString t.wireBytes)],
        codeLine 1
          [fieldTokens field, [.mark " = ", .word "make", .mark "([]", .word t.kind.typeName,
            .mark ", ", .word "0", .mark ", ", .word length, .mark ")"]],
        timesCode [.word length],
        appendCode field (.mark ", " :: readTokens t.kind.accessor), closeCode]

/-- The lines of some statements in words. -/
def bodyCode (stmts : List ReadStmt) : List CodeLine := stmts.flatMap ReadStmt.code

theorem bodyCode_cons (s : ReadStmt) (stmts : List ReadStmt) :
    bodyCode (s :: stmts) = s.code ++ bodyCode stmts := List.flatMap_cons

/-- The names that are filled into a statement, types aside. -/
def ReadStmt.words : ReadStmt → List String
  | .parent _ => []
  | .assign field read | .assignEach field read => [field, read]
  | .skip read => [read]
  | .count v read => [v, read]
  | .fill field | .fillEach field => [field]
  | .messages field _ n => [field, n]
  | .numbers field n length _ => [field, n, length]

/-- The types that are filled into a statement. -/
def ReadStmt.types : ReadStmt → List String
  | .parent type | .messages _ type _ => [type]
  | _ => []

/-- The lines with something on them. -/
def written (lines : List Line) : List Line := lines.filter fun l => !l.isBlank

theorem written_append (before after : List Line) :
    written (before ++ after) = written before ++ written after := List.filter_append ..

theorem code_eq_line {d : Nat} {t : String} {ts : List Token}
    (h : t.toList = ts.flatMap (·.text.toList)) : Line.code d t = CodeLine.line ⟨d, ts⟩ := by
  rw [CodeLine.line, ← h, String.ofList_toList]

/-- The words of a statement spell its lines. -/
theorem ReadStmt.spelled (s : ReadStmt) : written s.lines = s.code.map CodeLine.line := by
  cases s <;>
    simp [ReadStmt.lines, ReadStmt.code, written, checked, block, stmt, Line.isBlank]
  all_goals
    repeat' apply And.intro
  all_goals
    refine code_eq_line ?_
    simp

/-- The words of a statement are those that its lines fall into. -/
theorem ReadStmt.fits {types : List String} (s : ReadStmt)
    (hwords : ∀ w ∈ s.words, Token.isLetters w = true) (htypes : ∀ type ∈ s.types, type ∈ types) :
    ∀ c ∈ s.code, c.Fits types := by
  have hfixed : ∀ w ∈ ["if", "err", "m", "r", "nil", "return", "for", "i", "range", "_", "append",
      "e", "uint64", "make", "0", "Count", "UnmarshalWire"], Token.isLetters w = true := by
    decide +kernel
  have hmarks : ∀ w ∈ [" ", " := ", " = ", " != ", "; ", ", ", ", *", "(", ")", "()", "), ", "([]",
      "[", "]", " \x7b", "\x7d"], Token.isMarks w = true := by decide
  have hkind : ∀ k : Kind,
      Token.isLetters k.typeName = true ∧ Token.isLetters k.bytes.repr = true := by
    intro k
    cases k <;> decide +kernel
  have hpieces : ∀ c ∈ s.code, ∀ t ∈ c.tokens, t.Fits types := by
    simp only [List.forall_mem_cons] at hfixed hmarks
    cases s <;> simp [words] at hwords <;> simp [ReadStmt.types] at htypes <;>
      simp [code, Token.fits_dot, Token.fits_mark, Token.fits_word, Token.fits_type,
        Token.fits_new, Token.isLetters_accessor, hfixed, hmarks, hwords, htypes, hkind,
        Primitive.wireBytes]
  have hseparated : ∀ c ∈ s.code, Token.separated c.tokens = true := by
    cases s <;> simp [code, Token.separated]
  exact fun c hc => ⟨hpieces c hc, hseparated c hc⟩

theorem ReadStmt.written_linesAfter (before : List Line) (s : ReadStmt) :
    written (s.linesAfter before) = written before ++ s.code.map CodeLine.line := by
  have hblank : written [.blank] = [] := rfl
  have hgap : written (gapAfter before) = [] := by
    unfold gapAfter
    split <;> rfl
  rw [← s.spelled]
  cases s <;> simp [linesAfter, written_append, hgap, hblank]

/-- **The words of some statements spell the lines of the reading method.** -/
theorem spelled (stmts : List ReadStmt) :
    written (readLines stmts) = (bodyCode stmts).map CodeLine.line := by
  suffices h : ∀ before : List Line, written (stmts.foldl ReadStmt.linesAfter before) =
      written before ++ (bodyCode stmts).map CodeLine.line from h []
  induction stmts with
  | nil => simp [bodyCode]
  | cons s stmts ih =>
      intro before
      rw [List.foldl_cons, ih, s.written_linesAfter, List.append_assoc, ← List.map_append]
      rfl

end WireSchema.Emit
