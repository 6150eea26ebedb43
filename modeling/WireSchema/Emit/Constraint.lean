import WireSchema.Text.Blank
import WireSchema.Text.Letter

/-!
# Build constraints

A line `+build` in a comment says when a file is compiled.  It is a disjunction of clauses, its
words; a clause is a conjunction of terms, parted by commas; a term is a tag, or a tag denied by an
exclamation mark.  Several such lines hold together.

`block` gives what stands at the top of a file for the lines found in it: their meaning as one
expression, and the same meaning in lines of the old form.  Lines that are too long to be
understood are moved there as they are.
-/

namespace WireSchema.Emit

/-- A condition on one tag. -/
structure Term where
  negated : Bool
  tag : String
  deriving DecidableEq, Repr

/-- The disjunction of its clauses; a clause is the conjunction of its terms. -/
abbrev Constraint := List (List Term)

namespace Term

/-- The term that never holds: no system has this tag. -/
def never : Term := ⟨false, "ignore"⟩

/-- A tag has letters, digits, underscores and points. -/
def isTag (cs : List Char) : Bool :=
  cs.all fun c => Text.isLetter c || Text.isDecimalDigit c || c == '_' || c == '.'

/-- A term as it stands between commas.  What is no tag counts as one that no system has. -/
def ofChars : List Char → Term
  | ['!'] => never
  | '!' :: '!' :: _ => never
  | '!' :: cs => { (if isTag cs then ⟨false, String.ofList cs⟩ else never) with negated := true }
  | cs => if isTag cs then ⟨false, String.ofList cs⟩ else never

/-- The text of a term. -/
def text (t : Term) : String := if t.negated then "!" ++ t.tag else t.tag

end Term

namespace Constraint

/-- The mark a constraint starts with. -/
def mark : String := "+build"

/-- What a comment line says after the mark, if it is a constraint. -/
def body? (comment : String) : Option String :=
  let cs := (Text.trim comment).toList
  if !mark.toList.isPrefixOf cs then none
  else
    match cs.drop mark.length with
    | [] => some ""
    | c :: rest => if Text.isBlank c then some (String.ofList rest) else none

/-- How many operators one line can have. -/
def maxOperators : Nat := 100

/-- The constraint of a line.  One without clauses never holds, and one with too many operators
is not understood. -/
def ofBody? (body : String) : Option Constraint :=
  let clauses := (Text.words body).map fun w =>
    (Text.splitBy (· == ',') w.toList).map Term.ofChars
  if clauses.isEmpty then some [[.never]]
  else if clauses.flatten.length ≤ maxOperators + 1 then some clauses
  else none

/-- A text, in brackets where it needs them. -/
def bracketIf (needed : Bool) (s : String) : String := if needed then "(" ++ s ++ ")" else s

/-- The expression of a constraint. -/
def expression (c : Constraint) : String :=
  Text.joinWith " || " <| c.map fun clause =>
    bracketIf (decide (1 < c.length ∧ 1 < clause.length))
      (Text.joinWith " && " (clause.map Term.text))

/-- The expression of constraints that hold together. -/
def conjunction (cs : List Constraint) : String :=
  Text.joinWith " && " <| cs.map fun c =>
    bracketIf (decide (1 < cs.length ∧ 1 < c.length)) c.expression

/-- A constraint in the old form. -/
def line (c : Constraint) : String :=
  "// " ++ mark ++ String.join (c.map fun clause =>
    " " ++ Text.joinWith "," (clause.map Term.text))

/-- Constraints that hold together, each with a single term or with a choice. -/
def parts (cs : List Constraint) : List Constraint :=
  cs.flatMap fun
    | [clause] => clause.map fun t => [[t]]
    | c => [c]

/-- The lines of the old form.  Terms that just hold together share one line. -/
def lines (cs : List Constraint) : List String :=
  let ps := parts cs
  if ps.all (·.length == 1) then [line [ps.flatten.flatten]] else ps.map line

/-- A tag without a name, as before a comma, makes an expression that cannot be read back. -/
def isReadable (cs : List Constraint) : Bool :=
  cs.all fun c => c.all fun clause => clause.all fun t => !t.tag.isEmpty

/-- The lines at the top of a file whose comments hold constraints; `indented` says that one of
them stands inside a declaration.  Those are read a second time where they were moved to, so
their expression is the last thing written; the others have theirs read back, and one that
cannot be read back loses the blanks at its end. -/
def block (comments : List String) (indented : Bool) : List String :=
  match comments.mapM fun c => (body? c).bind ofBody? with
  | none => comments.map ("// " ++ ·)
  | some cs =>
      let out := ("//go:build " ++ conjunction cs) :: lines cs
      if indented || isReadable cs then out
      else out.map fun l => String.ofList (Text.trimEnd Text.isBlank l.toList)

end Constraint

end WireSchema.Emit
