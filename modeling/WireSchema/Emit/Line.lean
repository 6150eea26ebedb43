import WireSchema.Emit.Constraint
import WireSchema.Emit.DocComment
import WireSchema.Emit.Ident

/-!
# Lines of generated source

A generated file is a list of lines that know what they are, so that it can be written in two
ways: as it was put together (`Line.drafts`) and in the standard layout (`format`).  In the standard
layout the types of neighbouring fields stand in one column and so do the notes behind them, a blank
line is never repeated and never the last of a block, comments have no carriage returns and no
blanks at their end, and build constraints stand at the top.  Comments are laid out twice: before
the constraints leave them and after that.
-/

namespace WireSchema.Emit

/-- A line of a generated file. -/
inductive Line where
  | blank
  | code (depth : Nat) (text : String)
  | comment (depth : Nat) (text : String)
  /-- A field of a record type, with a note behind it unless that is empty. -/
  | field (name type note : String)
  /-- A list literal with one item a line. -/
  | literal (head : String) (items : List String)
  deriving DecidableEq, Repr

/-- Tabs for an indentation. -/
def tabs (depth : Nat) : String := String.ofList (List.replicate depth '\t')

/-- A head with an opening brace, a body, and a closing brace. -/
def block (depth : Nat) (head : String) (body : List Line) : List Line :=
  .code depth (head ++ " \x7b") :: body ++ [.code depth "\x7d"]

namespace Line

/-- The line as it was put together. -/
def drafts : Line → List String
  | .blank => [""]
  | .code d t => [tabs d ++ t]
  | .comment d t => [tabs d ++ "// " ++ t]
  | .field n t note => ["\t" ++ n ++ " " ++ t ++ (if note.isEmpty then "" else " // " ++ note)]
  | .literal head items => (head ++ "\x7b") :: items.map (fun i => "\t" ++ i ++ ",") ++ ["\x7d"]

/-- A line with nothing on it. -/
def isBlank : Line → Bool
  | .blank => true
  | .code _ t => t.isEmpty
  | _ => false

/-- A line that closes a block. -/
def closes : Line → Bool
  | .code _ t => t.startsWith "\x7d" || t.startsWith ")"
  | _ => false

end Line

/-- A file as it was put together. -/
def draft (lines : List Line) : String :=
  String.join ((lines.flatMap Line.drafts).map (· ++ "\n"))

/-- A text without its carriage returns and without blanks at its end. -/
def commentText (text : String) : String :=
  String.ofList (Text.trimEnd Text.isBlank (text.toList.filter (· ≠ '\r')))

/-- Drops blank lines that repeat one or stand at the end of a block; `keep` says whether a blank
line may follow what stands before. -/
def squeeze : (keep : Bool) → List Line → List Line
  | _, [] => []
  | keep, l :: rest =>
      if l.isBlank then
        let follows := (rest.find? fun m => !m.isBlank).map (·.closes)
        if keep && follows == some false then .blank :: squeeze false rest else squeeze keep rest
      else l :: squeeze true rest

/-- A text padded with blanks to a width. -/
def padded (width : Nat) (s : String) : String :=
  s ++ String.ofList (List.replicate (width - s.length) ' ')

/-- The run of fields at the front, and the rest. -/
def frontFields : List Line → List (String × String × String) × List Line
  | .field n t note :: rest =>
      let (fs, more) := frontFields rest
      ((n, t, note) :: fs, more)
  | lines => ([], lines)

/-- The width of the widest of some texts. -/
def widest (texts : List String) : Nat := (texts.map String.length).foldl Nat.max 0

/-- The fields with a note at the front, and the rest. -/
def frontNoted : List (String × String × String) →
    List (String × String × String) × List (String × String × String)
  | f :: rest =>
      if f.2.2.isEmpty then ([], f :: rest)
      else
        let (fs, more) := frontNoted rest
        (f :: fs, more)
  | [] => ([], [])

/-- Each field with the width its type takes before a note: the widest of the neighbouring fields
with notes. -/
def noteWidths (fields : List (String × String × String)) : List Nat :=
  let rec go : List (String × String × String) → Nat → List Nat
    | [], _ => []
    | f :: rest, before =>
        if f.2.2.isEmpty then 0 :: go rest 0
        else
          let here :=
            if before = 0 then widest ((frontNoted (f :: rest)).1.map (·.2.1)) else before
          here :: go rest here
  go fields 0

/-- The lines of neighbouring fields. -/
def fieldLines (fields : List (String × String × String)) : List String :=
  let width := widest (fields.map (·.1))
  (fields.zip (noteWidths fields)).map fun ((n, t, note), typeWidth) =>
    "\t" ++ padded (width + 1) n ++
      (if note.isEmpty then t else padded (typeWidth + 1) t ++ "// " ++ note)

/-- The comment at the outer level at the front, and the rest. -/
def frontComment : List Line → List String × List Line
  | .comment 0 t :: rest =>
      let (ts, more) := frontComment rest
      (t :: ts, more)
  | lines => ([], lines)

theorem length_frontFields (lines : List Line) :
    (frontFields lines).2.length + (frontFields lines).1.length = lines.length := by
  fun_induction frontFields lines with
  | case1 n t note rest fs more h ih => simp_all; omega
  | case2 => simp

theorem length_frontComment (lines : List Line) :
    (frontComment lines).2.length + (frontComment lines).1.length = lines.length := by
  fun_induction frontComment lines with
  | case1 t rest ts more h ih => simp_all; omega
  | case2 => simp

/-- Whether a comment is documentation: a declaration follows, and the comment ends right before
it.  Where a comment ends is told by its text without carriage returns, so one in its last line
leaves a gap. -/
def isDocumentation (texts : List String) (rest : List Line) : Bool :=
  (match rest.head? with
    | some l => !l.isBlank
    | none => false) && !((texts.getLast?.getD "").toList.contains '\r')

/-- A comment at the outer level. -/
def outerComment (texts : List String) (rest : List Line) : List Line :=
  let plain := texts.map commentText
  (if isDocumentation texts rest then DocComment.format plain else plain).map (.comment 0)

/-- The lines with their comments laid out. -/
def layComments : List Line → List Line
  | [] => []
  | .comment 0 t :: rest =>
      have := length_frontComment rest
      outerComment (t :: (frontComment rest).1) (frontComment rest).2 ++
        layComments (frontComment rest).2
  | .comment (d + 1) t :: rest => .comment (d + 1) (commentText t) :: layComments rest
  | l :: rest => l :: layComments rest
termination_by lines => lines.length
decreasing_by
  all_goals simp only [List.length_cons]
  all_goals omega

/-- The depth and the text of a comment that is a build constraint. -/
def Line.constraint? : Line → Option (Nat × String)
  | .comment d t => (Constraint.body? t).map fun _ => (d, t)
  | _ => none

/-- The lines with the build constraints of all comments moved behind the first blank line, where
the mark of the file ends. -/
def hoistConstraints (lines : List Line) : List Line :=
  let found := lines.filterMap Line.constraint?
  if found.isEmpty then lines
  else
    let others := lines.filter fun l => l.constraint?.isNone
    let top := others.takeWhile fun l => !l.isBlank
    let block := Constraint.block (found.map (·.2)) (found.any fun f => decide (0 < f.1))
    top ++ .blank :: block.map (.code 0) ++ others.drop top.length

/-- The lines in the standard layout; comments and blank lines are already in order. -/
def layout : List Line → List String
  | [] => []
  | .blank :: rest => "" :: layout rest
  | .code d t :: rest => (tabs d ++ t) :: layout rest
  | .comment d t :: rest => (tabs d ++ (if t.isEmpty then "//" else "// " ++ t)) :: layout rest
  | .literal head items :: rest =>
      (if items.isEmpty then [head ++ "\x7b\x7d"] else (Line.literal head items).drafts) ++
        layout rest
  | .field n t note :: rest =>
      have := length_frontFields rest
      fieldLines ((n, t, note) :: (frontFields rest).1) ++ layout (frontFields rest).2
termination_by lines => lines.length
decreasing_by
  all_goals simp only [List.length_cons]
  all_goals omega

/-- A file in the standard layout. -/
def format (lines : List Line) : String :=
  let lines := squeeze false (layComments (hoistConstraints (layComments lines)))
  String.join ((layout lines).map (· ++ "\n"))

/-- No comment holds a character that source text must not hold. -/
def commentsFit (lines : List Line) : Bool :=
  lines.all fun
    | .comment _ t => !t.toList.any isForbidden
    | _ => true

end WireSchema.Emit
