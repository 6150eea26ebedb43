import WireSchema.Emit.Error
import WireSchema.Emit.Ident
import WireSchema.Emit.Line
import WireSchema.Plan

/-!
# The reading method

The body of the generated method that reads a message, as a list of statements.  Two of them declare
local variables: a count is kept until its list is read, and the vetted length of a list of numbers
is kept while the list is filled.

`readStmts` gives one statement per step of the plan; `readLines` writes them out.
-/

namespace WireSchema.Emit

/-- A statement at the first level of a body. -/
def stmt (text : String) : Line := .code 1 text

/-- A blank line, unless nothing stands before it. -/
def gapAfter (before : List Line) : List Line := if before.isEmpty then [] else [.blank]

/-- A call whose error is returned. -/
def checked (depth : Nat) (call : String) : List Line :=
  block depth ("if err := " ++ call ++ "; err != nil") [.code (depth + 1) "return err"]

/-- A statement of the reading method.  Fields, types and variables are given by their generated
names, and numbers by the method that reads them. -/
inductive ReadStmt where
  /-- Reads the parent part. -/
  | parent (type : String)
  /-- Reads a number into a field. -/
  | assign (field read : String)
  /-- Reads a number that is not needed. -/
  | skip (read : String)
  /-- Reads a count into a new variable. -/
  | count (var read : String)
  /-- Reads an embedded message. -/
  | fill (field : String)
  /-- Reads the messages of a fixed list. -/
  | fillEach (field : String)
  /-- Reads the numbers of a fixed list. -/
  | assignEach (field read : String)
  /-- Reads a variable list of messages, as many as the variable `count` says. -/
  | messages (field type count : String)
  /-- Reads a variable list of numbers, as many as the variable `count` says; their number is vetted
  and kept in the new variable `length`. -/
  | numbers (field count length : String) (type : Primitive)
  deriving DecidableEq, Repr

namespace ReadStmt

/-- The statement of a step; a list needs a count. -/
def ofStep (type : String) : Plan.DecodeStep → Except Error ReadStmt
  | .parent p => .ok (.parent (typeName p))
  | .primitive f t => .ok (.assign (fieldIdent f) t.kind.accessor)
  | .count f _ t discard =>
      .ok (if discard then .skip t.kind.accessor else .count (countVar f) t.kind.accessor)
  | .reference f _ => .ok (.fill (fieldIdent f))
  | .fixedList f _ (.message _) => .ok (.fillEach (fieldIdent f))
  | .fixedList f _ (.primitive t) => .ok (.assignEach (fieldIdent f) t.kind.accessor)
  | .variableList f e n =>
      if n.isEmpty then .error (.listWithoutCount type f)
      else
        match e with
        | .message c => .ok (.messages (fieldIdent f) (typeName c) (countVar n))
        | .primitive t => .ok (.numbers (fieldIdent f) (countVar n) (lengthVar f) t)

/-- The lines of a statement. -/
def lines : ReadStmt → List Line
  | .parent type => checked 1 ("m." ++ type ++ ".UnmarshalWire(r)")
  | .assign field read => [stmt ("m." ++ field ++ " = r." ++ read ++ "()")]
  | .skip read => [stmt ("_ = r." ++ read ++ "()")]
  | .count var read => [stmt (var ++ " := r." ++ read ++ "()")]
  | .fill field => checked 1 ("m." ++ field ++ ".UnmarshalWire(r)")
  | .fillEach field =>
      block 1 ("for i := range m." ++ field) (checked 2 ("m." ++ field ++ "[i].UnmarshalWire(r)"))
  | .assignEach field read =>
      block 1 ("for i := range m." ++ field)
        [.code 2 ("m." ++ field ++ "[i] = r." ++ read ++ "()")]
  | .messages field type n =>
      stmt ("m." ++ field ++ " = nil") ::
        block 1 ("for range r.Count(uint64(" ++ n ++ "), 0)")
          ([.code 2 ("e := New" ++ type ++ "()")] ++ checked 2 "e.UnmarshalWire(r)" ++
            [.code 1 "", .code 2 ("m." ++ field ++ " = append(m." ++ field ++ ", *e)")])
  | .numbers field n length t =>
      [ stmt (length ++ " := r.Count(uint64(" ++ n ++ "), " ++ toString t.wireBytes ++ ")"),
        stmt ("m." ++ field ++ " = make([]" ++ t.kind.typeName ++ ", 0, " ++ length ++ ")") ] ++
        block 1 ("for range " ++ length)
          [.code 2 ("m." ++ field ++ " = append(m." ++ field ++ ", r." ++ t.kind.accessor ++ "())")]

/-- The lines of a statement after those before it: a blank line follows the parent part and
precedes every variable list. -/
def linesAfter (before : List Line) (s : ReadStmt) : List Line :=
  match s with
  | .parent _ => before ++ s.lines ++ [.blank]
  | .messages .. | .numbers .. => before ++ gapAfter before ++ s.lines
  | _ => before ++ s.lines

end ReadStmt

/-- The statements that read a message. -/
def readStmts (p : Plan) : Except Error (List ReadStmt) := p.decode.mapM (ReadStmt.ofStep p.name)

/-- The body of the reading method. -/
def readLines (stmts : List ReadStmt) : List Line := stmts.foldl ReadStmt.linesAfter []

end WireSchema.Emit
