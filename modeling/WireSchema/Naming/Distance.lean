import WireSchema.Number.Binary

/-!
# Edit distance

The distance of two texts is the least number of insertions, deletions and substitutions of one
character that turn one into the other.  `editDistance` is the defining recursion.  `distance` gives
the last entry of a table that has a column for every front of one text and a row for every front of
the other.  Two rows are kept: each is written over the one before the last.

The similarity of two texts is one minus their distance over the longer length.  It is kept as an
exact quotient; `Score.pattern` is the double it is shown as.
-/

namespace WireSchema.Naming

/-- The least number of single-character edits, by recursion on both texts. -/
def editDistance [DecidableEq α] : List α → List α → Nat
  | [], bs => bs.length
  | as, [] => as.length
  | a :: as, b :: bs =>
      min (min (editDistance as (b :: bs) + 1) (editDistance (a :: as) bs + 1))
        (editDistance as bs + if a = b then 0 else 1)
termination_by as bs => as.length + bs.length

/-- A row of the table: an entry for every front of a text. -/
abbrev Row (as : List α) : Type := Vector Nat (as.length + 1)

/-- The rows that are kept: the last one filled, and the one to write over next. -/
structure Rows (as : List α) where
  filled : Row as
  spare : Row as

/-- Writes the entry behind the character at `i` in the row of `b`: the least of a deletion, an
insertion and a substitution, which is free where the characters agree. -/
def writeEntry [DecidableEq α] (as : List α) (b : α) (above row : Row as) (i : Nat)
    (hi : i < as.length) : Row as :=
  let cost := if as[i] = b then 0 else 1
  row.set (i + 1) (min (min (above[i + 1] + 1) (row[i] + 1)) (above[i] + cost))

/-- Writes the row of `b`, the `j`th character of the other text, over `row`. -/
def writeRow [DecidableEq α] (as : List α) (b : α) (j : Nat) (above row : Row as) : Row as :=
  as.length.fold (fun i hi row => writeEntry as b above row i hi) (row.set 0 j)

/-- Fills the spare row for a character and its number, and has the rows trade places. -/
def Rows.next [DecidableEq α] {as : List α} (rows : Rows as) (step : α × Nat) : Rows as :=
  { filled := writeRow as step.1 step.2 rows.filled rows.spare, spare := rows.filled }

/-- The last entry of the table, with rows over `as`. -/
def lastEntry [DecidableEq α] (as bs : List α) : Nat :=
  let start : Rows as := { filled := Vector.ofFn (·.val), spare := Vector.replicate _ 0 }
  ((bs.zipIdx 1).foldl Rows.next start).filled[as.length]

/-- The edit distance.  Rows go over the shorter text.  The first shortcut is for byte strings that
are the same; it is taken here for the same characters, which different bytes may stand for.  The
value is the same, since a table over the same characters ends in zero. -/
def distance [DecidableEq α] (as bs : List α) : Nat :=
  if as = bs then 0
  else if as.isEmpty then bs.length
  else if bs.isEmpty then as.length
  else if bs.length < as.length then lastEntry bs as
  else lastEntry as bs

/-- A similarity between zero and one, as a quotient. -/
structure Score where
  num : Nat
  den : Nat
  deriving DecidableEq, Repr

namespace Score

/-- Identical. -/
def one : Score := ⟨1, 1⟩

/-- Half way. -/
def half : Score := ⟨1, 2⟩

/-- Order of the quotients. -/
def le (a b : Score) : Bool := decide (a.num * b.den ≤ b.num * a.den)

/-- The larger of two scores. -/
def max (a b : Score) : Score := if a.le b then b else a

/-- The score as a double: the missing part is rounded first, and the difference from one after
it. -/
def pattern (s : Score) : Nat :=
  let f := Number.Format.double
  let missing := f.round (s.den - s.num) s.den
  let (m, e) := f.magnitude missing
  let scale := Nat.pow 2 f.floor
  f.round (scale - m * Nat.pow 2 e) scale

end Score

/-- The similarity of two texts. -/
def similarity [DecidableEq α] (as bs : List α) : Score :=
  let longer := Nat.max as.length bs.length
  if longer = 0 then .one else ⟨longer - distance as bs, longer⟩

end WireSchema.Naming
