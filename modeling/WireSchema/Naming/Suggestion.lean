import WireSchema.Naming.Distance
import WireSchema.Naming.Ident

/-!
# Suggestions for unknown names

An unknown name is compared with every known one by normal form.  Equal normal forms score one, and
a known form that contains the unknown one scores at least a half.  Candidates are ranked by score,
then by name; the ones scoring at least a half are suggested.
-/

namespace WireSchema.Naming

/-- A known name with its score against an unknown one. -/
structure Candidate where
  name : String
  score : Score
  distance : Nat
  deriving DecidableEq, Repr

namespace Candidate

/-- The score of two normal forms. -/
def scoreOf (unknown known : List Char) : Score :=
  if known = unknown then .one
  else if !unknown.isEmpty && Text.containsRun unknown known then
    (similarity unknown known).max .half
  else similarity unknown known

/-- The candidate a known name makes for an unknown one. -/
def make (unknown known : String) : Candidate :=
  let u := Ident.normalize unknown.toList
  let k := Ident.normalize known.toList
  { name := known, score := scoreOf u k, distance := Naming.distance u k }

/-- Whether `a` may stand before `b`: a higher score, or the same score and a name not after. -/
def before (a b : Candidate) : Bool :=
  if a.score.le b.score && b.score.le a.score then decide (a.name ≤ b.name) else b.score.le a.score

end Candidate

/-- The known names other than the unknown one itself, best first. -/
def rank (unknown : String) (known : List String) : List Candidate :=
  ((known.filter (· ≠ unknown)).map (Candidate.make unknown)).mergeSort Candidate.before

/-- The first `limit` elements; all of them if the limit is negative. -/
def top (limit : Int) (xs : List α) : List α :=
  if limit < 0 then xs else xs.take limit.toNat

/-- Up to `limit` known names that look like the unknown one, best first. -/
def suggest (unknown : String) (known : List String) (limit : Int) : List String :=
  (top limit ((rank unknown known).filter fun c => Score.half.le c.score)).map (·.name)

end WireSchema.Naming
