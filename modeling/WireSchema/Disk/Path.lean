import WireSchema.Text.Blank
import WireSchema.Text.Utf8

/-!
# Paths as text

A path is a text whose parts stand between slashes.  An empty part and a single dot lead nowhere,
two dots lead back; the simplest path to a place has no part that could be left out.  Nothing here
looks at a disk.
-/

namespace WireSchema.Path

/-- The parts between the slashes. -/
def parts (p : String) : List String :=
  (Text.splitBy (· == '/') p.toList).map String.ofList

/-- The path starts at the root. -/
def isAbsolute (p : String) : Bool := p.toList.head? == some '/'

/-- A way with one more part, last part first.  There is no way back from the root. -/
def step (absolute : Bool) (way : List String) (part : String) : List String :=
  if part = "" ∨ part = "." then way
  else if part = ".." then
    match way with
    | [] => if absolute then [] else [".."]
    | last :: rest => if last = ".." then ".." :: last :: rest else rest
  else part :: way

/-- The parts of the simplest path to the same place. -/
def simplify (p : String) : List String :=
  ((parts p).foldl (step (isAbsolute p)) []).reverse

/-- The simplest path to the same place. -/
def clean (p : String) : String :=
  let body := Text.joinWith "/" (simplify p)
  if isAbsolute p then "/" ++ body else if body.isEmpty then "." else body

/-- The simplest path from `base` on along `p`. -/
def join (base p : String) : String :=
  if base.isEmpty then (if p.isEmpty then "" else clean p)
  else if p.isEmpty then clean base
  else clean (base ++ "/" ++ p)

/-- The simplest path to the folder a path leads into. -/
def parent (p : String) : String :=
  clean (String.ofList (p.toList.reverse.dropWhile (· ≠ '/')).reverse)

/-- The paths on the way, each a part longer than the one before, and the path itself; `seen` is
what was already passed, last character first. -/
def ancestryFrom (seen : List Char) : List Char → List String
  | [] => [String.ofList seen.reverse]
  | c :: rest =>
      let here := c = '/' ∧ !seen.isEmpty ∧ rest ≠ [] ∧ rest.head? ≠ some '/'
      (if here then [String.ofList seen.reverse] else []) ++ ancestryFrom (c :: seen) rest

/-- The folders on the way of a path, outermost first, and the path itself. -/
def ancestry (p : String) : List String := ancestryFrom [] p.toList

/-- A path without the slashes at its end, the one at its front apart. -/
def trimSlashes (p : String) : String :=
  let body := Text.trimEnd (· == '/') p.toList
  if body.isEmpty && isAbsolute p then "/" else String.ofList body

end WireSchema.Path
