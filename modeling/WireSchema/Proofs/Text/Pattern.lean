import Mathlib
import WireSchema.Text.Blank

/-!
# Patterns and backtracking

A pattern is a row of pieces, each of which takes a run of characters; it matches a text that such
runs make up.  A text may be divided into runs in several ways, and the one that counts is the one
that a backtracking search finds first: each piece in turn tries its runs in its own order, longest
first or shortest first, and keeps the first with which the rest of the pattern matches.

Where the pieces behind a greedy piece never begin with a character that it takes, it takes all it
can at once and there is nothing to go back to.

## Main results

* `firstMatch_sound` — the search finds ways to divide the text only.
* `longest_eq_takeWhile` — greedy pieces without backtracking.
-/

namespace WireSchema.Text

/-! ## Runs -/

section Runs

variable {α : Type}

/-- Adds to a run what it can take, the longest run first, and goes on with the rest of the text. -/
def longest (fits : Char → Bool) (next : (run rest : List Char) → Option α) :
    (run : List Char) → List Char → Option α
  | run, [] => next run []
  | run, c :: cs =>
      if fits c then (longest fits next (run ++ [c]) cs).or (next run (c :: cs))
      else next run (c :: cs)

/-- Adds to a run what it can take, the shortest run first, and goes on with the rest of the
text. -/
def shortest (fits : Char → Bool) (next : (run rest : List Char) → Option α) :
    (run : List Char) → List Char → Option α
  | run, [] => next run []
  | run, c :: cs =>
      (next run (c :: cs)).or (if fits c then shortest fits next (run ++ [c]) cs else none)

/-- Takes one character and goes on. -/
def afterOne (fits : Char → Bool) (next : Char → (rest : List Char) → Option α) :
    List Char → Option α
  | [] => none
  | c :: cs => if fits c then next c cs else none

variable {fits : Char → Bool} {next : List Char → List Char → Option α} {run cs : List Char} {a : α}

theorem longest_sound (h : longest fits next run cs = some a) : ∃ more rest, cs = more ++ rest ∧
    (∀ c ∈ more, fits c = true) ∧ next (run ++ more) rest = some a := by
  induction cs generalizing run with
  | nil => exact ⟨[], [], rfl, List.forall_mem_nil _, by rwa [List.append_nil]⟩
  | cons c cs ih =>
      rw [longest] at h
      split at h
      · rename_i hc
        rcases Option.or_eq_some_iff.mp h with h | ⟨-, h⟩
        · obtain ⟨more, rest, hcs, hmore, hnext⟩ := ih h
          refine ⟨c :: more, rest, congrArg _ hcs, List.forall_mem_cons.mpr ⟨hc, hmore⟩, ?_⟩
          rwa [List.append_assoc] at hnext
        · exact ⟨[], c :: cs, rfl, List.forall_mem_nil _, by rwa [List.append_nil]⟩
      · exact ⟨[], c :: cs, rfl, List.forall_mem_nil _, by rwa [List.append_nil]⟩

theorem shortest_sound (h : shortest fits next run cs = some a) : ∃ more rest, cs = more ++ rest ∧
    (∀ c ∈ more, fits c = true) ∧ next (run ++ more) rest = some a := by
  induction cs generalizing run with
  | nil => exact ⟨[], [], rfl, List.forall_mem_nil _, by rwa [List.append_nil]⟩
  | cons c cs ih =>
      rw [shortest] at h
      rcases Option.or_eq_some_iff.mp h with h | ⟨-, h⟩
      · exact ⟨[], c :: cs, rfl, List.forall_mem_nil _, by rwa [List.append_nil]⟩
      · split at h
        · rename_i hc
          obtain ⟨more, rest, hcs, hmore, hnext⟩ := ih h
          refine ⟨c :: more, rest, congrArg _ hcs, List.forall_mem_cons.mpr ⟨hc, hmore⟩, ?_⟩
          rwa [List.append_assoc] at hnext
        · cases h

/-- **Where nothing that fits can follow, the longest run is the only one.** -/
theorem longest_eq_takeWhile
    (hapart : ∀ run c cs, fits c = true → next run (c :: cs) = none) (run cs : List Char) :
    longest fits next run cs = next (run ++ cs.takeWhile fits) (cs.dropWhile fits) := by
  induction cs generalizing run with
  | nil => rw [longest, List.takeWhile_nil, List.dropWhile_nil, List.append_nil]
  | cons c cs ih =>
      rw [longest]
      by_cases hc : fits c = true
      · rw [if_pos hc, ih, hapart run c cs hc, Option.or_none, List.takeWhile_cons_of_pos hc,
          List.dropWhile_cons_of_pos hc, List.append_assoc, List.singleton_append]
      · rw [if_neg hc, List.takeWhile_cons_of_neg hc, List.dropWhile_cons_of_neg hc,
          List.append_nil]

end Runs

/-! ## Patterns -/

/-- How many characters a piece takes, and which run it tries first. -/
inductive Extent where
  | one
  | many
  | some
  /-- At least one, and the shortest run first. -/
  | fewest
  deriving DecidableEq, Repr

/-- A piece of a pattern.  The runs of some pieces are what the pattern is matched for. -/
structure Piece where
  extent : Extent
  fits : Char → Bool
  kept : Bool := false

namespace Piece

/-- The kept runs of a match, with the run of this piece in front. -/
def keep (p : Piece) (run : List Char) (more : List (List Char)) : List (List Char) :=
  if p.kept then run :: more else more

/-- Whether a piece takes a run. -/
def Takes (p : Piece) (run : List Char) : Prop :=
  (∀ c ∈ run, p.fits c = true) ∧
    match p.extent with
    | .one => ∃ c, run = [c]
    | .many => True
    | .some | .fewest => run ≠ []

end Piece

/-- A pattern matches a text, divided so that these are the kept runs. -/
inductive Matches : List Piece → (text : List Char) → (kept : List (List Char)) → Prop
  | done : Matches [] [] []
  | piece {p : Piece} {ps : List Piece} {run text : List Char} {kept : List (List Char)}
      (hrun : p.Takes run) (rest : Matches ps text kept) :
      Matches (p :: ps) (run ++ text) (p.keep run kept)

/-- The kept runs of the match that a backtracking search finds first. -/
def firstMatch : List Piece → List Char → Option (List (List Char))
  | [], cs => if cs.isEmpty then some [] else none
  | p :: ps, cs =>
      let next (run rest : List Char) := (firstMatch ps rest).map (p.keep run)
      match p.extent with
      | .one => afterOne p.fits (fun c => next [c]) cs
      | .many => longest p.fits next [] cs
      | .some => afterOne p.fits (fun c => longest p.fits next [c]) cs
      | .fewest => afterOne p.fits (fun c => shortest p.fits next [c]) cs

theorem afterOne_sound {α : Type} {fits : Char → Bool} {next : Char → List Char → Option α}
    {cs : List Char} {a : α} (h : afterOne fits next cs = some a) :
    ∃ c rest, cs = c :: rest ∧ fits c = true ∧ next c rest = some a := by
  cases cs with
  | nil => cases h
  | cons c rest =>
      rw [afterOne] at h
      split at h
      · rename_i hc
        exact ⟨c, rest, rfl, hc, h⟩
      · cases h

/-- **The search finds ways to divide the text only.** -/
theorem firstMatch_sound {ps : List Piece} {cs : List Char} {kept : List (List Char)}
    (h : firstMatch ps cs = some kept) : Matches ps cs kept := by
  induction ps generalizing cs kept with
  | nil =>
      rw [firstMatch] at h
      split at h
      · rename_i hempty
        rw [List.isEmpty_iff.mp hempty, ← Option.some.inj h]
        exact .done
      · cases h
  | cons p ps ih =>
      -- Whatever run was found, the rest of the text is matched by the rest of the pattern.
      have hnext : ∀ (run : List Char) {rest : List Char}, p.Takes run →
          (firstMatch ps rest).map (p.keep run) = some kept →
            Matches (p :: ps) (run ++ rest) kept := by
        intro run rest hrun hrest
        obtain ⟨more, hmore, rfl⟩ := Option.map_eq_some_iff.mp hrest
        exact .piece hrun (ih hmore)
      rw [firstMatch] at h
      dsimp only at h
      split at h
      · rename_i hextent
        obtain ⟨c, rest, rfl, hc, h⟩ := afterOne_sound h
        refine hnext [c] ⟨List.forall_mem_singleton.mpr hc, ?_⟩ h
        rw [hextent]
        exact ⟨c, rfl⟩
      · rename_i hextent
        obtain ⟨run, rest, rfl, hrun, h⟩ := longest_sound h
        refine hnext run ⟨hrun, ?_⟩ h
        rw [hextent]
        trivial
      · rename_i hextent
        obtain ⟨c, rest, rfl, hc, h⟩ := afterOne_sound h
        obtain ⟨more, rest, rfl, hmore, h⟩ := longest_sound h
        refine hnext (c :: more) ⟨List.forall_mem_cons.mpr ⟨hc, hmore⟩, ?_⟩ h
        rw [hextent]
        exact List.cons_ne_nil c more
      · rename_i hextent
        obtain ⟨c, rest, rfl, hc, h⟩ := afterOne_sound h
        obtain ⟨more, rest, rfl, hmore, h⟩ := shortest_sound h
        refine hnext (c :: more) ⟨List.forall_mem_cons.mpr ⟨hc, hmore⟩, ?_⟩ h
        rw [hextent]
        exact List.cons_ne_nil c more

end WireSchema.Text
