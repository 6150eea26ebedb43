import Mathlib
import WireSchema.Proofs.Text.Pattern
import WireSchema.Proofs.Text.Trim
import WireSchema.Schema.Entry

/-!
# The shorthand of a fixed list is matched by a pattern

A shorthand is white space, a type, white space and a length in brackets, which may have white space
inside and behind.  As a pattern this leaves open where the type begins and ends: it takes as little
as it can, and the white space in front of it as much as it can.  `splitShorthand` reads the text
from its end instead, where the bracket is, and trims what stands in front of it.

Both agree.  The bracket leaves nothing open, since no opening bracket can stand inside it, so a
text has at most one place where the type can end but for white space.  What is left to the search
is the front: if anything but white space stands there, the type is all of it without the white
space at its ends, and otherwise it is the last character that does not end the line.

## Main results

* `splitShorthand_eq_firstMatch` — the split is the first match of the pattern.
* `splitShorthand_of_written` — a shorthand is split into the type and digits it is written with.
* `written_of_splitShorthand` — only shorthands are split.
-/

namespace WireSchema.Schema

open Text (Piece Matches firstMatch longest shortest trimEnd trimBoth)

/-! ## The pattern -/

/-- White space, as much as there is. -/
def blanks : Piece := { extent := .many, fits := isShorthandBlank }

/-- A single character. -/
def mark (c : Char) : Piece := { extent := .one, fits := (· == c) }

/-- A type: anything on one line, as little as will do. -/
def typeName : Piece := { extent := .fewest, fits := (· != '\n'), kept := true }

/-- A number in digits. -/
def number : Piece := { extent := .some, fits := Char.isDigit, kept := true }

/-- A number in brackets, with nothing but white space inside and behind. -/
def bracketPattern : List Piece := [mark '[', blanks, number, blanks, mark ']', blanks]

/-- A type and a length in brackets. -/
def shorthandPattern : List Piece := blanks :: typeName :: blanks :: bracketPattern

section Pieces

variable {c : Char} {ps : List Piece}

theorem apart_of_blank (h : isShorthandBlank c = true) :
    c.isDigit = false ∧ c ≠ '[' ∧ c ≠ ']' := by
  simp only [isShorthandBlank, Bool.or_eq_true, beq_iff_eq] at h
  rcases h with (((rfl | rfl) | rfl) | rfl) | rfl <;> decide

theorem apart_of_digit (h : c.isDigit = true) :
    isShorthandBlank c = false ∧ c ≠ '[' ∧ c ≠ ']' := by
  refine ⟨Bool.eq_false_iff.mpr fun hblank => ?_, ?_, ?_⟩
  · rw [(apart_of_blank hblank).1] at h
    cases h
  · rintro rfl
    cases h
  · rintro rfl
    cases h

theorem firstMatch_mark (d : Char) (ps : List Piece) (c : Char) (cs : List Char) :
    firstMatch (mark d :: ps) (c :: cs) = if c = d then firstMatch ps cs else none := by
  show (if (c == d) = true then (firstMatch ps cs).map id else none) = _
  simp only [Option.map_id_fun, id, beq_iff_eq]

/-- White space is taken all at once if the rest of the pattern does not begin with any. -/
theorem firstMatch_blanks
    (hapart : ∀ c cs, isShorthandBlank c = true → firstMatch ps (c :: cs) = none) (cs : List Char) :
    firstMatch (blanks :: ps) cs = firstMatch ps (cs.dropWhile isShorthandBlank) := by
  show longest isShorthandBlank (fun _ rest => (firstMatch ps rest).map id) [] cs = _
  rw [Text.longest_eq_takeWhile fun _ c cs hc => by rw [hapart c cs hc, Option.map_none]]
  rw [Option.map_id_fun, id]

theorem firstMatch_number_of_not_digit (hc : c.isDigit = false) (cs : List Char) :
    firstMatch (number :: ps) (c :: cs) = none :=
  if_neg (Bool.eq_false_iff.mp hc)

/-- A number is taken all at once if the rest of the pattern does not begin with a digit. -/
theorem firstMatch_number
    (hapart : ∀ c cs, c.isDigit = true → firstMatch ps (c :: cs) = none) {digits rest : List Char}
    (hne : digits ≠ []) (hdigits : ∀ c ∈ digits, c.isDigit = true)
    (hrest : ∀ c ∈ rest.head?, c.isDigit = false) :
    firstMatch (number :: ps) (digits ++ rest) = (firstMatch ps rest).map (digits :: ·) := by
  obtain ⟨c, more, rfl⟩ := List.exists_cons_of_ne_nil hne
  obtain ⟨hc, hmore⟩ := List.forall_mem_cons.mp hdigits
  show (if c.isDigit = true then
    longest Char.isDigit (fun run rest => (firstMatch ps rest).map (run :: ·)) [c] (more ++ rest)
    else none) = _
  have hend : rest.takeWhile Char.isDigit = [] ∧ rest.dropWhile Char.isDigit = rest := by
    cases rest with
    | nil => exact ⟨rfl, rfl⟩
    | cons d rest =>
        have hd := Bool.eq_false_iff.mp (hrest d rfl)
        exact ⟨List.takeWhile_cons_of_neg hd, List.dropWhile_cons_of_neg hd⟩
  rw [if_pos hc, Text.longest_eq_takeWhile fun _ c cs hc => by rw [hapart c cs hc, Option.map_none],
    List.takeWhile_append_of_pos hmore, List.dropWhile_append_of_pos hmore, hend.1, hend.2,
    List.append_nil, List.singleton_append]

end Pieces

/-! ## The bracket -/

/-- A text that is a number in brackets, with white space inside and behind. -/
inductive Bracketed : (digits text : List Char) → Prop
  | intro {left digits right trail : List Char} (hleft : ∀ c ∈ left, isShorthandBlank c = true)
      (hright : ∀ c ∈ right, isShorthandBlank c = true)
      (htrail : ∀ c ∈ trail, isShorthandBlank c = true) (hne : digits ≠ [])
      (hdigits : ∀ c ∈ digits, c.isDigit = true) :
      Bracketed digits ('[' :: (left ++ digits ++ right ++ ']' :: trail))

section Bracket

variable {digits bracket cs : List Char}

theorem Bracketed.isDigit (h : Bracketed digits bracket) : ∀ c ∈ digits, c.isDigit = true := by
  cases h with
  | intro _ _ _ _ hdigits => exact hdigits

/-- No opening bracket stands behind the first one. -/
theorem Bracketed.tail (h : Bracketed digits bracket) :
    ∃ tail, bracket = '[' :: tail ∧ '[' ∉ tail := by
  cases h with
  | intro hleft hright htrail _ hdigits =>
      refine ⟨_, rfl, fun hmem => ?_⟩
      simp only [List.mem_append, List.mem_cons] at hmem
      rcases hmem with ((hmem | hmem) | hmem) | hmem | hmem
      · exact (apart_of_blank (hleft _ hmem)).2.1 rfl
      · exact (apart_of_digit (hdigits _ hmem)).2.1 rfl
      · exact (apart_of_blank (hright _ hmem)).2.1 rfl
      · cases hmem
      · exact (apart_of_blank (htrail _ hmem)).2.1 rfl

/-- Nothing in the bracket is open to choice. -/
theorem firstMatch_bracket (h : Bracketed digits bracket) :
    firstMatch bracketPattern bracket = some [digits] := by
  have hclose : ∀ c cs, c ≠ ']' → firstMatch [mark ']', blanks] (c :: cs) = none :=
    fun c cs hc => (firstMatch_mark ']' [blanks] c cs).trans (if_neg hc)
  have hright : ∀ cs, firstMatch [blanks, mark ']', blanks] cs =
      firstMatch [mark ']', blanks] (cs.dropWhile isShorthandBlank) :=
    firstMatch_blanks fun c cs hc => hclose c cs (apart_of_blank hc).2.2
  have hnumber : ∀ c cs, c.isDigit = true →
      firstMatch [blanks, mark ']', blanks] (c :: cs) = none := by
    intro c cs hc
    obtain ⟨hblank, -, hne⟩ := apart_of_digit hc
    rw [hright, List.dropWhile_cons_of_neg (Bool.eq_false_iff.mp hblank), hclose c cs hne]
  cases h with
  | @intro left digits right trail hleft hright' htrail hne hdigits =>
      have hfirst : (digits ++ (right ++ ']' :: trail)).dropWhile isShorthandBlank =
          digits ++ (right ++ ']' :: trail) := by
        obtain ⟨c, more, rfl⟩ := List.exists_cons_of_ne_nil hne
        have hc := (apart_of_digit (hdigits c List.mem_cons_self)).1
        exact List.dropWhile_cons_of_neg (Bool.eq_false_iff.mp hc)
      have hnext : ∀ c ∈ (right ++ ']' :: trail).head?, c.isDigit = false := by
        cases right with
        | nil => exact fun c hc => Option.some.inj hc ▸ rfl
        | cons d right =>
            exact fun c hc => Option.some.inj hc ▸ (apart_of_blank (hright' d List.mem_cons_self)).1
      have hopen : (']' :: trail).dropWhile isShorthandBlank = ']' :: trail := rfl
      have hend : trail.dropWhile isShorthandBlank = [] := List.dropWhile_eq_nil_iff.mpr htrail
      rw [bracketPattern, firstMatch_mark, if_pos rfl, firstMatch_blanks fun c cs hc =>
          firstMatch_number_of_not_digit (apart_of_blank hc).1 cs, List.append_assoc,
        List.append_assoc, List.dropWhile_append_of_pos hleft, hfirst,
        firstMatch_number hnumber hne hdigits hnext, hright, List.dropWhile_append_of_pos hright',
        hopen, firstMatch_mark, if_pos rfl, firstMatch_blanks fun _ _ _ => rfl, hend]
      rfl

/-- White space does not begin with a bracket. -/
theorem firstMatch_gap_eq (cs : List Char) : firstMatch (blanks :: bracketPattern) cs =
    firstMatch bracketPattern (cs.dropWhile isShorthandBlank) :=
  firstMatch_blanks (fun c cs hc =>
    (firstMatch_mark '[' _ c cs).trans (if_neg (apart_of_blank hc).2.1)) cs

theorem of_matches_blanks {ps : List Piece} {kept : List (List Char)}
    (h : Matches (blanks :: ps) cs kept) : ∃ run rest, cs = run ++ rest ∧
      (∀ c ∈ run, isShorthandBlank c = true) ∧ Matches ps rest kept := by
  cases h with
  | piece hrun rest => exact ⟨_, _, rfl, hrun.1, rest⟩

theorem of_matches_mark {d : Char} {ps : List Piece} {kept : List (List Char)}
    (h : Matches (mark d :: ps) cs kept) : ∃ rest, cs = d :: rest ∧ Matches ps rest kept := by
  cases h with
  | piece hrun rest =>
      obtain ⟨hfits, c, rfl⟩ := hrun
      obtain rfl : c = d := eq_of_beq (hfits c List.mem_cons_self)
      exact ⟨_, rfl, rest⟩

theorem of_matches_number {ps : List Piece} {kept : List (List Char)}
    (h : Matches (number :: ps) cs kept) : ∃ run rest more, cs = run ++ rest ∧ kept = run :: more ∧
      run ≠ [] ∧ (∀ c ∈ run, c.isDigit = true) ∧ Matches ps rest more := by
  cases h with
  | piece hrun rest => exact ⟨_, _, _, rfl, rfl, hrun.2, hrun.1, rest⟩

theorem of_matches_typeName {ps : List Piece} {kept : List (List Char)}
    (h : Matches (typeName :: ps) cs kept) : ∃ run rest more, cs = run ++ rest ∧
      kept = run :: more ∧ run ≠ [] ∧ '\n' ∉ run ∧ Matches ps rest more := by
  cases h with
  | piece hrun rest =>
      refine ⟨_, _, _, rfl, rfl, hrun.2, fun hmem => ?_, rest⟩
      exact absurd (hrun.1 _ hmem) (by decide)

/-- Only a bracket is matched as one. -/
theorem bracketed_of_matches {kept : List (List Char)} (h : Matches bracketPattern cs kept) :
    ∃ digits, kept = [digits] ∧ Bracketed digits cs := by
  obtain ⟨inside, rfl, hinside⟩ := of_matches_mark h
  obtain ⟨left, rest, rfl, hleft, hrest⟩ := of_matches_blanks hinside
  obtain ⟨digits, rest, more, rfl, rfl, hne, hdigits, hrest⟩ := of_matches_number hrest
  obtain ⟨right, rest, rfl, hright, hrest⟩ := of_matches_blanks hrest
  obtain ⟨behind, rfl, hbehind⟩ := of_matches_mark hrest
  obtain ⟨trail, rest, rfl, htrail, hrest⟩ := of_matches_blanks hbehind
  cases hrest
  refine ⟨digits, rfl, ?_⟩
  rw [List.append_nil, ← List.append_assoc, ← List.append_assoc]
  exact .intro hleft hright htrail hne hdigits

theorem firstMatch_gap_of_notMem (h : '[' ∉ cs) :
    firstMatch (blanks :: bracketPattern) cs = none := by
  rw [firstMatch_gap_eq, Option.eq_none_iff_forall_ne_some]
  intro kept hkept
  obtain ⟨digits, -, hbracketed⟩ := bracketed_of_matches (Text.firstMatch_sound hkept)
  obtain ⟨tail, htail, -⟩ := hbracketed.tail
  have hmem : '[' ∈ cs.dropWhile isShorthandBlank := htail ▸ List.mem_cons_self
  exact h ((List.dropWhile_suffix _).mem hmem)

/-- In front of the bracket there can only be white space. -/
theorem firstMatch_gap (h : Bracketed digits bracket) (cs : List Char) :
    firstMatch (blanks :: bracketPattern) (cs ++ bracket) =
      if cs.all isShorthandBlank then some [digits] else none := by
  obtain ⟨tail, hbracket, htail⟩ := h.tail
  rw [firstMatch_gap_eq]
  induction cs with
  | nil =>
      have hopen : bracket.dropWhile isShorthandBlank = bracket := by rw [hbracket]; rfl
      rw [List.nil_append, hopen, firstMatch_bracket h]
      rfl
  | cons c cs ih =>
      by_cases hc : isShorthandBlank c = true
      · rw [List.cons_append, List.dropWhile_cons_of_pos hc, ih, List.all_cons, hc, Bool.true_and]
      · have hall : ¬ (c :: cs).all isShorthandBlank = true :=
          fun hall => hc (List.all_eq_true.mp hall c List.mem_cons_self)
        rw [List.cons_append, List.dropWhile_cons_of_neg hc, if_neg hall,
          Option.eq_none_iff_forall_ne_some]
        intro kept hkept
        obtain ⟨digits', -, hbracketed⟩ := bracketed_of_matches (Text.firstMatch_sound hkept)
        obtain ⟨tail', htail', hnot⟩ := hbracketed.tail
        refine hnot ?_
        rw [← (List.cons.inj htail').2, hbracket]
        exact List.mem_append_right cs List.mem_cons_self

end Bracket

/-! ## The type -/

/-- The type that is found where the pattern has taken the white space in front: the text without
the white space at its end, unless the line ends in it. -/
def typeFrom : List Char → Option (List Char)
  | [] => none
  | c :: cs =>
      if '\n' ∈ c :: trimEnd isShorthandBlank cs then none
      else some (c :: trimEnd isShorthandBlank cs)

section Name

variable {digits bracket cs : List Char}

/-- The search for the rest of a type that begins with a run. -/
def moreOfType : (run : List Char) → List Char → Option (List (List Char)) :=
  shortest (· != '\n') fun run rest => (firstMatch (blanks :: bracketPattern) rest).map (run :: ·)

theorem moreOfType_of_notMem (h : '[' ∉ cs) (run : List Char) : moreOfType run cs = none := by
  induction cs generalizing run with
  | nil =>
      rw [moreOfType, shortest, firstMatch_gap_of_notMem h, Option.map_none]
  | cons c cs ih =>
      have hcs : '[' ∉ cs := fun hmem => h (List.mem_cons_of_mem c hmem)
      rw [moreOfType, shortest, firstMatch_gap_of_notMem h, Option.map_none, Option.none_or]
      split
      · exact ih hcs _
      · rfl

/-- As little as will do is the text up to the white space in front of the bracket. -/
theorem moreOfType_eq (h : Bracketed digits bracket) (cs run : List Char) :
    moreOfType run (cs ++ bracket) =
      if '\n' ∈ trimEnd isShorthandBlank cs then none
      else some [run ++ trimEnd isShorthandBlank cs, digits] := by
  have hstop : ∀ run rest : List Char, rest.all isShorthandBlank = true →
      (firstMatch (blanks :: bracketPattern) (rest ++ bracket)).map (run :: ·) =
        some [run, digits] := by
    intro run rest hrest
    rw [firstMatch_gap h, if_pos hrest, Option.map_some]
  induction cs generalizing run with
  | nil =>
      have hnil := hstop run [] rfl
      obtain ⟨tail, rfl, -⟩ := h.tail
      rw [List.nil_append] at hnil ⊢
      rw [moreOfType, shortest, hnil, Option.some_or]
      simp [trimEnd]
  | cons c cs ih =>
      rw [List.cons_append, moreOfType, shortest, ← List.cons_append]
      by_cases hall : (c :: cs).all isShorthandBlank = true
      · rw [hstop run _ hall, Option.some_or, Text.trimEnd_of_all hall]
        simp
      · rw [firstMatch_gap h, if_neg hall, Option.map_none, Option.none_or, Text.trimEnd_cons,
          if_neg hall]
        by_cases hc : c = '\n'
        · rw [hc, if_neg (by decide), if_pos List.mem_cons_self]
        · have hfits : (c != '\n') = true := bne_iff_ne.mpr hc
          have hmem : '\n' ∈ c :: trimEnd isShorthandBlank cs ↔
              '\n' ∈ trimEnd isShorthandBlank cs := by
            rw [List.mem_cons, or_iff_right (Ne.symm hc)]
          have hrest := ih (run ++ [c])
          rw [List.append_assoc, List.singleton_append] at hrest
          rw [if_pos hfits, if_congr hmem rfl rfl]
          exact hrest

theorem firstMatch_typeName (h : Bracketed digits bracket) (cs : List Char) :
    firstMatch (typeName :: blanks :: bracketPattern) (cs ++ bracket) =
      (typeFrom cs).map ([·, digits]) := by
  cases cs with
  | nil =>
      obtain ⟨tail, rfl, htail⟩ := h.tail
      exact moreOfType_of_notMem htail ['[']
  | cons c cs =>
      show (if (c != '\n') = true then moreOfType [c] (cs ++ bracket) else none) = _
      rw [typeFrom, moreOfType_eq h]
      by_cases hc : c = '\n'
      · rw [hc, if_neg (by decide), if_pos List.mem_cons_self, Option.map_none]
      · have hmem : '\n' ∈ c :: trimEnd isShorthandBlank cs ↔
            '\n' ∈ trimEnd isShorthandBlank cs := by
          rw [List.mem_cons, or_iff_right (Ne.symm hc)]
        rw [if_pos (bne_iff_ne.mpr hc), if_congr hmem rfl rfl]
        split <;> rfl

theorem shorthandType_of_blank (h : cs.all isShorthandBlank = true) :
    shorthandType cs = ((cs.filter (· ≠ '\n')).getLast?).map ([·]) := by
  have hnil : trimShorthand cs = [] := Text.trimBoth_eq_nil_iff.mpr h
  rw [shorthandType, hnil]
  rfl

theorem shorthandType_of_ne_nil (h : trimShorthand cs ≠ []) :
    shorthandType cs = if '\n' ∈ trimShorthand cs then none else some (trimShorthand cs) := by
  have hempty : ¬ (trimShorthand cs).isEmpty = true := mt List.isEmpty_iff.mp h
  rw [shorthandType]
  simp only [if_neg hempty, List.contains_iff_mem]

/-- The longest white space in front is given up character by character until there is a type. -/
theorem shorthandType_cons (c : Char) (cs : List Char) : shorthandType (c :: cs) =
    if isShorthandBlank c then (shorthandType cs).or (typeFrom (c :: cs))
    else typeFrom (c :: cs) := by
  by_cases hc : isShorthandBlank c = true
  · have htrim : trimShorthand (c :: cs) = trimShorthand cs := Text.trimBoth_cons_of_pos cs hc
    rw [if_pos hc, typeFrom]
    by_cases hall : cs.all isShorthandBlank = true
    · rw [shorthandType_of_blank hall,
        shorthandType_of_blank (by rw [List.all_cons, hc, hall, Bool.true_and]),
        Text.trimEnd_of_all hall, List.filter_cons]
      by_cases hline : c = '\n'
      · simp [hline]
      · rw [if_pos (by simpa using hline), List.getLast?_cons]
        cases (cs.filter (· ≠ '\n')).getLast? with
        | none => simp [Ne.symm hline]
        | some d => rfl
    · have hne : trimShorthand cs ≠ [] := mt Text.trimBoth_eq_nil_iff.mp hall
      rw [shorthandType_of_ne_nil hne, shorthandType_of_ne_nil (htrim ▸ hne), htrim]
      by_cases hline : '\n' ∈ trimShorthand cs
      · have hmem := List.mem_cons_of_mem c (Text.mem_trimEnd_of_mem_trimBoth hline)
        rw [if_pos hline, if_pos hmem, Option.none_or]
      · rw [if_neg hline, Option.some_or]
  · have htrim : trimShorthand (c :: cs) = c :: trimEnd isShorthandBlank cs :=
      Text.trimBoth_cons_of_neg cs hc
    rw [if_neg hc, typeFrom, shorthandType_of_ne_nil (htrim ▸ List.cons_ne_nil _ _), htrim]

theorem firstMatch_shorthand (h : Bracketed digits bracket) (cs : List Char) :
    firstMatch shorthandPattern (cs ++ bracket) = (shorthandType cs).map ([·, digits]) := by
  have hrun : ∀ run, longest isShorthandBlank
      (fun _ rest => firstMatch (typeName :: blanks :: bracketPattern) rest) run (cs ++ bracket) =
        (shorthandType cs).map ([·, digits]) := by
    induction cs with
    | nil =>
        intro run
        have hnone := firstMatch_typeName h []
        obtain ⟨tail, rfl, -⟩ := h.tail
        rw [List.nil_append] at hnone ⊢
        rw [longest, if_neg (by decide), hnone]
        rfl
    | cons c cs ih =>
        intro run
        have htype := firstMatch_typeName h (c :: cs)
        rw [List.cons_append] at htype ⊢
        rw [longest, htype, ih, shorthandType_cons]
        split
        · rw [Option.map_or]
        · rfl
  rw [← hrun []]
  show longest isShorthandBlank (fun _ rest => (firstMatch _ rest).map id) [] _ = _
  simp only [Option.map_id_fun, id]

end Name

/-! ## The split -/

section Split

variable {s : String} {front digits bracket : List Char} {type : List Char}

theorem splitShorthand_of_bracketed (hs : s.toList = front ++ bracket)
    (h : Bracketed digits bracket) :
    splitShorthand s = (shorthandType front).map (·, digits) := by
  obtain ⟨tail, htail, hnot⟩ := h.tail
  cases h with
  | @intro left digits right trail hleft hright htrail hne hdigits =>
      obtain rfl := (List.cons.inj htail).2
      have hinside : '[' ∉ left ++ digits ++ right := fun h => hnot (List.mem_append_left _ h)
      -- What is behind the closing bracket is trimmed, and the rest is read from its end.
      have hend : (trimEnd isShorthandBlank s.toList).reverse =
          ']' :: ((left ++ digits ++ right).reverse ++ '[' :: front.reverse) := by
        have hsplit : s.toList =
            (front ++ '[' :: (left ++ digits ++ right)) ++ [']'] ++ trail := by
          rw [hs]
          simp
        rw [hsplit, Text.trimEnd_append_of_all _ htrail, Text.trimEnd_concat _ (by decide)]
        simp
      have hkeep : ∀ c ∈ (left ++ digits ++ right).reverse, decide (c ≠ '[') = true := by
        intro c hc
        refine decide_eq_true ?_
        rintro rfl
        exact hinside (List.mem_reverse.mp hc)
      have htake : ((left ++ digits ++ right).reverse ++ '[' :: front.reverse).takeWhile
          (fun c => decide (c ≠ '[')) = (left ++ digits ++ right).reverse := by
        rw [List.takeWhile_append_of_pos hkeep, List.takeWhile_cons_of_neg (by decide),
          List.append_nil]
      have hdrop : ((left ++ digits ++ right).reverse ++ '[' :: front.reverse).dropWhile
          (fun c => decide (c ≠ '[')) = '[' :: front.reverse := by
        rw [List.dropWhile_append_of_pos hkeep, List.dropWhile_cons_of_neg (by decide)]
      have hnumber : trimShorthand (left ++ digits ++ right) = digits :=
        Text.trimBoth_padded hleft hright hne
          (fun c hc => (apart_of_digit (hdigits c (List.mem_of_mem_head? hc))).1)
          (fun c hc => (apart_of_digit (hdigits c (List.mem_of_mem_getLast? hc))).1)
      have hdigit : (digits.isEmpty || !digits.all Char.isDigit) = false := by
        rw [List.all_eq_true.mpr hdigits, List.isEmpty_eq_false_iff.mpr hne]
        rfl
      simp only [splitShorthand, hend, htake, hdrop, List.reverse_reverse, hnumber, hdigit,
        Bool.false_eq_true, if_false]

/-- Only what ends in a bracket is split. -/
theorem bracketed_of_splitShorthand (h : splitShorthand s = some (type, digits)) :
    ∃ front bracket, s.toList = front ++ bracket ∧ Bracketed digits bracket := by
  obtain ⟨trail, hs, htrail⟩ := Text.exists_trimEnd_append isShorthandBlank s.toList
  rw [splitShorthand] at h
  dsimp only at h
  split at h
  · rename_i rest hrest
    split at h
    · rename_i before hbefore
      split at h
      · cases h
      · rename_i hnumber
        obtain ⟨_, -, hpair⟩ := Option.map_eq_some_iff.mp h
        obtain rfl := congrArg Prod.snd hpair
        obtain ⟨left, right, hinside, hleft, hright⟩ :=
          Text.exists_append_trimBoth_append isShorthandBlank (rest.takeWhile (· ≠ '[')).reverse
        rw [Bool.or_eq_true, not_or, List.isEmpty_iff, Bool.not_eq_true', Bool.not_eq_false,
          List.all_eq_true] at hnumber
        refine ⟨before.reverse, _, ?_, .intro hleft hright htrail hnumber.1 hnumber.2⟩
        have hread : trimEnd isShorthandBlank s.toList =
            before.reverse ++ '[' :: ((rest.takeWhile (· ≠ '[')).reverse ++ [']']) := by
          have hrest' : rest = rest.takeWhile (· ≠ '[') ++ '[' :: before := by
            rw [← hbefore, List.takeWhile_append_dropWhile]
          have hback := congrArg List.reverse hrest
          rw [List.reverse_reverse, hrest'] at hback
          rw [hback]
          simp
        rw [hs, hread]
        conv_lhs => rw [hinside]
        simp [trimShorthand]
    · cases h
  · cases h

/-- **The split is the first match of the pattern.** -/
theorem splitShorthand_eq_firstMatch (s : String) :
    (splitShorthand s).map (fun split => [split.1, split.2]) =
      firstMatch shorthandPattern s.toList := by
  by_cases hbracket : ∃ front bracket digits, s.toList = front ++ bracket ∧
      Bracketed digits bracket
  · obtain ⟨front, bracket, digits, hs, h⟩ := hbracket
    rw [splitShorthand_of_bracketed hs h, hs, firstMatch_shorthand h, Option.map_map]
    rfl
  · have hsplit : splitShorthand s = none := by
      rw [Option.eq_none_iff_forall_ne_some]
      rintro ⟨type, digits⟩ h
      obtain ⟨front, bracket, hs, h⟩ := bracketed_of_splitShorthand h
      exact hbracket ⟨front, bracket, digits, hs, h⟩
    have hmatch : firstMatch shorthandPattern s.toList = none := by
      rw [Option.eq_none_iff_forall_ne_some]
      intro kept h
      obtain ⟨lead, front, hs, -, h⟩ := of_matches_blanks (Text.firstMatch_sound h)
      obtain ⟨type, rest, more, rfl, rfl, -, -, h⟩ := of_matches_typeName h
      obtain ⟨gap, bracket, rfl, -, h⟩ := of_matches_blanks h
      obtain ⟨digits, -, h⟩ := bracketed_of_matches h
      exact hbracket ⟨lead ++ type ++ gap, bracket, digits, by rw [hs]; simp, h⟩
    rw [hsplit, hmatch, Option.map_none]

/-! ## Written shorthands -/

/-- A type that a shorthand can name whatever stands around it. -/
structure Nameable (type : List Char) : Prop where
  nonempty : type ≠ []
  oneLine : '\n' ∉ type
  first : ∀ c ∈ type.head?, isShorthandBlank c = false
  last : ∀ c ∈ type.getLast?, isShorthandBlank c = false

/-- A text that is a type and a number in brackets, with white space around the type, inside the
brackets and behind them. -/
inductive Written : (type digits text : List Char) → Prop
  | intro {lead type gap digits bracket : List Char}
      (hlead : ∀ c ∈ lead, isShorthandBlank c = true) (hgap : ∀ c ∈ gap, isShorthandBlank c = true)
      (h : Bracketed digits bracket) : Written type digits (lead ++ type ++ gap ++ bracket)

/-- **A shorthand is split into the type and the digits it is written with.** -/
theorem splitShorthand_of_written (htype : Nameable type) (h : Written type digits s.toList) :
    splitShorthand s = some (type, digits) := by
  generalize hs : s.toList = text at h
  cases h with
  | @intro lead _ gap _ bracket hlead hgap h =>
      have htrim : trimShorthand (lead ++ type ++ gap) = type :=
        Text.trimBoth_padded hlead hgap htype.nonempty htype.first htype.last
      have hne : trimShorthand (lead ++ type ++ gap) ≠ [] := by
        rw [htrim]
        exact htype.nonempty
      rw [splitShorthand_of_bracketed hs h, shorthandType_of_ne_nil hne, htrim,
        if_neg htype.oneLine, Option.map_some]

/-- **Only shorthands are split.** -/
theorem written_of_splitShorthand (h : splitShorthand s = some (type, digits)) :
    type ≠ [] ∧ '\n' ∉ type ∧ Written type digits s.toList := by
  have hfirst : firstMatch shorthandPattern s.toList = some [type, digits] := by
    rw [← splitShorthand_eq_firstMatch, h, Option.map_some]
  obtain ⟨lead, rest, hs, hlead, hrest⟩ := of_matches_blanks (Text.firstMatch_sound hfirst)
  obtain ⟨type, rest, more, rfl, hkept, hne, hline, hrest⟩ := of_matches_typeName hrest
  obtain ⟨gap, bracket, rfl, hgap, hbracket⟩ := of_matches_blanks hrest
  obtain ⟨digits, rfl, h⟩ := bracketed_of_matches hbracket
  cases hkept
  refine ⟨hne, hline, ?_⟩
  rw [hs, ← List.append_assoc, ← List.append_assoc]
  exact .intro hlead hgap h

/-- However a text is written as a shorthand, it is with the same digits. -/
theorem Written.digits_eq {type' digits' : List Char} (h' : Written type' digits' s.toList)
    (h : splitShorthand s = some (type, digits)) : digits' = digits := by
  generalize hs : s.toList = text at h'
  cases h' with
  | intro hlead hgap hbracket =>
      rw [splitShorthand_of_bracketed hs hbracket] at h
      obtain ⟨_, -, hpair⟩ := Option.map_eq_some_iff.mp h
      exact congrArg Prod.snd hpair

end Split

end WireSchema.Schema
