import Mathlib
import WireSchema.Naming.Distance
import WireSchema.Text.Utf8

/-!
# The distance is the least number of edits

An edit inserts, deletes or replaces one character anywhere in a text.  `Edits n` relates texts of
which one becomes the other in `n` edits, one after the other and in any places.  Edits can be made
in front of a text that stays, undone, carried out back to front and one after the other; whatever
these say of numbers of edits holds of the least one too.

That the least number is the one of the defining recursion takes two halves: the recursion names
edits that do it, and no single edit brings a text nearer to another by more than one.

A row of the table is written over one that was filled before.  While it is written, the entries up
to some place hold and those behind it are left from then (`HoldsTo`); an entry is written from
entries that hold.  The table grows at the ends of both texts, where the recursion goes on as it
does at the fronts, since edits can be carried out back to front.

## Main results

* `isLeast_editDistance` — the defining recursion gives the least number of edits.
* `distance_eq_editDistance` — the table, with two rows that take turns, computes the recursion.
* `distance_exact` — of any two byte strings, the distance is the least number of edits.
-/

namespace WireSchema.Naming

variable {α : Type} {m n : Nat} {as bs cs : List α}

/-! ## Edits -/

/-- One insertion, deletion or replacement of a character. -/
inductive Edit : List α → List α → Prop
  | insert (front : List α) (c : α) (back : List α) : Edit (front ++ back) (front ++ c :: back)
  | delete (front : List α) (c : α) (back : List α) : Edit (front ++ c :: back) (front ++ back)
  | replace (front : List α) (c d : α) (back : List α) :
      Edit (front ++ c :: back) (front ++ d :: back)

/-- So many edits, one after the other. -/
inductive Edits : Nat → List α → List α → Prop
  | none (as : List α) : Edits 0 as as
  | next {n : Nat} {as bs cs : List α} (first : Edit as bs) (rest : Edits n bs cs) :
      Edits (n + 1) as cs

namespace Edit

theorem cons (a : α) (h : Edit as bs) : Edit (a :: as) (a :: bs) := by
  cases h with
  | insert front c back => exact .insert (a :: front) c back
  | delete front c back => exact .delete (a :: front) c back
  | replace front c d back => exact .replace (a :: front) c d back

theorem symm (h : Edit as bs) : Edit bs as := by
  cases h with
  | insert front c back => exact .delete front c back
  | delete front c back => exact .insert front c back
  | replace front c d back => exact .replace front d c back

theorem reverse (h : Edit as bs) : Edit as.reverse bs.reverse := by
  cases h with
  | insert front c back => simpa using Edit.insert back.reverse c front.reverse
  | delete front c back => simpa using Edit.delete back.reverse c front.reverse
  | replace front c d back => simpa using Edit.replace back.reverse c d front.reverse

end Edit

namespace Edits

theorem trans (h : Edits m as bs) (h' : Edits n bs cs) : Edits (m + n) as cs := by
  induction h with
  | none as => simpa using h'
  | next first _ ih =>
      have hrest := Edits.next first (ih h')
      rwa [Nat.add_right_comm] at hrest

theorem one (h : Edit as bs) : Edits 1 as bs := .next h (.none bs)

theorem drop (as : List α) : Edits as.length as [] := by
  induction as with
  | nil => exact .none []
  | cons a as ih => exact .next (.delete [] a as) ih

/-- What can be done to a text can be done behind a character that stays. -/
theorem cons (a : α) (h : Edits n as bs) : Edits n (a :: as) (a :: bs) := by
  induction h with
  | none as => exact .none (a :: as)
  | next first _ ih => exact .next (first.cons a) ih

theorem symm (h : Edits n as bs) : Edits n bs as := by
  induction h with
  | none as => exact .none as
  | next first _ ih => exact ih.trans (one first.symm)

theorem reverse (h : Edits n as bs) : Edits n as.reverse bs.reverse := by
  induction h with
  | none as => exact .none as.reverse
  | next first _ ih => exact .next first.reverse ih

end Edits

/-! ## The defining recursion -/

section Recursion

variable [DecidableEq α]

@[simp] theorem editDistance_nil_left (bs : List α) : editDistance [] bs = bs.length := by
  simp [editDistance]

@[simp] theorem editDistance_nil_right (as : List α) : editDistance as [] = as.length := by
  cases as with
  | nil => simp
  | cons a as => simp [editDistance]

theorem editDistance_cons_cons (a b : α) (as bs : List α) :
    editDistance (a :: as) (b :: bs) =
      min (min (editDistance as (b :: bs) + 1) (editDistance (a :: as) bs + 1))
        (editDistance as bs + if a = b then 0 else 1) := by
  rw [editDistance]

/-- A character more on the right costs an edit at most. -/
theorem editDistance_cons_right_le (as : List α) (b : α) (bs : List α) :
    editDistance as (b :: bs) ≤ editDistance as bs + 1 := by
  cases as with
  | nil => simp
  | cons a as =>
      rw [editDistance_cons_cons]
      omega

/-! ### Its edits

Each of the three terms of the minimum stands for one edit, or for none, in front of the edits that
the smaller texts take. -/

/-- The recursion names edits that turn one text into the other. -/
theorem edits_editDistance (as bs : List α) : Edits (editDistance as bs) as bs := by
  induction as, bs using editDistance.induct with
  | case1 bs =>
      rw [editDistance_nil_left]
      exact (Edits.drop bs).symm
  | case2 as _ =>
      rw [editDistance_nil_right]
      exact Edits.drop as
  | case3 a as b bs hdelete hinsert hboth =>
      have hdeleted : Edits (editDistance as (b :: bs) + 1) (a :: as) (b :: bs) :=
        .next (.delete [] a as) hdelete
      have hinserted : Edits (editDistance (a :: as) bs + 1) (a :: as) (b :: bs) :=
        hinsert.trans (.one (.insert [] b bs))
      have hkept : Edits (editDistance as bs + if a = b then 0 else 1) (a :: as) (b :: bs) := by
        by_cases hab : a = b
        · subst hab
          rw [if_pos rfl]
          exact hboth.cons a
        · rw [if_neg hab]
          exact (hboth.cons a).trans (.one (.replace [] a b bs))
      rw [editDistance_cons_cons]
      rcases min_choice (min (editDistance as (b :: bs) + 1) (editDistance (a :: as) bs + 1))
        (editDistance as bs + if a = b then 0 else 1) with hmin | hmin
      · rw [hmin]
        rcases min_choice (editDistance as (b :: bs) + 1) (editDistance (a :: as) bs + 1) with
          hmin | hmin
        · rwa [hmin]
        · rwa [hmin]
      · rwa [hmin]

/-! ### No edit gains more than one -/

/-- A text is no more than one nearer to any other text than a second text is. -/
def Nearby (as bs : List α) : Prop := ∀ cs, editDistance as cs ≤ editDistance bs cs + 1

namespace Nearby

theorem of_delete (a : α) (as : List α) : Nearby (a :: as) as := by
  intro cs
  cases cs with
  | nil => simp
  | cons c cs =>
      rw [editDistance_cons_cons]
      omega

theorem of_insert (a : α) (as : List α) : Nearby as (a :: as) := by
  intro cs
  induction cs with
  | nil => simp; omega
  | cons c cs ih =>
      have hcons := editDistance_cons_right_le as c cs
      rw [editDistance_cons_cons]
      omega

theorem of_replace (a b : α) (as : List α) : Nearby (a :: as) (b :: as) := by
  intro cs
  induction cs with
  | nil => simp
  | cons c cs ih =>
      rw [editDistance_cons_cons, editDistance_cons_cons]
      have hcost : (if a = c then 0 else 1) ≤ (if b = c then 0 else 1) + 1 := by
        split <;> omega
      omega

/-- A character in front of both texts makes no difference. -/
theorem cons (a : α) (h : Nearby as bs) : Nearby (a :: as) (a :: bs) := by
  intro cs
  induction cs with
  | nil => simpa using h []
  | cons c cs ih =>
      have hdelete := h (c :: cs)
      have hboth := h cs
      rw [editDistance_cons_cons, editDistance_cons_cons]
      omega

theorem append (front : List α) (h : Nearby as bs) : Nearby (front ++ as) (front ++ bs) := by
  induction front with
  | nil => exact h
  | cons a front ih => exact ih.cons a

end Nearby

theorem Edit.nearby (h : Edit as bs) : Nearby as bs := by
  cases h with
  | insert front c back => exact (Nearby.of_insert c back).append front
  | delete front c back => exact (Nearby.of_delete c back).append front
  | replace front c d back => exact (Nearby.of_replace c d back).append front

@[simp] theorem editDistance_self (as : List α) : editDistance as as = 0 := by
  induction as with
  | nil => simp
  | cons a as ih =>
      rw [editDistance_cons_cons, if_pos rfl]
      omega

theorem editDistance_le_of_edits (h : Edits n as bs) : editDistance as bs ≤ n := by
  induction h with
  | none as => simp
  | @next n as bs cs first _ ih =>
      have hfirst := first.nearby cs
      omega

/-- **The defining recursion gives the least number of edits.** -/
theorem isLeast_editDistance (as bs : List α) :
    IsLeast {n | Edits n as bs} (editDistance as bs) :=
  ⟨edits_editDistance as bs, fun _ h => editDistance_le_of_edits h⟩

/-! ### What holds of edits holds of the least number of them -/

theorem editDistance_comm (as bs : List α) : editDistance as bs = editDistance bs as := by
  apply le_antisymm
  · exact editDistance_le_of_edits (edits_editDistance bs as).symm
  · exact editDistance_le_of_edits (edits_editDistance as bs).symm

theorem editDistance_reverse (as bs : List α) :
    editDistance as.reverse bs.reverse = editDistance as bs := by
  apply le_antisymm
  · exact editDistance_le_of_edits (edits_editDistance as bs).reverse
  · have hback := (edits_editDistance as.reverse bs.reverse).reverse
    rw [List.reverse_reverse, List.reverse_reverse] at hback
    exact editDistance_le_of_edits hback

theorem editDistance_triangle (as bs cs : List α) :
    editDistance as cs ≤ editDistance as bs + editDistance bs cs :=
  editDistance_le_of_edits ((edits_editDistance as bs).trans (edits_editDistance bs cs))

theorem editDistance_eq_zero_iff : editDistance as bs = 0 ↔ as = bs := by
  constructor
  · intro hzero
    have hedits := edits_editDistance as bs
    rw [hzero] at hedits
    cases hedits
    rfl
  · intro hsame
    rw [hsame, editDistance_self]

/-- Replacing character for character and dropping the rest never takes more edits than the longer
text has characters. -/
theorem editDistance_le_max (as bs : List α) :
    editDistance as bs ≤ max as.length bs.length := by
  induction as, bs using editDistance.induct with
  | case1 bs => simp
  | case2 as _ => simp
  | case3 a as b bs _ _ hboth =>
      have hcost : (if a = b then 0 else 1) ≤ 1 := by split <;> omega
      rw [editDistance_cons_cons, List.length_cons, List.length_cons]
      omega

/-- The defining recursion goes on from the last characters as it does from the first. -/
theorem editDistance_concat (a b : α) (as bs : List α) :
    editDistance (as ++ [a]) (bs ++ [b]) =
      min (min (editDistance (as ++ [a]) bs + 1) (editDistance as (bs ++ [b]) + 1))
        (editDistance as bs + if a = b then 0 else 1) := by
  have hback := editDistance_cons_cons a b as.reverse bs.reverse
  rw [← List.reverse_concat, ← List.reverse_concat] at hback
  simp only [← List.concat_eq_append] at hback ⊢
  simp only [editDistance_reverse] at hback
  rw [hback, Nat.min_comm (editDistance as (bs.concat b) + 1)]

/-! ## The table -/

variable {above row : Row as} {b : α}

/-- The entries of a row up to the one at `n` are the distances of the fronts of a text from another
text. -/
def HoldsTo (n : Nat) (row : Row as) (bs : List α) : Prop :=
  ∀ i (hi : i ≤ as.length), i ≤ n → row[i] = editDistance (as.take i) bs

/-- Only entries that hold are read for the next one, so it does not matter what stood there. -/
theorem HoldsTo.succ (hrow : HoldsTo n row (bs ++ [b])) (habove : HoldsTo as.length above bs)
    (hn : n < as.length) : HoldsTo (n + 1) (writeEntry as b above row n hn) (bs ++ [b]) := by
  intro i hi hin
  rw [writeEntry, Vector.getElem_set]
  split
  · rename_i heq
    subst heq
    rw [List.take_succ_eq_append_getElem hn, editDistance_concat,
      ← List.take_succ_eq_append_getElem hn, habove (n + 1) hi hi, habove n hn.le hn.le,
      hrow n hn.le le_rfl]
  · exact hrow i hi (by omega)

/-- A row is filled whatever it held before. -/
theorem holdsTo_writeRow (habove : HoldsTo as.length above bs) (row : Row as) :
    HoldsTo as.length (writeRow as b (bs.length + 1) above row) (bs ++ [b]) := by
  have hwritten : ∀ n (hn : n ≤ as.length), HoldsTo n
      (n.fold (fun i hi row => writeEntry as b above row i (by omega))
        (row.set 0 (bs.length + 1))) (bs ++ [b]) := by
    intro n
    induction n with
    | zero =>
        intro _ i hi hzero
        obtain rfl : i = 0 := by omega
        simp
    | succ n ih =>
        intro hn
        rw [Nat.fold_succ]
        exact (ih (by omega)).succ habove hn
  exact hwritten as.length le_rfl

/-- Whatever the spare row holds, the row filled last is the one of the characters behind. -/
theorem holdsTo_foldl_next (rows : Rows as) (done bs : List α)
    (hrows : HoldsTo as.length rows.filled done) :
    HoldsTo as.length ((bs.zipIdx (done.length + 1)).foldl Rows.next rows).filled (done ++ bs) := by
  induction bs generalizing rows done with
  | nil => simpa using hrows
  | cons b bs ih =>
      have hnext : HoldsTo as.length (rows.next (b, done.length + 1)).filled (done ++ [b]) :=
        holdsTo_writeRow hrows rows.spare
      have hrest := ih _ _ hnext
      rw [List.length_append, List.append_assoc] at hrest
      exact hrest

theorem lastEntry_eq_editDistance (as bs : List α) : lastEntry as bs = editDistance as bs := by
  have hstart : HoldsTo as.length (Vector.ofFn (·.val) : Row as) [] := by
    intro i hi _
    simp [hi]
  have hlast := holdsTo_foldl_next ⟨_, Vector.replicate _ 0⟩ [] bs hstart as.length le_rfl le_rfl
  rw [List.take_length] at hlast
  exact hlast

/-- A table over the same characters ends in zero. -/
theorem lastEntry_self (as : List α) : lastEntry as as = 0 := by
  rw [lastEntry_eq_editDistance, editDistance_self]

/-- **The table computes the recursion**, and so do the ways around it. -/
theorem distance_eq_editDistance (as bs : List α) : distance as bs = editDistance as bs := by
  unfold distance
  split
  · rename_i hsame
    rw [hsame, editDistance_self]
  split
  · rename_i hempty
    rw [List.isEmpty_iff.mp hempty, editDistance_nil_left]
  split
  · rename_i hempty
    rw [List.isEmpty_iff.mp hempty, editDistance_nil_right]
  split
  · rw [lastEntry_eq_editDistance, editDistance_comm]
  · rw [lastEntry_eq_editDistance]

end Recursion

/-! ## Byte strings -/

/-- The characters of a byte string; a stray byte counts as the replacement character. -/
def charsOf (bytes : List UInt8) : List Char := (Text.decode bytes).map Text.Glyph.toChar

/-- Where the first shortcut compares the bytes themselves, different bytes for the same characters
go on to the table, which gives the same distance. -/
theorem distance_of_bytes (s t : List UInt8) :
    distance (charsOf s) (charsOf t) =
      if s = t then 0
      else if (charsOf s).isEmpty then (charsOf t).length
      else if (charsOf t).isEmpty then (charsOf s).length
      else if (charsOf t).length < (charsOf s).length then lastEntry (charsOf t) (charsOf s)
      else lastEntry (charsOf s) (charsOf t) := by
  by_cases hbytes : s = t
  · rw [if_pos hbytes, hbytes, distance, if_pos rfl]
  rw [if_neg hbytes, distance]
  split
  · rename_i hchars
    rw [hchars, lastEntry_self, ite_self]
    split
    · rename_i hempty
      rw [List.isEmpty_iff.mp hempty, List.length_nil]
    · rfl
  · rfl

/-- **The distance of two byte strings is the least number of edits** that turn the characters of
one into those of the other. -/
theorem distance_exact (s t : List UInt8) :
    IsLeast {n | Edits n (charsOf s) (charsOf t)} (distance (charsOf s) (charsOf t)) ∧
    distance (charsOf s) (charsOf t) = distance (charsOf t) (charsOf s) ∧
    (∀ u, distance (charsOf s) (charsOf u) ≤
      distance (charsOf s) (charsOf t) + distance (charsOf t) (charsOf u)) ∧
    (distance (charsOf s) (charsOf t) = 0 ↔ charsOf s = charsOf t) ∧
    distance (charsOf s) (charsOf t) ≤ max (charsOf s).length (charsOf t).length := by
  simp only [distance_eq_editDistance]
  exact ⟨isLeast_editDistance _ _, editDistance_comm _ _,
    fun u => editDistance_triangle _ _ (charsOf u), editDistance_eq_zero_iff,
    editDistance_le_max _ _⟩

/-- Distances are counted in characters, and a stray byte is one. -/
example : distance (charsOf [0x67, 0x72, 0xc3, 0xb6, 0xff]) (charsOf [0x67, 0x72, 0x6f]) = 2 := by
  decide +kernel

end WireSchema.Naming
