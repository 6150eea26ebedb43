import Mathlib
import WireSchema.Text.Blank

/-!
# Pieces between separators

`Text.splitBy` is the library's `List.splitOnP`, so that its laws hold here too.  No piece holds a
separator, and the first line of a text ends at its first line feed.
-/

namespace WireSchema.Text

variable {p : Char → Bool}

theorem splitBy_eq_splitOnP (cs : List Char) : splitBy p cs = cs.splitOnP p := by
  induction cs with
  | nil => simp [splitBy]
  | cons c cs ih =>
      obtain ⟨piece, rest, hpieces⟩ := List.exists_cons_of_ne_nil (List.splitOnP_ne_nil p cs)
      rw [splitBy, List.splitOnP_cons_eq_if_modifyHead, ih, hpieces]
      rfl

theorem splitBy_append_seps {sep : Char} (hsep : p sep = true) (xs : List Char) (k : Nat) :
    splitBy p (xs ++ List.replicate k sep) = splitBy p xs ++ List.replicate k [] := by
  simp only [splitBy_eq_splitOnP]
  induction k with
  | zero => simp
  | succ k ih =>
      rw [List.replicate_succ', ← List.append_assoc, List.splitOnP_append_cons _ _ hsep, ih,
        List.replicate_succ', List.append_assoc, List.splitOnP_nil]

/-- No piece holds a separator. -/
theorem of_mem_splitBy {cs : List Char} : ∀ piece ∈ splitBy p cs, ∀ c ∈ piece, p c = false := by
  induction cs with
  | nil => simp [splitBy]
  | cons c cs ih =>
      rw [splitBy]
      split
      · exact List.forall_mem_cons.mpr ⟨fun d hd => absurd hd List.not_mem_nil, ih⟩
      · rename_i hc
        have hfalse : p c = false := by simpa using hc
        split
        · simpa using hfalse
        · rename_i piece rest hcs
          rw [hcs] at ih
          obtain ⟨hpiece, hrest⟩ := List.forall_mem_cons.mp ih
          exact List.forall_mem_cons.mpr ⟨List.forall_mem_cons.mpr ⟨hfalse, hpiece⟩, hrest⟩

/-- The first piece ends at the first separator. -/
theorem splitBy_head? (cs : List Char) : (splitBy p cs).head? = some (cs.takeWhile (!p ·)) := by
  induction cs with
  | nil => rfl
  | cons c cs ih =>
      rw [splitBy]
      cases hc : p c with
      | true => simp [hc]
      | false =>
          obtain ⟨rest, hrest⟩ := List.head?_eq_some_iff.mp ih
          simp [hc, hrest]

theorem toList_of_lines_head? {s t : String} (h : (lines s).head? = some t) :
    t.toList = s.toList.takeWhile (· != '\n') := by
  rw [lines, List.head?_map, splitBy_head?, Option.map_some] at h
  rw [← Option.some.inj h, String.toList_ofList]
  rfl

/-- The first line of a text ends at its first line feed. -/
theorem lines_append {first : String} (h : '\n' ∉ first.toList) (rest : String) :
    lines (first ++ "\n" ++ rest) = first :: lines rest := by
  have hfirst : ∀ c ∈ first.toList, (c == '\n') = false :=
    fun c hc => by simpa using fun heq : c = '\n' => h (heq ▸ hc)
  have hlist : (first ++ "\n" ++ rest).toList = first.toList ++ '\n' :: rest.toList := by simp
  rw [lines, lines, hlist, splitBy_eq_splitOnP, splitBy_eq_splitOnP,
    List.splitOnP_append_cons_of_forall_mem hfirst _ rfl, List.map_cons, String.ofList_toList]

end WireSchema.Text
