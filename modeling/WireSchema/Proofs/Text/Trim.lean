import Mathlib
import WireSchema.Text.Blank

/-!
# Trimmed texts

Trimming splits a text into what is left of it and what is dropped at its ends.  From the front it
goes character by character: what is dropped at the end depends on whether anything else follows.

## Main results

* `trimEnd_cons` — trimming the end, from the front.
* `exists_append_trimBoth_append` — what is dropped.
* `trimBoth_padded` — what is left when something was put around a text.
-/

namespace WireSchema.Text

variable {p : Char → Bool} {c : Char} {cs : List Char}

theorem trimEnd_cons (p : Char → Bool) (c : Char) (cs : List Char) :
    trimEnd p (c :: cs) = if (c :: cs).all p then [] else c :: trimEnd p cs := by
  have hall : (cs.reverse.dropWhile p).isEmpty = cs.all p := by
    rw [Bool.eq_iff_iff, List.isEmpty_iff, List.dropWhile_eq_nil_iff, List.all_eq_true]
    exact forall_congr' fun d => by rw [List.mem_reverse]
  rw [trimEnd, List.reverse_cons, List.dropWhile_append, hall, List.all_cons]
  by_cases hcs : cs.all p = true
  · have hnil : cs.reverse.dropWhile p = [] := by rwa [← List.isEmpty_iff, hall]
    rw [if_pos hcs, hcs, Bool.and_true, trimEnd, hnil, List.dropWhile_cons]
    split <;> rfl
  · rw [if_neg hcs, if_neg (by rw [Bool.and_eq_true]; exact fun h => hcs h.2), List.reverse_append,
      List.reverse_singleton, List.singleton_append, trimEnd]

theorem trimEnd_of_all (h : cs.all p = true) : trimEnd p cs = [] := by
  cases cs with
  | nil => rfl
  | cons c cs => rw [trimEnd_cons, if_pos h]

theorem trimEnd_append_of_all (cs : List Char) {trail : List Char}
    (h : ∀ c ∈ trail, p c = true) : trimEnd p (cs ++ trail) = trimEnd p cs := by
  rw [trimEnd, List.reverse_append,
    List.dropWhile_append_of_pos fun c hc => h c (List.mem_reverse.mp hc), trimEnd]

theorem trimEnd_concat (cs : List Char) (h : p c = false) : trimEnd p (cs ++ [c]) = cs ++ [c] := by
  rw [trimEnd, List.reverse_append, List.reverse_singleton, List.singleton_append,
    List.dropWhile_cons_of_neg (Bool.eq_false_iff.mp h), List.reverse_cons, List.reverse_reverse]

/-- What is trimmed off the end. -/
theorem exists_trimEnd_append (p : Char → Bool) (cs : List Char) :
    ∃ trail, cs = trimEnd p cs ++ trail ∧ ∀ c ∈ trail, p c = true := by
  refine ⟨(cs.reverse.takeWhile p).reverse, ?_, fun c hc => ?_⟩
  · rw [trimEnd, ← List.reverse_append, List.takeWhile_append_dropWhile, List.reverse_reverse]
  · exact List.mem_takeWhile_imp (List.mem_reverse.mp hc)

theorem trimBoth_eq (p : Char → Bool) (cs : List Char) :
    trimBoth p cs = trimEnd p (cs.dropWhile p) := rfl

theorem trimBoth_cons_of_pos (cs : List Char) (h : p c = true) :
    trimBoth p (c :: cs) = trimBoth p cs := by
  rw [trimBoth, List.dropWhile_cons_of_pos h, trimBoth]

theorem trimBoth_cons_of_neg (cs : List Char) (h : ¬ p c = true) :
    trimBoth p (c :: cs) = c :: trimEnd p cs := by
  have hall : ¬ (c :: cs).all p = true :=
    fun hall => h (List.all_eq_true.mp hall c List.mem_cons_self)
  rw [trimBoth_eq, List.dropWhile_cons_of_neg h, trimEnd_cons, if_neg hall]

theorem trimBoth_eq_nil_iff : trimBoth p cs = [] ↔ cs.all p = true := by
  induction cs with
  | nil => exact iff_of_true rfl rfl
  | cons c cs ih =>
      by_cases hc : p c = true
      · rw [trimBoth_cons_of_pos cs hc, ih, List.all_cons, hc, Bool.true_and]
      · rw [trimBoth_cons_of_neg cs hc, List.all_cons]
        exact iff_of_false (List.cons_ne_nil _ _)
          fun h => hc ((Bool.and_eq_true _ _).mp h).1

theorem mem_trimEnd_of_mem_trimBoth {d : Char} (h : d ∈ trimBoth p cs) : d ∈ trimEnd p cs := by
  induction cs with
  | nil => exact h
  | cons c cs ih =>
      by_cases hc : p c = true
      · rw [trimBoth_cons_of_pos cs hc] at h
        have hall : ¬ (c :: cs).all p = true := fun hall => by
          have hnil := trimBoth_eq_nil_iff.mpr hall
          rw [trimBoth_cons_of_pos cs hc] at hnil
          exact List.ne_nil_of_mem h hnil
        rw [trimEnd_cons, if_neg hall]
        exact List.mem_cons_of_mem c (ih h)
      · rw [trimBoth_cons_of_neg cs hc] at h
        have hall : ¬ (c :: cs).all p = true :=
          fun hall => hc (List.all_eq_true.mp hall c List.mem_cons_self)
        rwa [trimEnd_cons, if_neg hall]

/-- What is trimmed off both ends. -/
theorem exists_append_trimBoth_append (p : Char → Bool) (cs : List Char) :
    ∃ lead trail, cs = lead ++ trimBoth p cs ++ trail ∧ (∀ c ∈ lead, p c = true) ∧
      ∀ c ∈ trail, p c = true := by
  obtain ⟨trail, hcs, htrail⟩ := exists_trimEnd_append p (cs.dropWhile p)
  refine ⟨cs.takeWhile p, trail, ?_, fun c hc => List.mem_takeWhile_imp hc, htrail⟩
  rw [List.append_assoc, trimBoth_eq, ← hcs, List.takeWhile_append_dropWhile]

/-- A text that neither begins nor ends with white space is what trimming leaves of it when it has
some around it. -/
theorem trimBoth_padded {lead trail : List Char} (hlead : ∀ c ∈ lead, p c = true)
    (htrail : ∀ c ∈ trail, p c = true) (hne : cs ≠ [])
    (hfirst : ∀ c ∈ cs.head?, p c = false) (hlast : ∀ c ∈ cs.getLast?, p c = false) :
    trimBoth p (lead ++ cs ++ trail) = cs := by
  obtain ⟨c, more, rfl⟩ := List.exists_cons_of_ne_nil hne
  have hc : ¬ p c = true := Bool.eq_false_iff.mp (hfirst c rfl)
  obtain ⟨front, d, hend⟩ := (c :: more).eq_nil_or_concat.resolve_left hne
  rw [List.concat_eq_append] at hend
  rw [hend, List.getLast?_concat] at hlast
  rw [List.append_assoc, trimBoth_eq, List.dropWhile_append_of_pos hlead, List.cons_append,
    List.dropWhile_cons_of_neg hc, ← List.cons_append, trimEnd_append_of_all _ htrail, hend,
    trimEnd_concat front (hlast d rfl)]

end WireSchema.Text
