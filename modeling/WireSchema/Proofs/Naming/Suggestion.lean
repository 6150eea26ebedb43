import Mathlib
import WireSchema.Naming.Suggestion

/-!
# Suggestions do not depend on the order of the known names

Candidates are ranked by score and then by name.  Scores are quotients, and the order of quotients
is transitive only where no denominator is zero; the scores of candidates are of that kind.  Two
candidates that may stand in either order have the same name, and so they are the same candidate.

## Main results

* `rank_perm`, `suggest_perm` — known names in another order are ranked the same, and the same of
  them are suggested.
-/

namespace WireSchema.Naming

namespace Candidate

theorem den_similarity_pos {α : Type} [DecidableEq α] (as bs : List α) :
    0 < (similarity as bs).den := by
  unfold similarity
  dsimp only
  split
  · exact Nat.one_pos
  · rename_i hlonger
    exact Nat.pos_of_ne_zero hlonger

theorem den_scoreOf_pos (unknown known : List Char) : 0 < (scoreOf unknown known).den := by
  unfold scoreOf
  split
  · exact Nat.one_pos
  split
  · unfold Score.max
    split
    · exact Nat.two_pos
    · exact den_similarity_pos unknown known
  · exact den_similarity_pos unknown known

theorem le_trans_of_den_pos {a b c : Score} (hb : 0 < b.den) (hab : a.le b = true)
    (hbc : b.le c = true) : a.le c = true := by
  simp only [Score.le, decide_eq_true_eq] at hab hbc ⊢
  refine Nat.le_of_mul_le_mul_right ?_ hb
  calc a.num * c.den * b.den = a.num * b.den * c.den := by ring
    _ ≤ b.num * a.den * c.den := Nat.mul_le_mul_right _ hab
    _ = b.num * c.den * a.den := by ring
    _ ≤ c.num * b.den * a.den := Nat.mul_le_mul_right _ hbc
    _ = c.num * a.den * b.den := by ring

theorem le_or_le (a b : Score) : a.le b = true ∨ b.le a = true := by
  simp only [Score.le, decide_eq_true_eq]
  exact le_total _ _

theorem before_iff (a b : Candidate) :
    before a b = true ↔ b.score.le a.score = true ∧
        (a.score.le b.score = true → a.name ≤ b.name) := by
  unfold before
  cases hab : a.score.le b.score with
  | false => simp
  | true => cases hba : b.score.le a.score <;> simp

section Make

variable (unknown : String) (x y z : String)

theorem den_make_pos : 0 < (make unknown x).score.den := den_scoreOf_pos _ _

theorem before_make_trans (hxy : before (make unknown x) (make unknown y) = true)
    (hyz : before (make unknown y) (make unknown z) = true) :
    before (make unknown x) (make unknown z) = true := by
  rw [before_iff] at hxy hyz ⊢
  have hpos := den_make_pos unknown
  refine ⟨le_trans_of_den_pos (hpos y) hyz.1 hxy.1, fun hxz => ?_⟩
  -- Equal scores at both ends leave no room for another one between them.
  have hyx : (make unknown x).score.le (make unknown y).score = true :=
    le_trans_of_den_pos (hpos z) hxz hyz.1
  have hzy : (make unknown y).score.le (make unknown z).score = true :=
    le_trans_of_den_pos (hpos x) hxy.1 hxz
  exact (hxy.2 hyx).trans (hyz.2 hzy)

theorem before_make_total :
    (before (make unknown x) (make unknown y) || before (make unknown y) (make unknown x)) =
      true := by
  rw [Bool.or_eq_true, before_iff, before_iff]
  rcases le_or_le (make unknown x).score (make unknown y).score with hxy | hyx
  · by_cases hyx : (make unknown y).score.le (make unknown x).score = true
    · rcases le_total (make unknown x).name (make unknown y).name with hname | hname
      · exact Or.inl ⟨hyx, fun _ => hname⟩
      · exact Or.inr ⟨hxy, fun _ => hname⟩
    · exact Or.inr ⟨hxy, fun h => absurd h hyx⟩
  · by_cases hxy : (make unknown x).score.le (make unknown y).score = true
    · rcases le_total (make unknown x).name (make unknown y).name with hname | hname
      · exact Or.inl ⟨hyx, fun _ => hname⟩
      · exact Or.inr ⟨hxy, fun _ => hname⟩
    · exact Or.inl ⟨hyx, fun h => absurd h hxy⟩

theorem before_make_antisymm (hxy : before (make unknown x) (make unknown y) = true)
    (hyx : before (make unknown y) (make unknown x) = true) : x = y := by
  rw [before_iff] at hxy hyx
  exact (hxy.2 hyx.1).antisymm (hyx.2 hxy.1)

end Make

end Candidate

/-- The ranked candidates are those of the names sorted by the candidates they make. -/
theorem rank_eq_map (unknown : String) (known : List String) :
    rank unknown known =
      ((known.filter (· ≠ unknown)).mergeSort fun x y =>
        Candidate.before (.make unknown x) (.make unknown y)).map (Candidate.make unknown) :=
  (List.map_mergeSort (s := Candidate.before) fun _ _ _ _ => rfl).symm

/-- **Known names in another order are ranked the same.** -/
theorem rank_perm (unknown : String) {known known' : List String} (h : known.Perm known') :
    rank unknown known = rank unknown known' := by
  rw [rank_eq_map, rank_eq_map]
  congr 1
  have hsorted := fun l : List String =>
    List.pairwise_mergeSort (Candidate.before_make_trans unknown)
      (Candidate.before_make_total unknown) l
  exact List.Perm.eq_of_pairwise
    (fun x y _ _ hxy hyx => Candidate.before_make_antisymm unknown x y hxy hyx)
    (hsorted _) (hsorted _)
    (((List.mergeSort_perm _ _).trans (h.filter _)).trans (List.mergeSort_perm _ _).symm)

/-- **Of known names in another order the same are suggested.** -/
theorem suggest_perm (unknown : String) {known known' : List String} (h : known.Perm known')
    (limit : Int) : suggest unknown known limit = suggest unknown known' limit := by
  rw [suggest, suggest, rank_perm unknown h]

end WireSchema.Naming
