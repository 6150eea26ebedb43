import Mathlib
import WireSchema.Proofs.Naming.Distance
import WireSchema.Proofs.Naming.Suggestion

/-!
# The suggestions are the best candidates

Scores are kept as quotients and compared by cross products.  Their values are rational numbers, and
the order of candidates is the one of their values and names.  `relevance` says what the value of a
score is without looking at how it is computed: one minus the edit distance over the longer length,
raised where the known form is the unknown one or contains it.

A ranking is an arrangement that this order allows, and there is only one.  Suggestions are cut off
its front twice, at one half and at the limit, so that whatever is left out comes after whatever is
returned.

## Main results

* `value_scoreOf` — the value of a score is what `relevance` says.
* `eq_of_ranked` — the candidates can be ranked in one way only.
* `suggest_best` — what is ranked, in which order, and which of it is suggested.
-/

namespace WireSchema.Naming

/-! ## Values of scores -/

namespace Score

/-- The quotient as a number. -/
def value (s : Score) : ℚ := s.num / s.den

@[simp] theorem value_one : one.value = 1 := by simp [value, one]

@[simp] theorem value_half : half.value = 1 / 2 := by simp [value, half]

theorem le_iff_value {a b : Score} (ha : 0 < a.den) (hb : 0 < b.den) :
    a.le b = true ↔ a.value ≤ b.value := by
  have ha' : (0 : ℚ) < a.den := by exact_mod_cast ha
  have hb' : (0 : ℚ) < b.den := by exact_mod_cast hb
  rw [le, decide_eq_true_eq, value, value, div_le_div_iff₀ ha' hb']
  norm_cast

theorem value_max {a b : Score} (ha : 0 < a.den) (hb : 0 < b.den) :
    (a.max b).value = Max.max a.value b.value := by
  unfold max
  by_cases hle : a.le b = true
  · rw [if_pos hle, max_eq_right ((le_iff_value ha hb).mp hle)]
  · have hlt : b.value < a.value := not_le.mp fun h => hle ((le_iff_value ha hb).mpr h)
    rw [if_neg hle, max_eq_left hlt.le]

end Score

theorem containsRun_iff {α : Type} [DecidableEq α] (needle hay : List α) :
    Text.containsRun needle hay = true ↔ needle <:+: hay := by
  induction hay with
  | nil => simp [Text.containsRun]
  | cons c rest ih =>
      rw [Text.containsRun, Bool.or_eq_true, ih, List.isPrefixOf_iff_prefix, List.infix_cons_iff]

/-- The share of the longer of two texts that need not be edited; all of it if both are empty. -/
def likeness {α : Type} [DecidableEq α] (as bs : List α) : ℚ :=
  1 - editDistance as bs / (max as.length bs.length : ℕ)

theorem value_similarity {α : Type} [DecidableEq α] (as bs : List α) :
    (similarity as bs).value = likeness as bs := by
  have hle := editDistance_le_max as bs
  unfold similarity likeness
  dsimp only
  split
  · rename_i hlonger
    have hzero : max as.length bs.length = 0 := hlonger
    simp [hzero]
  · rename_i hlonger
    have hpos : ((max as.length bs.length : ℕ) : ℚ) ≠ 0 := by exact_mod_cast hlonger
    show (((max as.length bs.length - distance as bs : ℕ) : ℚ) / (max as.length bs.length : ℕ)) = _
    rw [distance_eq_editDistance, Nat.cast_sub hle, sub_div, div_self hpos]

/-- The score of a known form against an unknown one. -/
def formRelevance (unknown known : List Char) : ℚ :=
  if known = unknown then 1
  else if unknown ≠ [] ∧ unknown <:+: known then max (likeness unknown known) (1 / 2)
  else likeness unknown known

/-- The score of a known name against an unknown one, as a number. -/
def relevance (unknown known : String) : ℚ :=
  formRelevance (Ident.normalize unknown.toList) (Ident.normalize known.toList)

/-- **The value of a score is the relevance.** -/
theorem value_scoreOf (unknown known : List Char) :
    (Candidate.scoreOf unknown known).value = formRelevance unknown known := by
  unfold Candidate.scoreOf formRelevance
  have hpos := Candidate.den_similarity_pos unknown known
  have hcontains : (!unknown.isEmpty && Text.containsRun unknown known) = true ↔
      unknown ≠ [] ∧ unknown <:+: known := by
    simp [containsRun_iff]
  by_cases hsame : known = unknown
  · rw [if_pos hsame, if_pos hsame, Score.value_one]
  · rw [if_neg hsame, if_neg hsame]
    by_cases hpart : unknown ≠ [] ∧ unknown <:+: known
    · rw [if_pos (hcontains.mpr hpart), if_pos hpart, Score.value_max hpos Nat.two_pos,
        value_similarity, Score.value_half]
    · rw [if_neg (mt hcontains.mp hpart), if_neg hpart, value_similarity]

/-! ## The order of candidates -/

/-- A higher score, or the same score and a smaller name. -/
def Outranks (unknown x y : String) : Prop :=
  relevance unknown y < relevance unknown x ∨
    relevance unknown x = relevance unknown y ∧ x < y

/-- A higher value, or the same value and no greater name. -/
def Leads (c d : Candidate) : Prop :=
  d.score.value < c.score.value ∨ c.score.value = d.score.value ∧ c.name ≤ d.name

/-- Candidates in the order of descending values and, where these are equal, of names. -/
def Ranked (cs : List Candidate) : Prop := cs.Pairwise Leads

section Order

variable {unknown : String} {known : List String} {c d : Candidate} {cs : List Candidate}

theorem value_make (unknown known : String) :
    (Candidate.make unknown known).score.value = relevance unknown known :=
  value_scoreOf _ _

theorem before_iff_leads (hc : 0 < c.score.den) (hd : 0 < d.score.den) :
    Candidate.before c d = true ↔ Leads c d := by
  rw [Candidate.before_iff, Score.le_iff_value hd hc, Score.le_iff_value hc hd, le_iff_lt_or_eq]
  constructor
  · rintro ⟨hlt | heq, hname⟩
    · exact Or.inl hlt
    · exact Or.inr ⟨heq.symm, hname heq.ge⟩
  · rintro (hlt | ⟨heq, hname⟩)
    · exact ⟨Or.inl hlt, fun hle => absurd hlt (not_lt.mpr hle)⟩
    · exact ⟨Or.inr heq.symm, fun _ => hname⟩

/-- Candidates that lead each other have the same name. -/
theorem Leads.name_eq (hcd : Leads c d) (hdc : Leads d c) : c.name = d.name := by
  rcases hcd with hlt | ⟨heq, hname⟩
  · rcases hdc with hlt' | ⟨heq', _⟩
    · exact absurd hlt' (not_lt.mpr hlt.le)
    · exact absurd heq' hlt.ne
  · rcases hdc with hlt' | ⟨_, hname'⟩
    · exact absurd heq hlt'.ne
    · exact hname.antisymm hname'

/-- A ranked candidate is made of a known name other than the unknown one. -/
theorem mem_rank : c ∈ rank unknown known ↔
    c.name ∈ known ∧ c.name ≠ unknown ∧ c = Candidate.make unknown c.name := by
  rw [rank, List.mem_mergeSort, List.mem_map]
  constructor
  · rintro ⟨x, hx, rfl⟩
    have hx := List.mem_filter.mp hx
    exact ⟨hx.1, of_decide_eq_true hx.2, rfl⟩
  · rintro ⟨hmem, hne, hmade⟩
    exact ⟨c.name, List.mem_filter.mpr ⟨hmem, decide_eq_true hne⟩, hmade.symm⟩

theorem value_of_mem_rank (hc : c ∈ rank unknown known) :
    c.score.value = relevance unknown c.name := by
  have hmade := (mem_rank.mp hc).2.2
  rw [hmade]
  exact value_make unknown c.name

theorem den_pos_of_mem_rank (hc : c ∈ rank unknown known) : 0 < c.score.den := by
  have hmade := (mem_rank.mp hc).2.2
  rw [hmade]
  exact Candidate.den_make_pos unknown c.name

theorem half_le_iff (hc : c ∈ rank unknown known) :
    Score.half.le c.score = true ↔ 1 / 2 ≤ relevance unknown c.name := by
  rw [Score.le_iff_value Nat.two_pos (den_pos_of_mem_rank hc), Score.value_half,
    value_of_mem_rank hc]

theorem names_rank (unknown : String) (known : List String) :
    ((rank unknown known).map (·.name)).Perm (known.filter (· ≠ unknown)) := by
  have hperm := (List.mergeSort_perm
    ((known.filter (· ≠ unknown)).map (Candidate.make unknown)) Candidate.before).map (·.name)
  rw [List.map_map] at hperm
  have hnames : ((fun c : Candidate => c.name) ∘ Candidate.make unknown) = id := rfl
  rwa [hnames, List.map_id] at hperm

theorem ranked_rank (unknown : String) (known : List String) : Ranked (rank unknown known) := by
  have hsorted : (rank unknown known).Pairwise fun c d => Candidate.before c d = true := by
    rw [rank_eq_map]
    exact List.pairwise_map.mpr (List.pairwise_mergeSort (Candidate.before_make_trans unknown)
      (Candidate.before_make_total unknown) _)
  refine hsorted.imp_of_mem ?_
  intro c d hc hd hbefore
  exact (before_iff_leads (den_pos_of_mem_rank hc) (den_pos_of_mem_rank hd)).mp hbefore

/-- **The candidates can be ranked in one way only**, so it does not matter how they are sorted. -/
theorem eq_of_ranked (hperm : cs.Perm (rank unknown known)) (hranked : Ranked cs) :
    cs = rank unknown known := by
  refine List.Perm.eq_of_pairwise ?_ hranked (ranked_rank unknown known) hperm
  intro c d hc hd hcd hdc
  rw [(mem_rank.mp (hperm.mem_iff.mp hc)).2.2, (mem_rank.mp hd).2.2, hcd.name_eq hdc]

theorem Leads.not_outranks (h : Leads c d) (hc : c ∈ rank unknown known)
    (hd : d ∈ rank unknown known) : ¬ Outranks unknown d.name c.name := by
  rw [Outranks, ← value_of_mem_rank hc, ← value_of_mem_rank hd]
  rintro (hlt | ⟨heq, hname⟩)
  · rcases h with hlt' | ⟨heq, _⟩
    · exact absurd hlt (not_lt.mpr hlt'.le)
    · exact absurd heq hlt.ne
  · rcases h with hlt | ⟨_, hle⟩
    · exact absurd heq hlt.ne
    · exact absurd hname (not_lt.mpr hle)

end Order

/-! ## What is suggested -/

/-- The candidates that score at least a half. -/
def promising (unknown : String) (known : List String) : List Candidate :=
  (rank unknown known).filter fun c => decide (1 / 2 ≤ relevance unknown c.name)

section Suggest

variable (unknown : String) (known : List String) (limit : Int)

theorem suggest_eq :
    suggest unknown known limit = (top limit (promising unknown known)).map (·.name) := by
  rw [suggest, promising]
  congr 2
  refine List.filter_congr fun c hc => ?_
  rw [Bool.eq_iff_iff, half_le_iff hc, decide_eq_true_iff]

/-- What the limit leaves of a list, followed by what it cuts off. -/
theorem exists_top_append {α : Type} (xs : List α) : ∃ rest, top limit xs ++ rest = xs := by
  unfold top
  split
  · exact ⟨[], List.append_nil xs⟩
  · exact ⟨xs.drop limit.toNat, List.take_append_drop limit.toNat xs⟩

/-- **What is left out comes after what is suggested.** -/
theorem exists_omitted :
    ∃ omitted, (suggest unknown known limit ++ omitted).Perm (known.filter (· ≠ unknown)) ∧
      ∀ x ∈ suggest unknown known limit, ∀ y ∈ omitted, ¬ Outranks unknown y x := by
  obtain ⟨cut, hcut⟩ := exists_top_append limit (promising unknown known)
  let poor := (rank unknown known).filter fun c => !decide (1 / 2 ≤ relevance unknown c.name)
  have hall : (top limit (promising unknown known) ++ (cut ++ poor)).Perm (rank unknown known) := by
    rw [← List.append_assoc, hcut]
    exact List.filter_append_perm _ _
  have hnames := (hall.map (·.name)).trans (names_rank unknown known)
  rw [List.map_append, ← suggest_eq] at hnames
  refine ⟨(cut ++ poor).map (·.name), hnames, ?_⟩
  rw [suggest_eq]
  intro x hx y hy
  obtain ⟨c, hc, rfl⟩ := List.mem_map.mp hx
  obtain ⟨d, hd, rfl⟩ := List.mem_map.mp hy
  have hcgood : c ∈ promising unknown known := hcut ▸ List.mem_append_left cut hc
  have hcrank := (List.mem_filter.mp hcgood).1
  rcases List.mem_append.mp hd with hd | hd
  · -- Both score a half, and the ranking has `c` first.
    have hdgood : d ∈ promising unknown known := hcut ▸ List.mem_append_right _ hd
    have hranked : Ranked (top limit (promising unknown known) ++ cut) := by
      rw [hcut]
      exact (ranked_rank unknown known).sublist List.filter_sublist
    have hleads : Leads c d := (List.pairwise_append.mp hranked).2.2 c hc d hd
    exact hleads.not_outranks hcrank (List.mem_filter.mp hdgood).1
  · have hhalf := of_decide_eq_true (List.mem_filter.mp hcgood).2
    obtain ⟨hdrank, hpoor⟩ := List.mem_filter.mp hd
    rw [Bool.not_eq_true', decide_eq_false_iff_not, not_le] at hpoor
    have hless : d.score.value < c.score.value := by
      rw [value_of_mem_rank hcrank, value_of_mem_rank hdrank]
      exact hpoor.trans_le hhalf
    exact Leads.not_outranks (Or.inl hless) hcrank hdrank

/-- **Ranking and suggesting, in full.**  The candidates are the known names other than the unknown
one, with their scores and distances, in the order of descending scores and then of names.  That
order leaves no choice, so neither the order of the known names nor the way of sorting matters.  The
suggestions are the first of those that score a half, and no name left out outranks one of them. -/
theorem suggest_best :
    ((rank unknown known).map (·.name)).Perm (known.filter (· ≠ unknown)) ∧
    (∀ c ∈ rank unknown known, c.score.value = relevance unknown c.name ∧
      c.distance = editDistance (Ident.normalize unknown.toList)
        (Ident.normalize c.name.toList)) ∧
    Ranked (rank unknown known) ∧
    (∀ cs : List Candidate, cs.Perm (rank unknown known) → Ranked cs →
      cs = rank unknown known) ∧
    (∀ known' : List String, known'.Perm known →
      rank unknown known' = rank unknown known) ∧
    suggest unknown known limit =
      (if limit < 0 then promising unknown known
        else (promising unknown known).take limit.toNat).map (·.name) ∧
    ∃ omitted, (suggest unknown known limit ++ omitted).Perm (known.filter (· ≠ unknown)) ∧
      ∀ x ∈ suggest unknown known limit, ∀ y ∈ omitted, ¬ Outranks unknown y x := by
  refine ⟨names_rank unknown known, ?_, ranked_rank unknown known, fun cs => eq_of_ranked,
    fun known' hperm => rank_perm unknown hperm, suggest_eq unknown known limit,
    exists_omitted unknown known limit⟩
  intro c hc
  refine ⟨value_of_mem_rank hc, ?_⟩
  have hmade := (mem_rank.mp hc).2.2
  rw [hmade]
  exact distance_eq_editDistance _ _

end Suggest

end WireSchema.Naming
