import Mathlib
import WireSchema.Proofs.Plan.Derived

/-!
# Counts and lists on the wire

A count is read before its list and kept until the list comes up, unless the list is not on the
wire.  The decoder finds a count by the name of its field, so what it needs of a plan is a statement
about the steps alone: before the step of a list there is exactly one that keeps the count of the
list, and after a step that keeps a count exactly one that uses it.

A sound plan says the same about fields, and has unique names of fields.

## Main result

* `Sound.paired` — the steps of a sound plan pair counts and lists.
-/

namespace WireSchema.Plan

/-- The step reads the count `k` and keeps it. -/
def DecodeStep.keepsCount (k : String) : DecodeStep → Bool
  | .count f _ _ discard => f == k && !discard
  | _ => false

/-- The step reads a list that is as long as the count `k` says. -/
def DecodeStep.usesCount (k : String) : DecodeStep → Bool
  | .variableList _ _ c => c == k
  | _ => false

/-- Each list comes after its count, which is kept, and each count that is kept comes before its
list; neither has a second partner there. -/
structure Paired (steps : List DecodeStep) : Prop where
  list : ∀ pre f e k post, steps = pre ++ .variableList f e k :: post →
    pre.countP (·.keepsCount k) = 1
  count : ∀ pre k l t post, steps = pre ++ .count k l t false :: post →
    post.countP (·.usesCount k) = 1

theorem DecodeStep.keepsCount_iff {k : String} {step : DecodeStep} :
    step.keepsCount k = true ↔ ∃ l t, step = .count k l t false := by
  cases step <;> simp [keepsCount]

theorem DecodeStep.usesCount_iff {k : String} {step : DecodeStep} :
    step.usesCount k = true ↔ ∃ f e, step = .variableList f e k := by
  cases step <;> simp [usesCount]

/-- Among fields with unique names there is one at most that has the name `k`. -/
theorem countP_of_name {fields : List Field} (hnodup : (fields.map (·.name)).Nodup)
    {q : Field → Bool} {k : String} (hq : ∀ f ∈ fields, q f = true → f.name = k) {f : Field}
    (hf : f ∈ fields) (hqf : q f = true) : fields.countP q = 1 := by
  have hle : fields.countP q ≤ 1 := calc
    fields.countP q ≤ fields.countP fun g => g.name == k :=
      List.countP_mono_left fun g hg hqg => beq_iff_eq.mpr (hq g hg hqg)
    _ = (fields.map (·.name)).count k := by
      rw [List.count, List.countP_map]
      rfl
    _ ≤ 1 := List.nodup_iff_count_le_one.mp hnodup k
  have hpos : 0 < fields.countP q := List.countP_pos_iff.mpr ⟨f, hf, hqf⟩
  omega

section Sound

variable {p : Plan}

/-- The fields on the wire. -/
def wireFields (p : Plan) : List Field := p.fields.filter (·.serialized)

/-- The step that reads a field of the plan. -/
def stepOf (p : Plan) (f : Field) : DecodeStep := f.step (p.discardsCount f)

/-- Every step but the parent's is that of a field on the wire. -/
theorem Sound.decode_split (hp : p.Sound) {pre post : List DecodeStep} {step : DecodeStep}
    (hsplit : p.decode = pre ++ step :: post) (hstep : ∀ name, step ≠ .parent name) :
    ∃ before f after, p.wireFields = before ++ f :: after ∧ p.stepOf f = step ∧
      pre = p.parentSteps ++ before.map p.stepOf ∧ post = after.map p.stepOf := by
  have hdecode : p.parentSteps ++ p.wireFields.map p.stepOf = pre ++ step :: post :=
    hp.decode.symm.trans hsplit
  have hnotParent : step ∉ p.parentSteps := by
    intro hmem
    rw [parentSteps] at hmem
    split at hmem
    · exact hstep _ (List.mem_singleton.mp hmem)
    · cases hmem
  obtain ⟨steps, hpre, hsteps⟩ : ∃ steps, pre = p.parentSteps ++ steps ∧
      p.wireFields.map p.stepOf = steps ++ step :: post := by
    rcases List.append_eq_append_iff.mp hdecode with ⟨steps, hpre, hsteps⟩ | ⟨rest, hparent, hrest⟩
    · exact ⟨steps, hpre, hsteps⟩
    · cases rest with
      | nil => exact ⟨[], by simpa using hparent.symm, hrest.symm⟩
      | cons first rest =>
          obtain ⟨rfl, -⟩ := List.cons.inj hrest
          exact absurd (hparent ▸ List.mem_append_right _ List.mem_cons_self) hnotParent
  obtain ⟨before, tail, hfields, rfl, htail⟩ := List.map_eq_append_iff.mp hsteps
  obtain ⟨f, after, rfl, hf, rfl⟩ := List.map_eq_cons_iff.mp htail
  exact ⟨before, f, after, hfields, hf, hpre, rfl⟩

/-- Every step but the parent's belongs to a field on the wire. -/
theorem Sound.exists_wireField (hp : p.Sound) {step : DecodeStep} (hmem : step ∈ p.decode)
    (hstep : ∀ name, step ≠ .parent name) : ∃ f ∈ p.wireFields, p.stepOf f = step := by
  obtain ⟨pre, post, hsplit⟩ := List.append_of_mem hmem
  obtain ⟨before, f, after, hfields, hf, -⟩ := hp.decode_split hsplit hstep
  exact ⟨f, by simp [hfields], hf⟩

theorem Sound.wireFields_nodup (hp : p.Sound) : (p.wireFields.map (·.name)).Nodup :=
  hp.nodup.sublist (List.filter_sublist.map _)

/-- The count of a list on the wire is on the wire before it. -/
theorem Sound.counted_wire (hp : p.Sound) {before after : List Field} {f : Field}
    (hsplit : p.wireFields = before ++ f :: after) (hshape : f.shape = .variableList) :
    ∃ k ∈ before, k.name = f.countField ∧ k.stored = false ∧ k.countOf = f.name := by
  obtain ⟨front, rest, hfields, rfl, hrest⟩ := List.filter_eq_append_iff.mp hsplit
  obtain ⟨skipped, post, rfl, hskipped, hser, rfl⟩ := List.filter_eq_cons_iff.mp hrest
  obtain ⟨k, hk, hkser, hname, hstored, hof⟩ :=
    hp.counted (front ++ skipped) f post (by simp [hfields]) hser hshape
  refine ⟨k, List.mem_filter.mpr ⟨?_, hkser⟩, hname, hstored, hof⟩
  rcases List.mem_append.mp hk with hk | hk
  · exact hk
  · exact absurd hkser (hskipped k hk)

theorem mem_wireFields {f : Field} : f ∈ p.wireFields ↔ f ∈ p.fields ∧ f.serialized = true :=
  List.mem_filter

/-- A field that is not stored is the count of a list. -/
theorem Sound.of_unstored (hp : p.Sound) {k : Field} (hk : k ∈ p.fields)
    (hstored : k.stored = false) : ∃ t l, k.shape = .primitive ∧ k.elem = .primitive t ∧
      l ∈ p.fields ∧ l.name = k.countOf ∧ l.shape = .variableList ∧ l.countField = k.name := by
  cases hp.field k hk with
  | count t l hshape helem _ _ hl hname hlshape hback =>
      exact ⟨t, l, hshape, helem, hl, hname, hlshape, hback⟩
  | number t hshape helem hbad => simp [hbad] at hstored
  | reference type hshape helem hbad => simp [hbad] at hstored
  | fixedList n hshape hlen hpos hbad => simp [hbad] at hstored
  | variableList g hshape hbad => simp [hbad] at hstored

/-- A variable list has a count. -/
theorem Sound.of_variableList (hp : p.Sound) {l : Field} (hl : l ∈ p.fields)
    (hshape : l.shape = .variableList) : l.stored = true ∧
      ∃ k ∈ p.fields, k.name = l.countField ∧ k.stored = false ∧ k.countOf = l.name := by
  cases hp.field l hl with
  | variableList k _ hstored _ hk hname hunstored hback =>
      exact ⟨hstored, k, hk, hname, hunstored, hback⟩
  | number t hbad => simp [hbad] at hshape
  | count t g hbad => simp [hbad] at hshape
  | reference type hbad => simp [hbad] at hshape
  | fixedList n hbad => simp [hbad] at hshape

/-- The step of the count of a list on the wire. -/
theorem Sound.stepOf_eq_count (hp : p.Sound) {k l : Field} (hk : k ∈ p.fields) (hl : l ∈ p.fields)
    (hser : l.serialized = true) (hstored : k.stored = false) (hof : k.countOf = l.name) :
    ∃ t, k.elem = .primitive t ∧ p.stepOf k = .count k.name k.countOf t false := by
  have hkept : p.discardsCount k = false := by rw [hp.discardsCount_eq hl hof.symm, hser]; rfl
  obtain ⟨t, -, hshape, helem, -⟩ := hp.of_unstored hk hstored
  exact ⟨t, helem, by simp [stepOf, Field.step_count hshape helem hstored, hkept]⟩

theorem Sound.stepOf_count (hp : p.Sound) {k l : Field} (hk : k ∈ p.fields) (hl : l ∈ p.fields)
    (hser : l.serialized = true) (hstored : k.stored = false) (hof : k.countOf = l.name) :
    (p.stepOf k).keepsCount k.name = true := by
  obtain ⟨t, -, hstep⟩ := hp.stepOf_eq_count hk hl hser hstored hof
  exact DecodeStep.keepsCount_iff.mpr ⟨_, t, hstep⟩

/-- **The steps of a sound plan pair counts and lists.** -/
theorem Sound.paired (hp : p.Sound) : Paired p.decode := by
  refine ⟨?_, ?_⟩
  · intro pre f e k post hsplit
    obtain ⟨before, l, after, hfields, hstep, rfl, -⟩ := hp.decode_split hsplit (by simp)
    obtain ⟨hshape, -, -, rfl⟩ := Field.step_eq_variableList hstep
    obtain ⟨g, hg, hname, hstored, hof⟩ := hp.counted_wire hfields hshape
    have hl : l ∈ p.wireFields := by simp [hfields]
    have hgw : g ∈ p.wireFields := by simp [hfields, hg]
    have hnone : p.parentSteps.countP (·.keepsCount l.countField) = 0 := by
      rw [parentSteps]
      split <;> rfl
    have hnodup : (before.map (·.name)).Nodup := by
      refine hp.wireFields_nodup.sublist (List.Sublist.map _ ?_)
      rw [hfields]
      exact List.sublist_append_left _ _
    rw [List.countP_append, hnone, Nat.zero_add, List.countP_map]
    refine countP_of_name hnodup (k := l.countField) (fun h hh hkeeps => ?_) hg ?_
    · obtain ⟨list, t, hcount⟩ := DecodeStep.keepsCount_iff.mp hkeeps
      exact (Field.step_eq_count hcount).1
    · rw [Function.comp_apply, ← hname]
      exact hp.stepOf_count (mem_wireFields.mp hgw).1 (mem_wireFields.mp hl).1
        (mem_wireFields.mp hl).2 hstored hof
  · intro pre k list t post hsplit
    obtain ⟨before, g, after, hfields, hstep, -, rfl⟩ := hp.decode_split hsplit (by simp)
    obtain ⟨rfl, -, hstored, hdiscard⟩ := Field.step_eq_count hstep
    have hg : g ∈ p.fields := (mem_wireFields.mp (by simp [hfields])).1
    -- The list that the count names is on the wire, or the count would be discarded.
    obtain ⟨-, l, -, -, hl, hlname, hlshape, hback⟩ := hp.of_unstored hg hstored
    have hser : l.serialized = true := by
      rw [hp.discardsCount_eq hl hlname] at hdiscard
      simpa using hdiscard
    have hnodup := hp.wireFields_nodup
    -- It is not on the wire before its count.
    have hafter : l ∈ after := by
      have hmem : l ∈ before ++ g :: after := hfields ▸ mem_wireFields.mpr ⟨hl, hser⟩
      rcases List.mem_append.mp hmem with hearly | hlate
      · obtain ⟨first, between, rfl⟩ := List.append_of_mem hearly
        have hearlier : p.wireFields = first ++ l :: (between ++ g :: after) := by simp [hfields]
        obtain ⟨g', hg', hname', -⟩ := hp.counted_wire hearlier hlshape
        rw [hfields, List.map_append, List.map_cons] at hnodup
        refine absurd (hname'.trans hback) ?_
        exact (List.nodup_append.mp hnodup).2.2 _
          (List.mem_map_of_mem (List.mem_append_left _ hg')) _ List.mem_cons_self
      · rcases List.mem_cons.mp hlate with rfl | hlate
        · rw [(hp.of_variableList hg hlshape).1] at hstored
          cases hstored
        · exact hlate
    have hsub : after.Sublist p.wireFields := by
      rw [hfields]
      exact (List.sublist_cons_self _ _).trans (List.sublist_append_right _ _)
    rw [List.countP_map]
    refine countP_of_name (hnodup.sublist (hsub.map _)) (k := l.name) (fun h hh huses => ?_)
      hafter ?_
    · obtain ⟨f, e, hvar⟩ := DecodeStep.usesCount_iff.mp huses
      obtain ⟨hshape, -, -, hcount⟩ := Field.step_eq_variableList hvar
      -- A list that names the same count is the list of that count.
      have hh' := (mem_wireFields.mp (hsub.subset hh)).1
      obtain ⟨-, g', hg', hname, -, hback'⟩ := hp.of_variableList hh' hshape
      obtain rfl := hp.field_unique hg' hg (hname.trans hcount)
      exact hback'.symm.trans hlname.symm
    · simp [stepOf, Field.step_variableList hlshape, DecodeStep.usesCount, hback]

end Sound

end WireSchema.Plan
