import Mathlib
import WireSchema.Proofs.Resolve.Paired

/-!
# What becomes of the names that count fields declare

A count field may declare which list it counts, and a list may declare its count field.  The names
that count fields declare are checked after binding, and only of those that no list has taken.  So a
list can take a count field that declares something else: the name it declares is then left as it
is, even when it is the name of nothing.

## Main results

* `declared_ghost` — a count field bound to one list that says it counts another, without an error.
* `run_counts_declared` — on success a count field has the name of its list, unless its list asked
  for it and no list has the name that it has; a name that no list has is reported if no list asked
  either.
-/

namespace WireSchema.Resolve

/-! ## Taken by name or on request -/

/-- A candidate says that it counts the list, or the list asks for it. -/
theorem candidates?_origin {attrs : List Attribute} {li i : Nat} {list p : Attribute}
    {places : List Nat} (h : candidates? attrs li list = some places) (hi : i ∈ places)
    (hp : attrs[i]? = some p) :
    (p.isCount = true ∧ p.counts = list.name) ∨ list.countFieldName = p.name := by
  have hflagged : i ∈ flaggedFor attrs li list → p.isCount = true ∧ p.counts = list.name := by
    intro hmem
    obtain ⟨-, p', hp', hcount, hname⟩ := mem_flaggedFor.mp hmem
    obtain rfl := Option.some.inj (hp.symm.trans hp')
    exact ⟨hcount, hname⟩
  rcases candidates?_eq_some.mp h with ⟨-, rfl⟩ | ⟨-, j, hfind, -, rfl⟩
  · exact Or.inl (hflagged hi)
  · rcases mem_appendNew.mp hi with hold | rfl
    · exact Or.inl (hflagged hold)
    · obtain ⟨hlt, hname, -⟩ := List.findIdx?_eq_some_iff_getElem.mp hfind
      obtain rfl := Option.some.inj ((List.getElem?_eq_getElem hlt).symm.trans hp)
      exact Or.inr (beq_iff_eq.mp hname).symm

/-- Every bound count field has the name of its list, or its list asked for it. -/
def Answered (attrs : List Attribute) : Prop :=
  ∀ (k : Nat) (p : Attribute) (r : AttrRef), attrs[k]? = some p → p.countedList? = some r →
    ∃ list, attrs[r.attr]? = some list ∧ (p.counts = list.name ∨ list.countFieldName = p.name)

section Pass

variable {ci : Nat} {places : List Nat} {attrs final : List Attribute}

theorem answered_cleared (attrs : List Attribute) : Answered (cleared attrs) := by
  intro k p r hp hr
  simp only [cleared, List.getElem?_map, Option.map_eq_some_iff] at hp
  obtain ⟨a, -, rfl⟩ := hp
  cases hr

/-- Binding a pair answers for the count field it binds, and leaves what was answered before. -/
theorem Answered.bind (h : Answered attrs) {li pi : Nat} {list p : Attribute}
    (hli : attrs[li]? = some list) (hpi : attrs[pi]? = some p)
    (hone : candidates? attrs li list = some [pi]) :
    Answered ((attrs.set pi (asCount ci li list p)).set li (asList ci pi list)) := by
  have hmem : pi ∈ [pi] := List.mem_singleton_self pi
  have hne : pi ≠ li := (candidates?_mem hone hmem).1
  have hadv : Advances attrs ((attrs.set pi (asCount ci li list p)).set li (asList ci pi list)) :=
    advances_bound hli hpi hne
  -- The lists keep the two names that an answer is about.
  have hkeep : ∀ (a : Attribute) (r : AttrRef) (b : Attribute), attrs[r.attr]? = some b →
      (a.counts = b.name ∨ b.countFieldName = a.name) →
      ∃ b', ((attrs.set pi (asCount ci li list p)).set li (asList ci pi list))[r.attr]? = some b' ∧
        (a.counts = b'.name ∨ b'.countFieldName = a.name) := by
    intro a r b hb hanswer
    obtain ⟨b', hb', hkeeps⟩ := hadv.keeps r.attr b hb
    refine ⟨b', hb', ?_⟩
    rwa [name_of_uncounted hkeeps.uncounted_eq, countFieldName_of_uncounted hkeeps.uncounted_eq]
  intro k a' r ha' hr
  have hlt : k < attrs.length := hadv.length_eq ▸ (List.getElem?_eq_some_iff.mp ha').1
  rcases getElem?_bound_cases ci hli hpi (List.getElem?_eq_getElem hlt) with
    ⟨rfl, -, hk⟩ | ⟨-, rfl, -, hk⟩ | ⟨-, -, hk⟩ <;>
    obtain rfl := Option.some.inj (hk.symm.trans ha')
  · obtain ⟨b, hb, hanswer⟩ := h k list r hli hr
    exact hkeep _ r b hb hanswer
  · obtain rfl : (⟨ci, li⟩ : AttrRef) = r := Option.some.inj hr
    refine ⟨asList ci k list, getElem?_bound_list ci hli hpi, ?_⟩
    rcases candidates?_origin hone hmem hpi with ⟨-, hname⟩ | hasked
    · left
      show (if p.counts.isEmpty then list.name else p.counts) = list.name
      rw [hname, ite_self]
    · exact Or.inr hasked
  · obtain ⟨b, hb, hanswer⟩ := h k _ r (List.getElem?_eq_getElem hlt) hr
    exact hkeep _ r b hb hanswer

theorem Binds.answered (h : Binds ci places attrs final) : Answered attrs → Answered final := by
  induction h with
  | done attrs => exact id
  | skip hother tail ih => exact ih
  | bind hli hvar hone hpi hable hfree tail ih =>
      exact fun hanswered => ih (hanswered.bind hli hpi hone)

/-- Among labelled attributes, who has the name of a list in the end is bound to this list. -/
theorem Binds.bound_to_named (h : Binds ci places attrs final)
    (hlabelled : ∀ a ∈ attrs, a.Labelled) (hnodup : (attrs.map (·.name)).Nodup) {k l : Nat}
    {f list : Attribute} (hf : final[k]? = some f) (hl : l ∈ places)
    (hlist : final[l]? = some list) (hvar : list.isVariableList = true)
    (hname : f.counts = list.name) (hkl : k ≠ l) : f.countedList? = some ⟨ci, l⟩ := by
  have hadv := h.advances
  obtain ⟨a, ha⟩ : ∃ a, attrs[k]? = some a :=
    ⟨_, List.getElem?_eq_getElem (hadv.length_eq ▸ (List.getElem?_eq_some_iff.mp hf).1)⟩
  obtain ⟨list₀, hlist₀⟩ : ∃ b, attrs[l]? = some b :=
    ⟨_, List.getElem?_eq_getElem (hadv.length_eq ▸ (List.getElem?_eq_some_iff.mp hlist).1)⟩
  obtain ⟨list', hlist', hkeep⟩ := hadv.keeps l list₀ hlist₀
  obtain rfl := Option.some.inj (hlist.symm.trans hlist')
  obtain ⟨f', hf', hsettled⟩ := h.settles k a ha
  obtain rfl := Option.some.inj (hf.symm.trans hf')
  have hname₀ : f.counts = list₀.name := by rw [hname, name_of_uncounted hkeep.uncounted_eq]
  by_cases hnone : a.counts = ""
  · -- The name was filled in by the list that the attribute is bound to.
    have hnamed : f.counts ≠ "" := hname₀ ▸ (hlabelled list₀ (List.mem_of_getElem? hlist₀)).named
    obtain ⟨j, hlink, hj⟩ := hsettled.gained hnone hnamed
    obtain ⟨hlt, hj⟩ := List.getElem?_eq_some_iff.mp hj
    have hl₀ : (attrs.map (·.name))[l]? = some f.counts := by
      rw [List.getElem?_map, hlist₀, Option.map_some, hname₀]
    obtain ⟨hlt', hl₀⟩ := List.getElem?_eq_some_iff.mp hl₀
    obtain rfl : j = l := hnodup.getElem_inj_iff.mp (hj.trans hl₀.symm)
    exact hlink
  · have hcount : a.isCount = true := by
      rw [(hlabelled a (List.mem_of_getElem? ha)).flagged]
      simpa using hnone
    have hvar₀ : list₀.isVariableList = true :=
      (isVariableList_of_uncounted hkeep.uncounted_eq).symm.trans hvar
    obtain ⟨g, hg, hlink⟩ := h.claimed k l a list₀ ha hcount hnone hl hlist₀ hvar₀
      (by rw [← hsettled.counts hnone, hname₀]) hkl
    obtain rfl := Option.some.inj (hf.symm.trans hg)
    exact hlink

end Pass

/-- What a count field of the message type at `i` is bound to: the list it names, or, where no list
has that name, one that asked for it. -/
def Honoured (i : Nat) (attrs : List Attribute) (p : Attribute) : Prop :=
  ∃ (l : Nat) (list : Attribute), p.countedList? = some ⟨i, l⟩ ∧ attrs[l]? = some list ∧
    list.isVariableList = true ∧
    (p.counts = list.name ∨
      list.countFieldName = p.name ∧ ∀ a ∈ attrs, a.isVariableList = true → a.name ≠ p.counts)

/-- Without an error, binding honours the names that count fields have. -/
theorem bindCounts_honoured {sc : Scope} {owner : String} {ci : Nat} {attrs : List Attribute}
    (herr : (bindCounts sc owner ci attrs).2.hasErrors = false)
    (hlabelled : ∀ a ∈ attrs, a.Labelled) (hnodup : (attrs.map (·.name)).Nodup) {k : Nat}
    {p : Attribute} (hp : (bindCounts sc owner ci attrs).1[k]? = some p)
    (hcount : p.isCount = true) : Honoured ci (bindCounts sc owner ci attrs).1 p := by
  have hbinds := bindCounts_binds herr
  have hlinks := bindCounts_links sc owner ci attrs
  have hnodup₀ : ((cleared attrs).map (·.name)).Nodup := by
    simpa [cleared, Function.comp_def] using hnodup
  obtain ⟨r, hr⟩ := Option.isSome_iff_exists.mp (bindCounts_flagged herr hp hcount)
  obtain ⟨-, hable, hcls, list, hlist, hback⟩ := hlinks.count k p r hp hr
  obtain ⟨hvar, -⟩ := hlinks.list r.attr list _ hlist hback
  refine ⟨r.attr, list, by rw [hr, ← hcls], hlist, hvar, ?_⟩
  by_cases hsame : p.counts = list.name
  · exact Or.inl hsame
  · obtain ⟨list', hlist', hanswer⟩ := hbinds.answered (answered_cleared attrs) k p r hp hr
    obtain rfl := Option.some.inj (hlist.symm.trans hlist')
    refine Or.inr ⟨hanswer.resolve_left hsame, fun a ha hvar' hname => hsame ?_⟩
    -- A list of that name would be the list the count field is bound to.
    obtain ⟨l, hl⟩ := List.mem_iff_getElem?.mp ha
    have hkl : k ≠ l := by
      rintro rfl
      obtain rfl := Option.some.inj (hp.symm.trans hl)
      rw [isVariableList_of_countable hable] at hvar'
      cases hvar'
    have hplace : l ∈ List.range (cleared attrs).length := by
      rw [List.mem_range, ← hbinds.advances.length_eq]
      exact (List.getElem?_eq_some_iff.mp hl).1
    have hlink := hbinds.bound_to_named (cleared_labelled hlabelled) hnodup₀ hp hplace hl hvar'
      hname.symm hkl
    obtain rfl : r = ⟨ci, l⟩ := Option.some.inj (hr.symm.trans hlink)
    obtain rfl := Option.some.inj (hlist.symm.trans hl)
    exact hname.symm

theorem Clean.honoured {sc : Scope} {m m₁ m₂ m₃ : Model} (h : Clean sc m m₁ m₂ m₃)
    (hlabelled : ∀ c ∈ m.classes, ∀ a ∈ c.attributes, a.Labelled) {i k : Nat} {c : Class}
    {p : Attribute} (hc : m₃.classes[i]? = some c) (hp : c.attributes[k]? = some p)
    (hcount : p.isCount = true) : Honoured i c.attributes p := by
  obtain ⟨c₀, hc₀, hc₁, -, rfl⟩ := h.trace hc
  have hmem : c₀ ∈ m.classes := List.mem_of_getElem? hc₀
  refine bindCounts_honoured (bindClass_noErrors (onClasses_noErrors h.members_ok hc₁)).2 ?_ ?_ hp
    hcount
  · rw [bindParent_attributes]
    exact bindAttributes_labelled sc _ (hlabelled c₀ hmem)
  · rw [bindAttribute_names, bindParent_attributes]
    exact (repeatedNames_nodup m.classes [] h.repeated_ok).2.2 c₀ hmem

/-! ## Names that no list has -/

/-- No variable list has the name that an attribute declares, and none asks for the attribute. -/
def Ghost (attrs : List Attribute) (p : Attribute) : Prop :=
  ∀ b ∈ attrs, b.isVariableList = true → b.name ≠ p.counts ∧ b.countFieldName ≠ p.name

section Ghost

variable {attrs : List Attribute} {k : Nat} {p : Attribute}

theorem Ghost.advances {attrs' : List Attribute} (h : Ghost attrs p)
    (hadv : Advances attrs attrs') :
    Ghost attrs' p := by
  intro b' hb' hvar
  obtain ⟨j, hj⟩ := List.mem_iff_getElem?.mp hb'
  have hb : attrs[j]? = some _ :=
    List.getElem?_eq_getElem (hadv.length_eq ▸ (List.getElem?_eq_some_iff.mp hj).1)
  obtain ⟨b'', hb'', hkeep⟩ := hadv.keeps j _ hb
  obtain rfl := Option.some.inj (hj.symm.trans hb'')
  rw [name_of_uncounted hkeep.uncounted_eq, countFieldName_of_uncounted hkeep.uncounted_eq]
  exact h _ (List.mem_of_getElem? hb)
    ((isVariableList_of_uncounted hkeep.uncounted_eq).symm.trans hvar)

/-- An attribute as another one but for the link to a count field. -/
def SameCount (p p' : Attribute) : Prop :=
  p'.name = p.name ∧ p'.isCount = p.isCount ∧ p'.counts = p.counts ∧
    p'.countedList? = p.countedList?

theorem SameCount.refl (p : Attribute) : SameCount p p := ⟨rfl, rfl, rfl, rfl⟩

theorem SameCount.trans {p q r : Attribute} (hpq : SameCount p q) (hqr : SameCount q r) :
    SameCount p r :=
  ⟨hqr.1.trans hpq.1, hqr.2.1.trans hpq.2.1, hqr.2.2.1.trans hpq.2.2.1, hqr.2.2.2.trans hpq.2.2.2⟩

/-- An attribute that no list names or asks for is not taken when a list is bound. -/
theorem bindList_ghost (sc : Scope) (owner : String) (ci : Nat) {li : Nat} {list : Attribute}
    (hp : attrs[k]? = some p) (hghost : Ghost attrs p) (hli : attrs[li]? = some list)
    (hvar : list.isVariableList = true) :
    ∃ p', (bindList sc owner ci attrs li list).1[k]? = some p' ∧ SameCount p p' := by
  rcases bindList_cases sc owner ci attrs li list with ⟨hout, -⟩ | ⟨pi, q, hone, hne, hpi, hout⟩
  · exact ⟨p, by rw [hout, hp], .refl p⟩
  have hkp : k ≠ pi := by
    rintro rfl
    obtain ⟨hname, hasked⟩ := hghost list (List.mem_of_getElem? hli) hvar
    rcases candidates?_origin hone (List.mem_singleton_self k) hp with ⟨-, hcounts⟩ | hfield
    · exact hname hcounts.symm
    · exact hasked hfield
  rw [hout]
  rcases bindPair_cases owner ci attrs li pi list q with ⟨hflag, -⟩ | ⟨-, -, hbound⟩
  · rw [hflag]
    exact ⟨p, by rw [List.getElem?_set_ne (Ne.symm hkp), hp], .refl p⟩
  · rw [hbound]
    rcases getElem?_bound_cases ci hli hpi hp with
      ⟨-, rfl, hk⟩ | ⟨-, heq, -⟩ | ⟨-, -, hk⟩
    · exact ⟨_, hk, .refl p⟩
    · exact absurd heq hkp
    · exact ⟨p, hk, .refl p⟩

theorem bindLists_ghost (sc : Scope) (owner : String) (ci : Nat) (places : List Nat) :
    ∀ (attrs : List Attribute) (p : Attribute), attrs[k]? = some p → Ghost attrs p →
      ∃ p', (bindLists sc owner ci places attrs).1[k]? = some p' ∧ SameCount p p' := by
  induction places with
  | nil => exact fun attrs p hp _ => ⟨p, hp, .refl p⟩
  | cons li rest ih =>
      intro attrs p hp hghost
      rw [bindLists]
      cases hli : attrs[li]? with
      | none => exact ih attrs p hp hghost
      | some list =>
          cases hvar : list.isVariableList with
          | false =>
              simp only [hvar, Bool.false_eq_true, if_false]
              exact ih attrs p hp hghost
          | true =>
              simp only [hvar, if_true]
              obtain ⟨q, hq, hpq⟩ := bindList_ghost sc owner ci hp hghost hli hvar
              have hghost' : Ghost (bindList sc owner ci attrs li list).1 q := by
                have h := hghost.advances (bindList_advances sc owner ci hli)
                rw [Ghost, ← hpq.1, ← hpq.2.2.1] at h
                exact h
              obtain ⟨r, hr, hqr⟩ := ih _ q hq hghost'
              exact ⟨r, hr, hpq.trans hqr⟩

/-- A report says that a count field of a type is not resolved. -/
def Unresolved (r : Report) (type field : String) : Prop :=
  ∃ d ∈ r.errors, d.code = Diagnostic.unresolvedCount ∧ d.type = type ∧ d.field = field

theorem Unresolved.error (message type field : String) (suggestions : List String) :
    Unresolved (.error Diagnostic.unresolvedCount message type field suggestions) type field :=
  ⟨_, List.mem_singleton_self _, rfl, rfl, rfl⟩

theorem Unresolved.append {r : Report} {type field : String} (h : Unresolved r type field)
    (r' : Report) : Unresolved (r' ++ r) type field := by
  obtain ⟨d, hd, hrest⟩ := h
  exact ⟨d, List.mem_append_right _ hd, hrest⟩

/-- A count field that is not bound and declares what no list is called is reported. -/
theorem checkCount_ghost (sc : Scope) (owner : String) (hlinked : p.countedList? = none)
    (hghost : Ghost attrs p) : Unresolved (checkCount sc owner attrs p) owner p.name := by
  unfold checkCount
  cases hable : isCountable p with
  | false => exact .error _ _ _ _
  | true =>
      simp only [hlinked, Bool.not_true, Bool.false_eq_true, if_false, Option.isSome_none]
      refine Unresolved.append ?_ _
      cases hempty : p.counts.isEmpty with
      | true => exact .error _ _ _ _
      | false =>
          cases hfind : attrs.find? (·.name == p.counts) with
          | none => exact .error _ _ _ _
          | some target =>
              cases hvar : target.isVariableList with
              | true =>
                  have hname : target.name = p.counts := by simpa using List.find?_some hfind
                  exact absurd hname (hghost target (List.mem_of_find?_eq_some hfind) hvar).1
              | false =>
                  simp only [hvar, Bool.false_eq_true, if_false]
                  exact .error _ _ _ _

theorem bindCounts_ghost (sc : Scope) (owner : String) (ci : Nat) (hp : attrs[k]? = some p)
    (hcount : p.isCount = true) (hghost : Ghost attrs p) :
    Unresolved (bindCounts sc owner ci attrs).2 owner p.name := by
  have hclear : (cleared attrs)[k]? =
      some { p with countField? := none, countedList? := none } := by
    rw [cleared, List.getElem?_map, hp, Option.map_some]
  have hghost₀ : Ghost (cleared attrs) { p with countField? := none, countedList? := none } := by
    intro b hb hvar
    obtain ⟨b₀, hb₀, rfl⟩ := List.mem_map.mp hb
    exact hghost b₀ hb₀ hvar
  obtain ⟨q, hq, hname, hflag, hcounts, hlink⟩ :=
    bindLists_ghost sc owner ci (List.range (cleared attrs).length) _ _ hclear hghost₀
  have hghost' : Ghost (bindCounts sc owner ci attrs).1 q := by
    have h := hghost₀.advances (bindCounts_advances sc owner ci attrs)
    rw [Ghost, ← hname, ← hcounts] at h
    exact h
  obtain ⟨d, hd, hcode, htype, hfield⟩ := checkCount_ghost sc owner hlink hghost'
  refine ⟨d, ?_, hcode, htype, hfield.trans hname⟩
  have hmem : q ∈ (bindCounts sc owner ci attrs).1.filter (·.isCount) :=
    List.mem_filter.mpr ⟨List.mem_of_getElem? hq, hflag.trans hcount⟩
  exact List.mem_append_right _ (Report.mem_errors_join.mpr ⟨_, List.mem_map_of_mem hmem, hd⟩)

end Ghost

theorem bindClass_ghost (sc : Scope) (i : Nat) (c : Class) {a : Attribute}
    (ha : a ∈ c.attributes) (hcount : a.isCount = true) (hghost : Ghost c.attributes a) :
    Unresolved (bindClass sc i c).2 c.name a.name := by
  obtain ⟨k, hk⟩ := List.mem_iff_getElem?.mp ha
  have hat : ((c.attributes.map (bindAttribute sc c.name)).map (·.1))[k]? =
      some (bindAttribute sc c.name a).1 := by
    rw [List.getElem?_map, List.getElem?_map, hk, Option.map_some, Option.map_some]
  obtain ⟨t, cl, hout, -⟩ := bindAttribute_bound sc c.name a
  rw [hout] at hat
  have hghost' : Ghost ((c.attributes.map (bindAttribute sc c.name)).map (·.1))
      { a with primitive? := t, class? := cl } := by
    intro b hb hvar
    rw [List.map_map] at hb
    obtain ⟨b₀, hb₀, rfl⟩ := List.mem_map.mp hb
    obtain ⟨t₀, cl₀, hout₀, -⟩ := bindAttribute_bound sc c.name b₀
    rw [Function.comp_apply, hout₀] at hvar ⊢
    exact hghost b₀ hb₀ hvar
  exact (bindCounts_ghost sc c.name i hat hcount hghost').append _

theorem mem_errors_onClasses {m : Model} {step : Nat → Class → Class × Report} {i : Nat} {c : Class}
    (hc : m.classes[i]? = some c) {d : Diagnostic} (hd : d ∈ (step i c).2.errors) :
    d ∈ (onClasses m step).2.errors := by
  refine Report.mem_errors_join.mpr ⟨(step i c).2, List.mem_map.mpr ⟨step i c, ?_, rfl⟩, hd⟩
  exact List.mem_iff_getElem?.mpr ⟨i, by simp [List.getElem?_mapIdx, hc]⟩

theorem run_ghost (catalog : Catalog) (limit : Int) {m : Model} {c : Class} (hc : c ∈ m.classes)
    {a : Attribute} (ha : a ∈ c.attributes) (hcount : a.isCount = true)
    (hghost : Ghost c.attributes a) :
    Unresolved (run catalog limit m).report c.name a.name := by
  let sc : Scope := ⟨catalog, m.classNames, limit⟩
  obtain ⟨i, hi⟩ := List.mem_iff_getElem?.mp hc
  have hi₁ : (onClasses m fun _ c => bindParent sc c).1.classes[i]? = some (bindParent sc c).1 := by
    rw [getElem?_onClasses, hi, Option.map_some]
  have hattrs := bindParent_attributes sc c
  obtain ⟨d, hd, hcode, htype, hfield⟩ :=
    bindClass_ghost sc i (bindParent sc c).1 (hattrs ▸ ha) hcount (hattrs ▸ hghost)
  refine ⟨d, Report.mem_errors_sort.mpr ?_, hcode, htype.trans (bindParent_name sc c), hfield⟩
  simp only [Report.errors_append, List.mem_append]
  exact Or.inl (Or.inl (Or.inr (mem_errors_onClasses hi₁ hd)))

/-! ## The whole resolution -/

/-- In labelled attributes that resolve, every count field is bound as it says, or overruled. -/
theorem run_honoured {catalog : Catalog} {limit : Int} {m : Model}
    (hlabelled : ∀ c ∈ m.classes, ∀ a ∈ c.attributes, a.Labelled)
    (h : (run catalog limit m).succeeded = true) {i : Nat} {c : Class}
    (hc : (run catalog limit m).model.classes[i]? = some c) {p : Attribute}
    (hp : p ∈ c.attributes) (hcount : p.isCount = true) : Honoured i c.attributes p := by
  obtain ⟨m₁, m₂, hclean⟩ := run_clean h
  obtain ⟨k, hk⟩ := List.mem_iff_getElem?.mp hp
  exact hclean.honoured hlabelled hc hk hcount

/-- The count fields of a loaded model that resolves are bound as they say, or overruled. -/
theorem run_loaded_honoured {catalog : Catalog} {limit : Int} {bytes : List UInt8} {m : Model}
    (hload : Schema.load bytes = .ok m) (h : (run catalog limit m).succeeded = true) {i : Nat}
    {c : Class} (hc : (run catalog limit m).model.classes[i]? = some c) {p : Attribute}
    (hp : p ∈ c.attributes) (hcount : p.isCount = true) : Honoured i c.attributes p :=
  run_honoured (Schema.load_labelled hload) h hc hp hcount

/-- **A declared count is honoured, reported, or overruled by a list.**  In the model of a file that
resolves, every count field is bound to the list whose name it has, unless its list asked for it and
no list has that name.  Resolved or not, a count field that declares what no list is called is
reported as unresolved, unless a list asked for it. -/
theorem run_counts_declared {catalog : Catalog} {limit : Int} {file : Schema.FileEntry} {m : Model}
    (hfile : file.toModel = .ok m) :
    ((run catalog limit m).succeeded = true →
      ∀ (i : Nat) (c : Class), (run catalog limit m).model.classes[i]? = some c →
        ∀ p ∈ c.attributes, p.isCount = true → Honoured i c.attributes p) ∧
    ∀ c ∈ m.classes, ∀ a ∈ c.attributes, a.isCount = true → Ghost c.attributes a →
      Unresolved (run catalog limit m).report c.name a.name := by
  constructor
  · exact fun h i c hc p hp hcount =>
      run_honoured (Schema.toModel_labelled hfile) h hc hp hcount
  · intro c hc a ha hcount hghost
    exact run_ghost catalog limit hc ha hcount hghost

/-- A schema whose count field declares what nothing is called, and is asked for by a list. -/
def overruledText : String :=
  "classes:\n- name: Node\n  attributes:\n  - name: count\n    primitive: byte\n" ++
    "    count_of: ghost\n  - name: items\n    variable_list:\n      type: byte\n" ++
    "      count_field: count\n"

/-- Its model. -/
def overruled : Model where
  classes :=
    [{ name := "Node"
       attributes :=
        [{ name := "count", shape := some .primitive, type := "byte", isCount := true,
           counts := "ghost" },
         { name := "items", shape := some .variableList, type := "byte",
           countFieldName := "count" }] }]

/-- A schema whose count field declares what nothing is called, and is asked for by nothing. -/
def strayText : String :=
  "classes:\n- name: Node\n  attributes:\n  - name: count\n    primitive: byte\n" ++
    "    count_of: ghost\n"

/-- Its model. -/
def stray : Model where
  classes :=
    [{ name := "Node"
       attributes :=
        [{ name := "count", shape := some .primitive, type := "byte", isCount := true,
           counts := "ghost" }] }]

theorem load_overruledText : Schema.load (Text.bytesOf overruledText) = .ok overruled := by
  rw [Text.bytesOf_eq]
  decide +kernel

/-- The only class of the first schema, with its count field bound to the list that asked for it. -/
def overruledClass : Class where
  name := "Node"
  attributes :=
    [{ name := "count", shape := some .primitive, type := "byte", isCount := true,
       counts := "ghost", primitive? := some ⟨"byte", .int8⟩, countedList? := some ⟨0, 1⟩ },
     { name := "items", shape := some .variableList, type := "byte", countFieldName := "count",
       primitive? := some ⟨"byte", .int8⟩, countField? := some ⟨0, 0⟩ }]

theorem run_overruled : (run .standard 3 overruled).succeeded = true ∧
    (run .standard 3 overruled).report.errors = [] ∧
    (run .standard 3 overruled).model.classes[0]? = some overruledClass := by
  decide +kernel

/-- The count field of the first schema is bound to the list that asked for it, and that of the
second is reported. -/
theorem run_counts_declared_ghosts :
    (Schema.load (Text.bytesOf overruledText) = .ok overruled ∧
      (run .standard 3 overruled).succeeded = true ∧
      ∃ (c : Class) (p : Attribute), (run .standard 3 overruled).model.classes[0]? = some c ∧
        p ∈ c.attributes ∧ p.isCount = true ∧ Honoured 0 c.attributes p) ∧
    Schema.load (Text.bytesOf strayText) = .ok stray ∧
      Unresolved (run .standard 3 stray).report "Node" "count" := by
  have hstray : Schema.load (Text.bytesOf strayText) = .ok stray := by
    rw [Text.bytesOf_eq]
    decide +kernel
  obtain ⟨hrun, -, hclass⟩ := run_overruled
  obtain ⟨overruledFile, -, hoverruledFile⟩ := Schema.toModel_of_loadWith load_overruledText
  obtain ⟨strayFile, -, hstrayFile⟩ := Schema.toModel_of_loadWith hstray
  refine ⟨⟨load_overruledText, hrun, overruledClass, _, hclass, List.mem_cons_self, rfl, ?_⟩,
    hstray, ?_⟩
  · exact (run_counts_declared hoverruledFile).1 hrun 0 overruledClass hclass _
      List.mem_cons_self rfl
  · refine (run_counts_declared hstrayFile).2 _ (List.mem_singleton_self _) _
      (List.mem_singleton_self _) rfl ?_
    intro b hb hvar
    obtain rfl := List.mem_singleton.mp hb
    cases hvar

/-- **A count field may say that it counts what does not exist.**  The schema resolves, without any
error, with its count field bound to one list and naming another, which is not declared. -/
theorem declared_ghost :
    Schema.load (Text.bytesOf overruledText) = .ok overruled ∧
      (run .standard 3 overruled).succeeded = true ∧
      (run .standard 3 overruled).report.errors = [] ∧
      ∃ (c : Class) (p list : Attribute), (run .standard 3 overruled).model.classes[0]? = some c ∧
        p ∈ c.attributes ∧ p.isCount = true ∧ p.countedList? = some ⟨0, 1⟩ ∧
        c.attributes[1]? = some list ∧ p.counts ≠ list.name ∧
        ∀ a ∈ c.attributes, a.name ≠ p.counts := by
  obtain ⟨hrun, herrors, hclass⟩ := run_overruled
  refine ⟨load_overruledText, hrun, herrors, overruledClass, _, _, hclass, List.mem_cons_self, rfl,
    rfl, rfl, ?_, ?_⟩ <;> decide

end WireSchema.Resolve
