import Mathlib
import WireSchema.Proofs.Resolve.Again

/-!
# Lists and count fields come in pairs

Binding goes through the variable lists of a message type and gives each a count field.  Nothing
goes through the count fields in this way: that each of them has a list in the end follows from the
checks made afterwards, which leave out the case that a flagged attribute names a variable list,
because the list has found it then.

## Main results

* `Binds.flagged` — a pass flags nothing that it does not bind.
* `Binds.claimed` — a flagged attribute that names one of the lists visited is bound to it.
* `bindCounts_flagged` — without an error every flagged attribute has a list.
* `run_paired` — in every message type of a resolved model, variable lists and count fields are
  paired one to one, and nothing else has a link.
-/

namespace WireSchema.Resolve

/-- The variable lists and the count fields of the message type at `i` are each other's: the links
from one to the other and back are inverse, and no other attribute has one. -/
structure Paired (i : Nat) (attrs : List Attribute) : Prop where
  list : ∀ (k : Nat) (a : Attribute), attrs[k]? = some a → a.isVariableList = true →
    ∃ (j : Nat) (p : Attribute) (t : Primitive), a.countField? = some ⟨i, j⟩ ∧
      attrs[j]? = some p ∧ p.isCount = true ∧
      p.isPrimitive = true ∧ p.primitive? = some t ∧ t.kind.isInteger = true ∧
      p.countedList? = some ⟨i, k⟩
  count : ∀ (k : Nat) (p : Attribute), attrs[k]? = some p → p.isCount = true →
    ∃ (j : Nat) (a : Attribute), p.countedList? = some ⟨i, j⟩ ∧
      attrs[j]? = some a ∧ a.isVariableList = true ∧
      a.countField? = some ⟨i, k⟩
  uncountable : ∀ a ∈ attrs, a.isVariableList = false → a.countField? = none
  unflagged : ∀ p ∈ attrs, p.isCount = false → p.countedList? = none

/-! ## A pass in which every list finds its count field -/

section Pass

variable {ci : Nat} {places : List Nat} {attrs final : List Attribute}

/-- Who is flagged in the end was flagged at the start or is bound to a list. -/
theorem Binds.flagged (h : Binds ci places attrs final) :
    ∀ (k : Nat) (a f : Attribute), attrs[k]? = some a → final[k]? = some f → f.isCount = true →
      a.isCount = true ∨ f.countedList?.isSome = true := by
  induction h with
  | done attrs =>
      intro k a f ha hf hcount
      obtain rfl := Option.some.inj (ha.symm.trans hf)
      exact Or.inl hcount
  | skip hother tail ih => exact ih
  | @bind li pi rest attrs final list p hli hvar hone hpi hable hfree tail ih =>
      intro k a f ha hf hcount
      rcases getElem?_bound_cases ci hli hpi ha with
        ⟨-, rfl, hk⟩ | ⟨-, -, rfl, hk⟩ | ⟨-, -, hk⟩
      · exact ih k (asList ci pi a) f hk hf hcount
      · obtain ⟨f', hf', hsettled⟩ := tail.settles k _ hk
        obtain rfl := Option.some.inj (hf.symm.trans hf')
        rw [hsettled.counted _ rfl]
        exact Or.inr rfl
      · exact ih k a f hk hf hcount

/-- Who names one of the lists visited is its only candidate when its turn comes, and keeps the
link. -/
theorem Binds.claimed (h : Binds ci places attrs final) :
    ∀ (k l : Nat) (a list : Attribute), attrs[k]? = some a → a.isCount = true → a.counts ≠ "" →
      l ∈ places → attrs[l]? = some list → list.isVariableList = true → a.counts = list.name →
      k ≠ l → ∃ f, final[k]? = some f ∧ f.countedList? = some ⟨ci, l⟩ := by
  induction h with
  | done attrs =>
      intro k l a list _ _ _ hl
      cases hl
  | @skip li rest attrs final hother tail ih =>
      intro k l a list ha hcount hcounts hl hlist hvar hname hkl
      rcases List.mem_cons.mp hl with rfl | hl
      · rw [hother list hlist] at hvar
        cases hvar
      · exact ih k l a list ha hcount hcounts hl hlist hvar hname hkl
  | @bind li pi rest attrs final first p hli hvar₀ hone hpi hable hfree tail ih =>
      intro k l a list ha hcount hcounts hl hlist hvar hname hkl
      have hne : pi ≠ li := (candidates?_mem hone (List.mem_singleton_self pi)).1
      by_cases hll : l = li
      · subst hll
        obtain rfl := Option.some.inj (hli.symm.trans hlist)
        have hflagged : k ∈ flaggedFor attrs l first :=
          mem_flaggedFor.mpr ⟨hkl, a, ha, hcount, hname⟩
        obtain rfl : k = pi := List.mem_singleton.mp (flaggedFor_subset hone hflagged)
        obtain ⟨f, hf, hsettled⟩ := tail.settles k _ (getElem?_bound_count ci hli hpi hne)
        exact ⟨f, hf, hsettled.counted _ rfl⟩
      · have hl' : l ∈ rest := (List.mem_cons.mp hl).resolve_left hll
        have hadv : Advances attrs
            ((attrs.set pi (asCount ci li first p)).set li (asList ci pi first)) :=
          advances_bound hli hpi hne
        -- The list is still a list of its name, and the attribute still claims it.
        obtain ⟨list', hlist', hkeep⟩ := hadv.keeps l list hlist
        have hvar' : list'.isVariableList = true :=
          (isVariableList_of_uncounted hkeep.uncounted_eq).trans hvar
        have hname' : list'.name = list.name := name_of_uncounted hkeep.uncounted_eq
        obtain ⟨b, hb, hab⟩ := settles_bound ci hli hpi hfree ha
        obtain ⟨b', hb', hkeep'⟩ := hadv.keeps k a ha
        obtain rfl := Option.some.inj (hb.symm.trans hb')
        have hcounts' : b.counts = a.counts := hab.counts hcounts
        exact ih k l b list' hb (hkeep'.isCount hcount) (hcounts' ▸ hcounts) hl' hlist' hvar'
          (by rw [hcounts', hname, hname']) hkl

/-- Who is flagged in the end and names one of the lists visited is bound. -/
theorem Binds.linked (h : Binds ci places attrs final) {k l : Nat} {f list : Attribute}
    (hf : final[k]? = some f) (hcount : f.isCount = true) (hcounts : f.counts ≠ "")
    (hl : l ∈ places) (hlist : final[l]? = some list) (hvar : list.isVariableList = true)
    (hname : f.counts = list.name) (hkl : k ≠ l) : f.countedList?.isSome = true := by
  have hadv := h.advances
  -- Both are traced back to the start of the pass.
  have hat : ∀ (j : Nat) (g : Attribute), final[j]? = some g → ∃ a, attrs[j]? = some a := by
    intro j g hg
    have hlt : j < attrs.length := hadv.length_eq ▸ (List.getElem?_eq_some_iff.mp hg).1
    exact ⟨_, List.getElem?_eq_getElem hlt⟩
  obtain ⟨a, ha⟩ := hat k f hf
  obtain ⟨list₀, hlist₀⟩ := hat l list hlist
  obtain ⟨f', hf', hsettled⟩ := h.settles k a ha
  obtain rfl := Option.some.inj (hf.symm.trans hf')
  rcases h.flagged k a f ha hf hcount with hcount₀ | hlinked
  · by_cases hnone : a.counts = ""
    · obtain ⟨j, hlink, -⟩ := hsettled.gained hnone hcounts
      rw [hlink]
      rfl
    · obtain ⟨list', hlist', hkeep⟩ := hadv.keeps l list₀ hlist₀
      obtain rfl := Option.some.inj (hlist.symm.trans hlist')
      have hvar₀ : list₀.isVariableList = true :=
        (isVariableList_of_uncounted hkeep.uncounted_eq).symm.trans hvar
      have hname₀ : a.counts = list₀.name := by
        rw [← hsettled.counts hnone, hname, name_of_uncounted hkeep.uncounted_eq]
      obtain ⟨g, hg, hlink⟩ :=
        h.claimed k l a list₀ ha hcount₀ hnone hl hlist₀ hvar₀ hname₀ hkl
      obtain rfl := Option.some.inj (hf.symm.trans hg)
      rw [hlink]
      rfl
  · exact hlinked

end Pass

/-! ## A whole message type -/

theorem shape_of_countable {p : Attribute} (hable : isCountable p = true) :
    p.shape = some .primitive := by
  rw [isCountable, Bool.and_eq_true] at hable
  simpa [Attribute.isPrimitive] using hable.1

section Errorless

variable {sc : Scope} {owner : String} {ci : Nat} {attrs : List Attribute}

/-- A count field is no list. -/
theorem isVariableList_of_countable {p : Attribute} (hable : isCountable p = true) :
    p.isVariableList = false := by
  simp [Attribute.isVariableList, shape_of_countable hable]

/-- What the check of a count field leaves open once it finds nothing wrong. -/
theorem checkCount_noErrors {p : Attribute}
    (herr : (checkCount sc owner attrs p).hasErrors = false) :
    isCountable p = true ∧
      (p.countedList?.isSome = true ∨
        p.counts ≠ "" ∧ ∃ (l : Nat) (list : Attribute),
          attrs[l]? = some list ∧ list.isVariableList = true ∧
          list.name = p.counts) := by
  unfold checkCount at herr
  cases hable : isCountable p with
  | false => simp [hable] at herr
  | true =>
      refine ⟨rfl, ?_⟩
      cases hlinked : p.countedList?.isSome with
      | true => exact Or.inl rfl
      | false =>
          have hrest := herr
          simp only [hable, hlinked, Bool.not_true, Bool.false_eq_true, if_false,
            Report.hasErrors_append, Bool.or_eq_false_iff] at hrest
          cases hempty : p.counts.isEmpty with
          | true => simp [hempty] at hrest
          | false =>
              have hcounts : p.counts ≠ "" := by simpa using hempty
              cases hfind : attrs.find? (·.name == p.counts) with
              | none => simp [hempty, hfind] at hrest
              | some target =>
                  cases hvar : target.isVariableList with
                  | false => simp [hempty, hfind, hvar] at hrest
                  | true =>
                      obtain ⟨l, hl⟩ := List.mem_iff_getElem?.mp (List.mem_of_find?_eq_some hfind)
                      have hname : target.name = p.counts := by
                        simpa using List.find?_some hfind
                      exact Or.inr ⟨hcounts, l, target, hl, hvar, hname⟩

/-- Without an error every flagged attribute is bound to a list. -/
theorem bindCounts_flagged (herr : (bindCounts sc owner ci attrs).2.hasErrors = false) {k : Nat}
    {p : Attribute} (hp : (bindCounts sc owner ci attrs).1[k]? = some p)
    (hcount : p.isCount = true) : p.countedList?.isSome = true := by
  have hbinds := bindCounts_binds herr
  have hchecked := (bindCounts_noErrors herr).2 p (List.mem_of_getElem? hp) hcount
  obtain ⟨hable, hlinked | ⟨hcounts, l, list, hlist, hvar, hname⟩⟩ := checkCount_noErrors hchecked
  · exact hlinked
  · have hl : l ∈ List.range (cleared attrs).length := by
      rw [List.mem_range, ← hbinds.advances.length_eq]
      exact (List.getElem?_eq_some_iff.mp hlist).1
    refine hbinds.linked hp hcount hcounts hl hlist hvar hname.symm ?_
    rintro rfl
    obtain rfl := Option.some.inj (hp.symm.trans hlist)
    rw [isVariableList_of_countable hable] at hvar
    cases hvar

end Errorless

/-- A count field of a bound type is an integer primitive. -/
theorem integer_of_countable {m : Model} {p : Attribute} (htype : TypeBound m p)
    (hable : isCountable p = true) :
    p.isPrimitive = true ∧ ∃ t, p.primitive? = some t ∧ t.kind.isInteger = true := by
  have hshape := shape_of_countable hable
  rw [isCountable, Bool.and_eq_true] at hable
  obtain ⟨hprim, hkind⟩ := hable
  unfold TypeBound at htype
  rw [hshape] at htype
  obtain ⟨t, ht⟩ := Option.isSome_iff_exists.mp htype.1
  rw [ht] at hkind
  exact ⟨hprim, t, ht, hkind⟩

/-- Without an error every flagged attribute of a type is bound to a list. -/
theorem Clean.flagged {sc : Scope} {m m₁ m₂ m₃ : Model} (h : Clean sc m m₁ m₂ m₃) {i k : Nat}
    {c : Class} {p : Attribute} (hc : m₃.classes[i]? = some c) (hp : c.attributes[k]? = some p)
    (hcount : p.isCount = true) : p.countedList?.isSome = true := by
  obtain ⟨c₀, -, hc₁, -, rfl⟩ := h.trace hc
  exact bindCounts_flagged (bindClass_noErrors (onClasses_noErrors h.members_ok hc₁)).2 hp hcount

/-- **Count binding is one to one.**  In every message type of a resolved model each variable list
has a count field of the type that is flagged, is an integer and counts that list; each flagged
attribute counts a variable list of the type whose count field it is; and no other attribute has
either link. -/
theorem run_paired {catalog : Catalog} {limit : Int} {m : Model}
    (h : (run catalog limit m).succeeded = true) {i : Nat} {c : Class}
    (hc : (run catalog limit m).model.classes[i]? = some c) : Paired i c.attributes := by
  have hbound := run_bound h
  obtain ⟨m₁, m₂, hclean⟩ := run_clean h
  have hmem : c ∈ (run catalog limit m).model.classes := List.mem_of_getElem? hc
  have hlinks : CountLinks i c.attributes := hbound.links i c hc
  refine ⟨?_, ?_, ?_, ?_⟩
  · intro k a ha hvar
    obtain ⟨r, hr⟩ := Option.isSome_iff_exists.mp
      (hbound.counted c hmem a (List.mem_of_getElem? ha) hvar)
    obtain ⟨-, hcls, p, hp, hback⟩ := hlinks.list k a r ha hr
    obtain ⟨hcount, hable, -⟩ := hlinks.count r.attr p _ hp hback
    obtain ⟨hprim, t, ht, hkind⟩ :=
      integer_of_countable (hbound.types c hmem p (List.mem_of_getElem? hp)) hable
    exact ⟨r.attr, p, t, by rw [hr, ← hcls], hp, hcount, hprim, ht, hkind, hback⟩
  · intro k p hp hcount
    obtain ⟨r, hr⟩ := Option.isSome_iff_exists.mp (hclean.flagged hc hp hcount)
    obtain ⟨-, -, hcls, a, ha, hback⟩ := hlinks.count k p r hp hr
    obtain ⟨hvar, -⟩ := hlinks.list r.attr a _ ha hback
    exact ⟨r.attr, a, by rw [hr, ← hcls], ha, hvar, hback⟩
  · intro a ha hvar
    obtain ⟨k, hk⟩ := List.mem_iff_getElem?.mp ha
    by_contra hsome
    obtain ⟨r, hr⟩ := Option.ne_none_iff_exists'.mp hsome
    rw [(hlinks.list k a r hk hr).1] at hvar
    cases hvar
  · intro p hp hflag
    obtain ⟨k, hk⟩ := List.mem_iff_getElem?.mp hp
    by_contra hsome
    obtain ⟨r, hr⟩ := Option.ne_none_iff_exists'.mp hsome
    rw [(hlinks.count k p r hk hr).1] at hflag
    cases hflag

/-- The only list of a schema and its count field, which is flagged by the list that names it. -/
theorem run_paired_unflagged :
    (run .standard 3 unflagged).succeeded = true ∧
      ∃ c : Class, (run .standard 3 unflagged).model.classes[0]? = some c ∧
        c.attributes.length = 2 ∧
        (∃ a, c.attributes[1]? = some a ∧ a.isVariableList = true) ∧ Paired 0 c.attributes := by
  obtain ⟨hrun, c, hc, hlen, hlist⟩ : (run .standard 3 unflagged).succeeded = true ∧
      ∃ c : Class, (run .standard 3 unflagged).model.classes[0]? = some c ∧
        c.attributes.length = 2 ∧ ∃ a, c.attributes[1]? = some a ∧ a.isVariableList = true := by
    decide +kernel
  exact ⟨hrun, c, hc, hlen, hlist, run_paired hrun hc⟩

end WireSchema.Resolve
