import Mathlib
import WireSchema.Proofs.Resolve.Counts
import WireSchema.Proofs.Schema.Loaded

/-!
# Counting twice

Binding a list may turn an attribute into a count field and fill in what it counts.  The next time
these flags are there from the start, so lists that did without them come across new candidates.
Binding starts over and finds the same all the same: a list has no candidate besides the one it was
bound to, because who was given the name of a list was linked with that list, and a list has one
link.

`Binds` is a pass over lists that each find their count field, apart from what it is reported as.
`flagAs` gives attributes the flags they have in the end; a pass over these is the pass over the
attributes with each state flagged in this way.

## Main results

* `bindLists_binds`, `Binds.run` — a pass without errors is `Binds`, and `Binds` runs without
  errors.
* `Binds.settles` — what a pass makes of each attribute.
* `Binds.again` — a pass can be made over flags it set itself, and ends where it ended.
* `bindCounts_again` — binding the counts of a labelled message type a second time changes nothing
  and reports the same.
-/

namespace WireSchema.Resolve

/-! ## A pass in which every list finds its count field -/

/-- Binding the lists at some places, each of them to its only candidate, which is fit and free. -/
inductive Binds (ci : Nat) : List Nat → List Attribute → List Attribute → Prop where
  | done (attrs : List Attribute) : Binds ci [] attrs attrs
  | skip {li : Nat} {rest : List Nat} {attrs final : List Attribute}
      (hother : ∀ a, attrs[li]? = some a → a.isVariableList = false)
      (tail : Binds ci rest attrs final) : Binds ci (li :: rest) attrs final
  | bind {li pi : Nat} {rest : List Nat} {attrs final : List Attribute} {list p : Attribute}
      (hli : attrs[li]? = some list) (hvar : list.isVariableList = true)
      (hone : candidates? attrs li list = some [pi]) (hpi : attrs[pi]? = some p)
      (hable : isCountable p = true) (hfree : p.countedList? = none)
      (tail : Binds ci rest ((attrs.set pi (asCount ci li list p)).set li (asList ci pi list))
        final) : Binds ci (li :: rest) attrs final

theorem Binds.run (sc : Scope) (owner : String) {ci : Nat} {places : List Nat}
    {attrs final : List Attribute} (h : Binds ci places attrs final) :
    bindLists sc owner ci places attrs = (final, .empty) := by
  induction h with
  | done attrs => rfl
  | @skip li rest attrs final hother tail ih =>
      rw [bindLists]
      cases hli : attrs[li]? with
      | none => exact ih
      | some a =>
          simp only [hother a hli, Bool.false_eq_true, if_false]
          exact ih
  | bind hli hvar hone hpi hable hfree tail ih =>
      simp only [bindLists, hli, hvar, if_true, bindList_single sc owner ci hone hpi,
        bindPair_of_free owner ci _ _ _ hable hfree, ih]
      rfl

/-- A pass without errors bound every list, or it flagged an attribute that cannot count. -/
theorem bindLists_binds (sc : Scope) (owner : String) (ci : Nat) (places : List Nat) :
    ∀ attrs : List Attribute, (bindLists sc owner ci places attrs).2.hasErrors = false →
      Misflagged (bindLists sc owner ci places attrs).1 ∨
        Binds ci places attrs (bindLists sc owner ci places attrs).1 := by
  induction places with
  | nil => exact fun attrs _ => Or.inr (.done attrs)
  | cons li rest ih =>
      intro attrs
      -- A place that holds no list is passed over.
      have hskip : (∀ a, attrs[li]? = some a → a.isVariableList = false) →
          (bindLists sc owner ci rest attrs).2.hasErrors = false →
          Misflagged (bindLists sc owner ci rest attrs).1 ∨
            Binds ci (li :: rest) attrs (bindLists sc owner ci rest attrs).1 :=
        fun hother herr => (ih attrs herr).imp id (.skip hother)
      rw [bindLists]
      cases hli : attrs[li]? with
      | none => exact hskip fun a ha => by rw [hli] at ha; cases ha
      | some list =>
          cases hvar : list.isVariableList with
          | false =>
              simp only [hvar, Bool.false_eq_true, if_false]
              refine hskip fun a ha => ?_
              obtain rfl := Option.some.inj (hli.symm.trans ha)
              exact hvar
          | true =>
              simp only [hvar, if_true]
              intro herr
              rw [Report.hasErrors_append, Bool.or_eq_false_iff] at herr
              rcases bindList_cases sc owner ci attrs li list with
                ⟨-, hbad⟩ | ⟨pi, p, hone, hne, hpi, hout⟩
              · rw [hbad] at herr
                cases herr.1
              rw [hout] at herr ⊢
              rcases bindPair_cases owner ci attrs li pi list p with
                ⟨hflagged, hunfit⟩ | ⟨hable, hfree, hbound⟩
              · -- The flag stays, and so does what is wrong with it.
                refine Or.inl (Misflagged.advances ?_ (bindLists_advances sc owner ci rest _))
                rw [hflagged]
                exact ⟨pi, _, List.getElem?_set_self (List.getElem?_eq_some_iff.mp hpi).1, rfl,
                  hunfit herr.1⟩
              · rw [hbound] at herr ⊢
                exact (ih _ herr.2).imp id (.bind hli hvar hone hpi hable hfree)

/-! ## What a pass makes of each attribute -/

/-- What becomes of an attribute among others of the given names: what it counts is only ever filled
in, with the name of the list that it is linked with. -/
structure Settles (ci : Nat) (names : List String) (a f : Attribute) : Prop where
  uncounted_eq : uncounted f = uncounted a
  counts : a.counts ≠ "" → f.counts = a.counts
  counted : ∀ r, a.countedList? = some r → f.countedList? = some r
  gained : a.counts = "" → f.counts ≠ "" →
    ∃ l, f.countedList? = some ⟨ci, l⟩ ∧ names[l]? = some f.counts

section Settles

variable {ci : Nat} {names : List String}

theorem Settles.refl (a : Attribute) : Settles ci names a a :=
  ⟨rfl, fun _ => rfl, fun _ => id, fun hnone hsome => absurd hnone hsome⟩

theorem Settles.trans {a b f : Attribute} (hab : Settles ci names a b)
    (hbf : Settles ci names b f) : Settles ci names a f := by
  refine ⟨hbf.uncounted_eq.trans hab.uncounted_eq, ?_, fun r => hbf.counted r ∘ hab.counted r, ?_⟩
  · intro hcounts
    have hb : b.counts = a.counts := hab.counts hcounts
    rw [hbf.counts (hb ▸ hcounts), hb]
  · intro hnone hsome
    by_cases hb : b.counts = ""
    · exact hbf.gained hb hsome
    · obtain ⟨l, hlink, hname⟩ := hab.gained hnone hb
      exact ⟨l, hbf.counted _ hlink, (hbf.counts hb).symm ▸ hname⟩

/-- A count field takes the name of its list unless it has one. -/
theorem settles_asCount {li : Nat} {list p : Attribute} (hname : names[li]? = some list.name)
    (hfree : p.countedList? = none) : Settles ci names p (asCount ci li list p) := by
  refine ⟨rfl, fun hcounts => ?_, fun r hr => ?_, fun hnone _ => ⟨li, rfl, ?_⟩⟩
  · simp [asCount, hcounts]
  · rw [hfree] at hr
    cases hr
  · simp [asCount, hnone, hname]

theorem settles_asList {pi : Nat} {list : Attribute} : Settles ci names list (asList ci pi list) :=
  ⟨rfl, fun _ => rfl, fun _ => id, fun hnone hsome => absurd hnone hsome⟩

end Settles

section Pass

variable {ci : Nat} {places : List Nat} {attrs final : List Attribute}

/-- The names of the attributes are the same after a pair was bound. -/
theorem names_bound (ci : Nat) {li pi : Nat} {list p : Attribute} (hli : attrs[li]? = some list)
    (hpi : attrs[pi]? = some p) (hne : pi ≠ li) :
    ((attrs.set pi (asCount ci li list p)).set li (asList ci pi list)).map (·.name) =
      attrs.map (·.name) :=
  names_of_uncounted (advances_bound hli hpi hne).map_uncounted

theorem Binds.advances (h : Binds ci places attrs final) : Advances attrs final := by
  induction h with
  | done attrs => exact .refl attrs
  | skip hother tail ih => exact ih
  | bind hli hvar hone hpi hable hfree tail ih =>
      have hne := (candidates?_mem hone (List.mem_singleton_self _)).1
      exact (advances_bound hli hpi hne).trans ih

/-- What binding one pair makes of each attribute. -/
theorem settles_bound (ci : Nat) {li pi : Nat} {list p : Attribute} (hli : attrs[li]? = some list)
    (hpi : attrs[pi]? = some p) (hfree : p.countedList? = none) {k : Nat} {a : Attribute}
    (ha : attrs[k]? = some a) :
    ∃ b, ((attrs.set pi (asCount ci li list p)).set li (asList ci pi list))[k]? = some b ∧
      Settles ci (attrs.map (·.name)) a b := by
  have hname : (attrs.map (·.name))[li]? = some list.name := by
    rw [List.getElem?_map, hli, Option.map_some]
  rcases getElem?_bound_cases ci hli hpi ha with
    ⟨-, rfl, hk⟩ | ⟨-, -, rfl, hk⟩ | ⟨-, -, hk⟩
  · exact ⟨_, hk, settles_asList⟩
  · exact ⟨_, hk, settles_asCount hname hfree⟩
  · exact ⟨a, hk, .refl a⟩

theorem Binds.settles (h : Binds ci places attrs final) :
    ∀ (k : Nat) (a : Attribute), attrs[k]? = some a →
      ∃ f, final[k]? = some f ∧ Settles ci (attrs.map (·.name)) a f := by
  induction h with
  | done attrs => exact fun k a ha => ⟨a, ha, .refl a⟩
  | skip hother tail ih => exact ih
  | @bind li pi rest attrs final list p hli hvar hone hpi hable hfree tail ih =>
      have hne : pi ≠ li := (candidates?_mem hone (List.mem_singleton_self pi)).1
      rw [names_bound ci hli hpi hne] at ih
      intro k a ha
      -- What binding this pair makes of the attribute, and what the rest makes of that.
      obtain ⟨b, hb, hab⟩ := settles_bound ci hli hpi hfree ha
      obtain ⟨f, hf, hbf⟩ := ih k b hb
      exact ⟨f, hf, hab.trans hbf⟩

/-- Binding a pair keeps attributes labelled: the count field is given a name that is not empty. -/
theorem labelled_bound (ci : Nat) {li pi : Nat} {list p : Attribute}
    (hlabelled : ∀ a ∈ attrs, a.Labelled) (hli : attrs[li]? = some list)
    (hpi : attrs[pi]? = some p) :
    ∀ a ∈ (attrs.set pi (asCount ci li list p)).set li (asList ci pi list), a.Labelled := by
  have hlist : list.Labelled := hlabelled list (List.mem_of_getElem? hli)
  have hcount : p.Labelled := hlabelled p (List.mem_of_getElem? hpi)
  intro a ha
  obtain ⟨k, hk⟩ := List.mem_iff_getElem?.mp ha
  rw [getElem?_bound ci hli hpi] at hk
  split at hk
  · obtain rfl := Option.some.inj hk
    exact ⟨hlist.named, hlist.flagged⟩
  split at hk
  · obtain rfl := Option.some.inj hk
    refine ⟨hcount.named, ?_⟩
    cases hcounts : p.counts.isEmpty with
    | true => simp [asCount, hcounts, hlist.named]
    | false => simp [asCount, hcounts]
  · exact hlabelled a (List.mem_of_getElem? hk)

theorem Binds.labelled (h : Binds ci places attrs final) :
    (∀ a ∈ attrs, a.Labelled) → ∀ f ∈ final, f.Labelled := by
  induction h with
  | done attrs => exact id
  | skip hother tail ih => exact ih
  | bind hli hvar hone hpi hable hfree tail ih =>
      exact fun hlabelled => ih (labelled_bound ci hlabelled hli hpi)

end Pass

/-! ## The same pass over flags that it set -/

/-- An attribute flagged as another one is. -/
def asFlagged (f a : Attribute) : Attribute := { a with isCount := f.isCount, counts := f.counts }

/-- Attributes flagged as they are in the end. -/
def flagAs (final attrs : List Attribute) : List Attribute := List.zipWith asFlagged final attrs

section FlagAs

variable {ci : Nat} {attrs final : List Attribute}

theorem flagAs_self (final : List Attribute) : flagAs final final = final := by
  rw [flagAs, List.zipWith_self]
  exact List.map_id _

theorem getElem?_flagAs {k : Nat} {f a : Attribute} (hf : final[k]? = some f)
    (ha : attrs[k]? = some a) : (flagAs final attrs)[k]? = some (asFlagged f a) := by
  rw [flagAs, List.getElem?_zipWith, hf, ha]

/-- What a flagged attribute was made of. -/
theorem of_getElem?_flagAs {k : Nat} {b : Attribute} (hb : (flagAs final attrs)[k]? = some b) :
    ∃ f a, final[k]? = some f ∧ attrs[k]? = some a ∧ b = asFlagged f a := by
  obtain ⟨f, a, hf, ha, rfl⟩ := List.getElem?_zipWith_eq_some.mp hb
  exact ⟨f, a, hf, ha, rfl⟩

theorem names_flagAs (hlen : final.length = attrs.length) :
    (flagAs final attrs).map (·.name) = attrs.map (·.name) := by
  rw [flagAs, List.map_zipWith]
  refine List.ext_getElem (by simp [hlen]) fun k _ _ => ?_
  simp [asFlagged]

/-- Binding a pair and then flagging is flagging first and binding what the pair became. -/
theorem flagAs_bound {li pi : Nat} {list p fl fp : Attribute} (hli : attrs[li]? = some list)
    (hpi : attrs[pi]? = some p) (hfl : final[li]? = some fl) (hfp : final[pi]? = some fp)
    (hcount : fp.isCount = true) (hcounts : fp.counts ≠ "") :
    flagAs final ((attrs.set pi (asCount ci li list p)).set li (asList ci pi list)) =
      ((flagAs final attrs).set pi (asCount ci li (asFlagged fl list) (asFlagged fp p))).set li
        (asList ci pi (asFlagged fl list)) := by
  refine List.ext_getElem? fun k => ?_
  rw [getElem?_bound ci (getElem?_flagAs hfl hli) (getElem?_flagAs hfp hpi)]
  by_cases hkl : k = li
  · subst hkl
    rw [if_pos rfl, getElem?_flagAs hfl (getElem?_bound_list ci hli hpi)]
    rfl
  by_cases hkp : k = pi
  · subst hkp
    rw [if_neg hkl, if_pos rfl, getElem?_flagAs hfp (getElem?_bound_count ci hli hpi hkl)]
    simp [asFlagged, asCount, hcount, hcounts]
  · rw [if_neg hkl, if_neg hkp, flagAs, flagAs, List.getElem?_zipWith, List.getElem?_zipWith,
      getElem?_bound ci hli hpi, if_neg hkl, if_neg hkp]

end FlagAs

/-- Whoever is linked with a list is its count field. -/
theorem CountLinks.counted_inj {ci i j : Nat} {attrs : List Attribute} {a b : Attribute}
    {r : AttrRef} (h : CountLinks ci attrs) (ha : attrs[i]? = some a) (hb : attrs[j]? = some b)
    (har : a.countedList? = some r) (hbr : b.countedList? = some r) : i = j := by
  obtain ⟨-, -, -, c, hc, hci⟩ := h.count i a r ha har
  obtain ⟨-, -, -, d, hd, hdj⟩ := h.count j b r hb hbr
  obtain rfl := Option.some.inj (hc.symm.trans hd)
  have hplace : (⟨ci, i⟩ : AttrRef) = ⟨ci, j⟩ := Option.some.inj (hci.symm.trans hdj)
  exact congrArg AttrRef.attr hplace

theorem flaggedFor_subset {attrs : List Attribute} {li i : Nat} {list : Attribute}
    {places : List Nat} (h : candidates? attrs li list = some places)
    (hi : i ∈ flaggedFor attrs li list) : i ∈ places := by
  rcases candidates?_eq_some.mp h with ⟨-, rfl⟩ | ⟨-, j, -, -, rfl⟩
  · exact hi
  · exact mem_appendNew.mpr (Or.inl hi)

/-- More flags on the only candidate leave it the only one. -/
theorem candidates?_eq_singleton {attrs attrs' : List Attribute} {li pi : Nat}
    {list list' : Attribute} (hnames : attrs'.map (·.name) = attrs.map (·.name))
    (hfield : list'.countFieldName = list.countFieldName)
    (hone : candidates? attrs li list = some [pi])
    (hmore : ∀ i ∈ flaggedFor attrs li list, i ∈ flaggedFor attrs' li list')
    (hless : ∀ i ∈ flaggedFor attrs' li list', i = pi) :
    candidates? attrs' li list' = some [pi] := by
  have hsingle : pi ∈ flaggedFor attrs' li list' → flaggedFor attrs' li list' = [pi] := by
    intro hmem
    have hnodup : (flaggedFor attrs' li list').Nodup := List.nodup_range.filter _
    refine List.perm_singleton.mp ((List.perm_ext_iff_of_nodup hnodup (List.nodup_singleton pi)).mpr
      fun i => ?_)
    rw [List.mem_singleton]
    exact ⟨hless i, fun h => h ▸ hmem⟩
  have hplace : ∀ as : List Attribute, as.findIdx? (·.name == list.countFieldName) =
      (as.map (·.name)).findIdx? (· == list.countFieldName) := by
    intro as
    rw [List.findIdx?_map]
    rfl
  rw [candidates?_eq_some, hfield, hplace attrs', hnames, ← hplace attrs]
  rcases candidates?_eq_some.mp hone with ⟨hempty, hflagged⟩ | ⟨hempty, i, hfind, hne, happend⟩
  · have hmem : pi ∈ flaggedFor attrs' li list' :=
      hmore pi (hflagged ▸ List.mem_singleton_self pi)
    exact Or.inl ⟨hempty, (hsingle hmem).symm⟩
  · -- The named attribute is a candidate, so it is the one.
    obtain rfl : i = pi := by
      have hmem : i ∈ appendNew (flaggedFor attrs li list) i := mem_appendNew.mpr (Or.inr rfl)
      rw [← happend] at hmem
      exact List.mem_singleton.mp hmem
    refine Or.inr ⟨hempty, i, hfind, hne, ?_⟩
    unfold appendNew
    split
    · exact (hsingle ‹_›).symm
    · rename_i hout
      have hnil : flaggedFor attrs' li list' = [] :=
        List.eq_nil_iff_forall_not_mem.mpr fun j hj => hout (hless j hj ▸ hj)
      rw [hnil, List.nil_append]

section Again

variable {ci : Nat} {places : List Nat} {attrs final : List Attribute}

/-- With the flags of the end a list finds the count field that it was linked with: who has come to
count it since is linked with it too. -/
theorem candidates?_flagAs {li pi : Nat} {list fl fp : Attribute}
    (hlabelled : ∀ a ∈ attrs, a.Labelled) (hfinal : ∀ f ∈ final, f.Labelled)
    (hnodup : (attrs.map (·.name)).Nodup) (hlinks : CountLinks ci final)
    (hlen : final.length = attrs.length)
    (hsettles : ∀ (k : Nat) (a : Attribute), attrs[k]? = some a →
      ∃ f, final[k]? = some f ∧ Settles ci (attrs.map (·.name)) a f)
    (hli : attrs[li]? = some list) (hone : candidates? attrs li list = some [pi])
    (hfp : final[pi]? = some fp) (hlinked : fp.countedList? = some ⟨ci, li⟩) :
    candidates? (flagAs final attrs) li (asFlagged fl list) = some [pi] := by
  have hnamed : list.name ≠ "" := (hlabelled list (List.mem_of_getElem? hli)).named
  refine candidates?_eq_singleton (names_flagAs hlen) rfl hone ?_ ?_
  · intro i hi
    obtain ⟨hne, p, hp, -, hname⟩ := mem_flaggedFor.mp hi
    obtain ⟨f, hf, hpf⟩ := hsettles i p hp
    have hcounts : f.counts = list.name := (hpf.counts (hname ▸ hnamed)).trans hname
    have hflag : f.isCount = true := by
      rw [(hfinal f (List.mem_of_getElem? hf)).flagged, hcounts]
      simpa using hnamed
    exact mem_flaggedFor.mpr ⟨hne, _, getElem?_flagAs hf hp, hflag, hcounts⟩
  · intro i hi
    obtain ⟨hne, b, hb, hflag, hname⟩ := mem_flaggedFor.mp hi
    obtain ⟨f, a, hf, ha, rfl⟩ := of_getElem?_flagAs hb
    have hcounts : f.counts = list.name := hname
    obtain ⟨f', hf', haf⟩ := hsettles i a ha
    obtain rfl := Option.some.inj (hf.symm.trans hf')
    by_cases hnone : a.counts = ""
    · -- The name was filled in, so the attribute is linked with the list of this name.
      obtain ⟨l, hlink, hl⟩ := haf.gained hnone (hcounts ▸ hnamed)
      have hlist : (attrs.map (·.name))[li]? = some f.counts := by
        rw [List.getElem?_map, hli, hcounts, Option.map_some]
      obtain rfl : l = li := by
        obtain ⟨hlt, hname_l⟩ := List.getElem?_eq_some_iff.mp hl
        obtain ⟨hlt', hname_li⟩ := List.getElem?_eq_some_iff.mp hlist
        exact (hnodup.getElem_inj_iff).mp (hname_l.trans hname_li.symm)
      exact hlinks.counted_inj hf hfp hlink hlinked
    · -- The name was there before, so the attribute was a candidate.
      have hold : a.counts = list.name := (haf.counts hnone).symm.trans hcounts
      have hcount : a.isCount = true := by
        rw [(hlabelled a (List.mem_of_getElem? ha)).flagged]
        simpa using hnone
      exact List.mem_singleton.mp
        (flaggedFor_subset hone (mem_flaggedFor.mpr ⟨hne, a, ha, hcount, hold⟩))

/-- **A pass can be made over the flags it set, and ends where it ended.** -/
theorem Binds.again (h : Binds ci places attrs final) (hlinks : CountLinks ci final) :
    (∀ a ∈ attrs, a.Labelled) → (attrs.map (·.name)).Nodup →
      Binds ci places (flagAs final attrs) final := by
  induction h with
  | done attrs =>
      intro _ _
      rw [flagAs_self]
      exact .done attrs
  | @skip li rest attrs final hother tail ih =>
      intro hlabelled hnodup
      refine .skip (fun b hb => ?_) (ih hlinks hlabelled hnodup)
      obtain ⟨f, a, -, ha, rfl⟩ := of_getElem?_flagAs hb
      exact hother a ha
  | @bind li pi rest attrs final list p hli hvar hone hpi hable hfree tail ih =>
      intro hlabelled hnodup
      have hne : pi ≠ li := (candidates?_mem hone (List.mem_singleton_self pi)).1
      have hnames := names_bound ci hli hpi hne
      have hlabelled' := labelled_bound ci hlabelled hli hpi
      have hpass : Binds ci (li :: rest) attrs final := .bind hli hvar hone hpi hable hfree tail
      have hfinal := hpass.labelled hlabelled
      -- What becomes of both ends by the end of the pass.
      obtain ⟨fl, hfl, -⟩ := hpass.settles li list hli
      have hat := getElem?_bound_count ci hli hpi hne
      obtain ⟨fp, hfp, hsettled⟩ := tail.settles pi _ hat
      have hcounts : fp.counts ≠ "" := by
        have hnamed : (asCount ci li list p).counts ≠ "" := by
          simpa [asCount] using (hlabelled' _ (List.mem_of_getElem? hat)).flagged
        exact hsettled.counts hnamed ▸ hnamed
      have hcount : fp.isCount = true := by
        simpa [(hfinal fp (List.mem_of_getElem? hfp)).flagged] using hcounts
      refine .bind (getElem?_flagAs hfl hli) hvar ?_ (getElem?_flagAs hfp hpi) hable hfree ?_
      · exact candidates?_flagAs hlabelled hfinal hnodup hlinks hpass.advances.length_eq
          hpass.settles hli hone hfp (hsettled.counted _ rfl)
      · rw [← flagAs_bound hli hpi hfl hfp hcount hcounts]
        exact ih hlinks hlabelled' (hnames ▸ hnodup)

/-- Clearing what a pass leaves is flagging what it started from. -/
theorem flagAs_cleared (h : final.map uncounted = attrs.map uncounted) :
    flagAs final (cleared attrs) = cleared final := by
  have hone : ∀ f a : Attribute, uncounted f = uncounted a →
      asFlagged f { a with countField? := none, countedList? := none } =
        { f with countField? := none, countedList? := none } := by
    intro f a hfa
    have hrest : ({ uncounted a with isCount := f.isCount, counts := f.counts } : Attribute) =
        { uncounted f with isCount := f.isCount, counts := f.counts } := by rw [hfa]
    exact hrest
  refine List.ext_getElem? fun k => ?_
  have hk : (final[k]?).map uncounted = (attrs[k]?).map uncounted := by
    rw [← List.getElem?_map, h, List.getElem?_map]
  rw [flagAs, List.getElem?_zipWith, cleared, cleared, List.getElem?_map, List.getElem?_map]
  cases hf : final[k]? with
  | none => rfl
  | some f =>
      cases ha : attrs[k]? with
      | none =>
          rw [hf, ha] at hk
          cases hk
      | some a =>
          rw [hf, ha] at hk
          exact congrArg some (hone f a (Option.some.inj hk))

end Again

/-! ## Counts of a whole message type -/

theorem bindCounts_of_binds (sc : Scope) (owner : String) {ci : Nat} {attrs final : List Attribute}
    (h : Binds ci (List.range (cleared attrs).length) (cleared attrs) final) :
    bindCounts sc owner ci attrs =
      (final, .empty ++ .join ((final.filter (·.isCount)).map (checkCount sc owner final))) := by
  have hrun := h.run sc owner
  unfold cleared at hrun
  simp only [bindCounts, hrun]

theorem cleared_labelled {attrs : List Attribute} (hlabelled : ∀ a ∈ attrs, a.Labelled) :
    ∀ a ∈ cleared attrs, a.Labelled := by
  intro a ha
  obtain ⟨a₀, ha₀, rfl⟩ := List.mem_map.mp ha
  exact ⟨(hlabelled a₀ ha₀).named, (hlabelled a₀ ha₀).flagged⟩

section Errorless

variable {sc : Scope} {owner : String} {ci : Nat} {attrs : List Attribute}
  (herr : (bindCounts sc owner ci attrs).2.hasErrors = false)

include herr

/-- Without an error every list found its count field. -/
theorem bindCounts_binds :
    Binds ci (List.range (cleared attrs).length) (cleared attrs)
      (bindCounts sc owner ci attrs).1 := by
  rcases bindLists_binds sc owner ci _ _ (bindCounts_noErrors herr).1 with
    ⟨k, a, ha, hcount, hunfit⟩ | hbinds
  · rw [(bindCounts_bound herr).1 a (List.mem_of_getElem? ha) hcount] at hunfit
    cases hunfit
  · exact hbinds

/-- Without an error count fields say what they count. -/
theorem bindCounts_labelled (hlabelled : ∀ a ∈ attrs, a.Labelled) :
    ∀ a ∈ (bindCounts sc owner ci attrs).1, a.Labelled :=
  (bindCounts_binds herr).labelled (cleared_labelled hlabelled)

/-- **Binding counts a second time changes nothing and reports the same.**  The second pass starts
from what the first one left, so its lists see all the flags at once. -/
theorem bindCounts_again (hlabelled : ∀ a ∈ attrs, a.Labelled)
    (hnodup : (attrs.map (·.name)).Nodup) :
    bindCounts sc owner ci (bindCounts sc owner ci attrs).1 = bindCounts sc owner ci attrs := by
  have hsame := bindCounts_uncounted sc owner ci attrs
  have hbinds := bindCounts_binds herr
  have hnames : (cleared attrs).map (·.name) = attrs.map (·.name) := by
    simp [cleared, Function.comp_def]
  have hagain := hbinds.again (bindCounts_links sc owner ci attrs) (cleared_labelled hlabelled)
    (hnames ▸ hnodup)
  rw [flagAs_cleared hsame] at hagain
  have hlen : (cleared attrs).length = (cleared (bindCounts sc owner ci attrs).1).length := by
    simpa [cleared] using (congrArg List.length hsame).symm
  rw [hlen] at hagain
  rw [bindCounts_of_binds sc owner hagain, ← bindCounts_of_binds sc owner hbinds]

end Errorless

end WireSchema.Resolve
