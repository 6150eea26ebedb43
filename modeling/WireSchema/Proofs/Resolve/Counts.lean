import Mathlib
import WireSchema.Proofs.Reports
import WireSchema.Resolve.Counts

/-!
# Count links are mutual

Binding walks over the variable lists of one message type and writes two links per list: from the
list to its count field, and back.  The invariant `CountLinks` says that every link is answered by
the opposite one in the same type; `Advances` says what a step leaves alone.  Both hold after the
whole pass, whatever it reports.  If nothing is reported, every list is bound.

## Main results

* `bindLists_links` — the links stay mutual along the whole pass.
* `bindLists_bound` — a pass without errors binds every list it visits, unless it flags an
  attribute that cannot count, which the last check reports.
* `bindCounts_links`, `bindCounts_bound` — both for a whole message type.
-/

namespace WireSchema.Resolve

/-- An attribute without what binding counts may change. -/
def uncounted (a : Attribute) : Attribute :=
  { a with isCount := false, counts := "", countField? := none, countedList? := none }

/-- Every count link of a message type is answered by the opposite link. -/
structure CountLinks (ci : Nat) (attrs : List Attribute) : Prop where
  list : ∀ (k : Nat) (a : Attribute) (r : AttrRef), attrs[k]? = some a → a.countField? = some r →
    a.isVariableList = true ∧ r.cls = ci ∧
      ∃ b, attrs[r.attr]? = some b ∧ b.countedList? = some ⟨ci, k⟩
  count : ∀ (k : Nat) (a : Attribute) (r : AttrRef), attrs[k]? = some a → a.countedList? = some r →
    a.isCount = true ∧ isCountable a = true ∧ r.cls = ci ∧
      ∃ b, attrs[r.attr]? = some b ∧ b.countField? = some ⟨ci, k⟩

/-- What later steps keep of an attribute. -/
structure Keeps (a a' : Attribute) : Prop where
  uncounted_eq : uncounted a' = uncounted a
  isCount : a.isCount = true → a'.isCount = true
  bound : a.countField?.isSome = true → a'.countField?.isSome = true

/-- What later steps keep of all attributes. -/
structure Advances (attrs attrs' : List Attribute) : Prop where
  length_eq : attrs'.length = attrs.length
  keeps : ∀ (k : Nat) (a : Attribute), attrs[k]? = some a → ∃ a', attrs'[k]? = some a' ∧ Keeps a a'

theorem Keeps.refl (a : Attribute) : Keeps a a := ⟨rfl, id, id⟩

theorem Keeps.trans {a b c : Attribute} (hab : Keeps a b) (hbc : Keeps b c) : Keeps a c :=
  ⟨hbc.uncounted_eq.trans hab.uncounted_eq, hbc.isCount ∘ hab.isCount, hbc.bound ∘ hab.bound⟩

theorem Advances.refl (attrs : List Attribute) : Advances attrs attrs :=
  ⟨rfl, fun _ a ha => ⟨a, ha, Keeps.refl a⟩⟩

theorem Advances.trans {xs ys zs : List Attribute} (hxy : Advances xs ys)
    (hyz : Advances ys zs) : Advances xs zs := by
  refine ⟨hyz.length_eq.trans hxy.length_eq, ?_⟩
  intro k a ha
  obtain ⟨b, hb, hab⟩ := hxy.keeps k a ha
  obtain ⟨c, hc, hbc⟩ := hyz.keeps k b hb
  exact ⟨c, hc, hab.trans hbc⟩

/-- Replacing an attribute by one that keeps it advances the list. -/
theorem Advances.set {attrs : List Attribute} {i : Nat} {a a' : Attribute}
    (hi : attrs[i]? = some a) (hkeep : Keeps a a') : Advances attrs (attrs.set i a') := by
  refine ⟨List.length_set, ?_⟩
  intro k b hb
  by_cases hk : i = k
  · subst hk
    obtain ⟨hlt, -⟩ := List.getElem?_eq_some_iff.mp hi
    obtain rfl : a = b := Option.some.inj (hi.symm.trans hb)
    exact ⟨a', List.getElem?_set_self hlt, hkeep⟩
  · exact ⟨b, by rw [List.getElem?_set_ne hk, hb], Keeps.refl b⟩

/-- What binding counts may not change is the same at every place. -/
theorem Advances.map_uncounted {attrs attrs' : List Attribute} (h : Advances attrs attrs') :
    attrs'.map uncounted = attrs.map uncounted := by
  refine List.ext_getElem? fun k => ?_
  rw [List.getElem?_map, List.getElem?_map]
  cases ha : attrs[k]? with
  | some a =>
      obtain ⟨a', ha', hkeep⟩ := h.keeps k a ha
      rw [ha', Option.map_some, Option.map_some, hkeep.uncounted_eq]
  | none =>
      have hlen : attrs'.length ≤ k := by
        rw [h.length_eq]
        exact List.getElem?_eq_none_iff.mp ha
      rw [List.getElem?_eq_none hlen]

theorem names_of_uncounted {attrs attrs' : List Attribute}
    (h : attrs'.map uncounted = attrs.map uncounted) :
    attrs'.map (·.name) = attrs.map (·.name) := by
  have hname : ∀ as : List Attribute, as.map (·.name) = (as.map uncounted).map (·.name) := by
    intro as
    rw [List.map_map]
    rfl
  rw [hname, h, ← hname]

theorem name_of_uncounted {a a' : Attribute} (h : uncounted a' = uncounted a) :
    a'.name = a.name := by
  show (uncounted a').name = (uncounted a).name
  rw [h]

theorem countFieldName_of_uncounted {a a' : Attribute} (h : uncounted a' = uncounted a) :
    a'.countFieldName = a.countFieldName := by
  show (uncounted a').countFieldName = (uncounted a).countFieldName
  rw [h]

theorem isVariableList_of_uncounted {a a' : Attribute} (h : uncounted a' = uncounted a) :
    a'.isVariableList = a.isVariableList := by
  have hshape : a'.shape = a.shape := by
    show (uncounted a').shape = (uncounted a).shape
    rw [h]
  simp only [Attribute.isVariableList, hshape]

theorem isCountable_of_uncounted {a a' : Attribute} (h : uncounted a' = uncounted a) :
    isCountable a' = isCountable a := by
  have hshape : a'.shape = a.shape := by
    show (uncounted a').shape = (uncounted a).shape
    rw [h]
  have hprim : a'.primitive? = a.primitive? := by
    show (uncounted a').primitive? = (uncounted a).primitive?
    rw [h]
  simp only [isCountable, Attribute.isPrimitive, hshape, hprim]

/-! ## One pair -/

/-- The count field once it is bound to the list at `li`. -/
def asCount (ci li : Nat) (list p : Attribute) : Attribute :=
  { p with
    isCount := true
    countedList? := some ⟨ci, li⟩
    counts := if p.counts.isEmpty then list.name else p.counts }

/-- The list once it is bound to the count field at `pi`. -/
def asList (ci pi : Nat) (list : Attribute) : Attribute :=
  { list with countField? := some ⟨ci, pi⟩ }

section Pair

variable {ci li pi : Nat} {attrs : List Attribute} {list p : Attribute}

/-- The attributes after a pair was bound, by place. -/
theorem getElem?_bound (ci : Nat) (hli : attrs[li]? = some list) (hpi : attrs[pi]? = some p)
    (k : Nat) :
    ((attrs.set pi (asCount ci li list p)).set li (asList ci pi list))[k]? =
      if k = li then some (asList ci pi list)
      else if k = pi then some (asCount ci li list p) else attrs[k]? := by
  obtain ⟨hlt, -⟩ := List.getElem?_eq_some_iff.mp hli
  obtain ⟨hpt, -⟩ := List.getElem?_eq_some_iff.mp hpi
  by_cases hk : k = li
  · subst hk
    simp [hlt]
  · rw [List.getElem?_set_ne (Ne.symm hk), if_neg hk]
    by_cases hkp : k = pi
    · subst hkp
      simp [hpt]
    · rw [List.getElem?_set_ne (Ne.symm hkp), if_neg hkp]

/-- The list after a pair was bound. -/
theorem getElem?_bound_list (ci : Nat) (hli : attrs[li]? = some list) (hpi : attrs[pi]? = some p) :
    ((attrs.set pi (asCount ci li list p)).set li (asList ci pi list))[li]? =
      some (asList ci pi list) := by
  rw [getElem?_bound ci hli hpi, if_pos rfl]

/-- The count field after a pair was bound. -/
theorem getElem?_bound_count (ci : Nat) (hli : attrs[li]? = some list) (hpi : attrs[pi]? = some p)
    (hne : pi ≠ li) :
    ((attrs.set pi (asCount ci li list p)).set li (asList ci pi list))[pi]? =
      some (asCount ci li list p) := by
  rw [getElem?_bound ci hli hpi, if_neg hne, if_pos rfl]

/-- What binding a pair makes of an attribute: it is the list, or it is the count field, or it is as
it was. -/
theorem getElem?_bound_cases (ci : Nat) (hli : attrs[li]? = some list) (hpi : attrs[pi]? = some p)
    {k : Nat} {a : Attribute} (ha : attrs[k]? = some a) :
    (k = li ∧ a = list ∧
      ((attrs.set pi (asCount ci li list p)).set li (asList ci pi list))[k]? =
        some (asList ci pi list)) ∨
    (k ≠ li ∧ k = pi ∧ a = p ∧
      ((attrs.set pi (asCount ci li list p)).set li (asList ci pi list))[k]? =
        some (asCount ci li list p)) ∨
    (k ≠ li ∧ k ≠ pi ∧
      ((attrs.set pi (asCount ci li list p)).set li (asList ci pi list))[k]? = some a) := by
  rw [getElem?_bound ci hli hpi]
  by_cases hkl : k = li
  · subst hkl
    exact Or.inl ⟨rfl, Option.some.inj (ha.symm.trans hli), if_pos rfl⟩
  by_cases hkp : k = pi
  · subst hkp
    exact Or.inr (Or.inl ⟨hkl, rfl, Option.some.inj (ha.symm.trans hpi), by
      rw [if_neg hkl, if_pos rfl]⟩)
  · exact Or.inr (Or.inr ⟨hkl, hkp, by rw [if_neg hkl, if_neg hkp, ha]⟩)

/-- The lists keep their answers when a pair is bound: no older list is answered from `pi`, which
had no link. -/
theorem CountLinks.list_bind (h : CountLinks ci attrs) (hli : attrs[li]? = some list)
    (hpi : attrs[pi]? = some p) (hne : pi ≠ li) (hvar : list.isVariableList = true)
    (hcounted : p.countedList? = none) (k : Nat) (a : Attribute) (r : AttrRef)
    (ha : ((attrs.set pi (asCount ci li list p)).set li (asList ci pi list))[k]? = some a)
    (hr : a.countField? = some r) : a.isVariableList = true ∧ r.cls = ci ∧
      ∃ b, ((attrs.set pi (asCount ci li list p)).set li (asList ci pi list))[r.attr]? = some b ∧
        b.countedList? = some ⟨ci, k⟩ := by
  have hat := getElem?_bound ci hli hpi
  rw [hat] at ha
  split at ha
  · rename_i hk
    subst hk
    obtain rfl := Option.some.inj ha
    obtain rfl : (⟨ci, pi⟩ : AttrRef) = r := Option.some.inj hr
    exact ⟨hvar, rfl, asCount ci k list p, getElem?_bound_count ci hli hpi hne, rfl⟩
  · obtain ⟨a₀, ha₀, hshape, hfield⟩ :
        ∃ a₀, attrs[k]? = some a₀ ∧ a₀.isVariableList = a.isVariableList ∧
          a₀.countField? = a.countField? := by
      split at ha
      · rename_i hkp
        obtain rfl := Option.some.inj ha
        exact ⟨p, hkp ▸ hpi, rfl, rfl⟩
      · exact ⟨a, ha, rfl, rfl⟩
    obtain ⟨hv, hcls, b, hb, hback⟩ := h.list k a₀ r ha₀ (hfield.trans hr)
    refine ⟨hshape ▸ hv, hcls, ?_⟩
    have hrp : r.attr ≠ pi := by
      intro heq
      rw [heq, hpi] at hb
      obtain rfl := Option.some.inj hb
      rw [hcounted] at hback
      cases hback
    by_cases hrl : r.attr = li
    · rw [hrl, hli] at hb
      obtain rfl := Option.some.inj hb
      exact ⟨asList ci pi list, by rw [hat, if_pos hrl], hback⟩
    · exact ⟨b, by rw [hat, if_neg hrl, if_neg hrp, hb], hback⟩

/-- So do the count fields: no older one is answered from `li`, which had no link. -/
theorem CountLinks.count_bind (h : CountLinks ci attrs) (hli : attrs[li]? = some list)
    (hpi : attrs[pi]? = some p) (hne : pi ≠ li) (hfree : list.countField? = none)
    (hcountable : isCountable p = true) (k : Nat) (a : Attribute) (r : AttrRef)
    (ha : ((attrs.set pi (asCount ci li list p)).set li (asList ci pi list))[k]? = some a)
    (hr : a.countedList? = some r) : a.isCount = true ∧ isCountable a = true ∧ r.cls = ci ∧
      ∃ b, ((attrs.set pi (asCount ci li list p)).set li (asList ci pi list))[r.attr]? = some b ∧
        b.countField? = some ⟨ci, k⟩ := by
  have hat := getElem?_bound ci hli hpi
  rw [hat] at ha
  by_cases hkp : k = pi
  · subst hkp
    rw [if_neg hne, if_pos rfl] at ha
    obtain rfl := Option.some.inj ha
    obtain rfl : (⟨ci, li⟩ : AttrRef) = r := Option.some.inj hr
    exact ⟨rfl, hcountable, rfl, asList ci k list, getElem?_bound_list ci hli hpi, rfl⟩
  · obtain ⟨a₀, ha₀, hcount, hable, hlist⟩ :
        ∃ a₀, attrs[k]? = some a₀ ∧ a₀.isCount = a.isCount ∧
          isCountable a₀ = isCountable a ∧ a₀.countedList? = a.countedList? := by
      split at ha
      · rename_i hk
        obtain rfl := Option.some.inj ha
        exact ⟨list, hk ▸ hli, rfl, rfl, rfl⟩
      · exact ⟨a, ha, rfl, rfl, rfl⟩
    obtain ⟨hc, hab, hcls, b, hb, hback⟩ := h.count k a₀ r ha₀ (hlist.trans hr)
    refine ⟨hcount ▸ hc, hable ▸ hab, hcls, ?_⟩
    have hrl : r.attr ≠ li := by
      intro heq
      rw [heq, hli] at hb
      obtain rfl := Option.some.inj hb
      rw [hfree] at hback
      cases hback
    by_cases hrp : r.attr = pi
    · rw [hrp, hpi] at hb
      obtain rfl := Option.some.inj hb
      exact ⟨asCount ci li list p, by rw [hat, if_neg hrl, if_pos hrp], hback⟩
    · exact ⟨b, by rw [hat, if_neg hrl, if_neg hrp, hb], hback⟩

/-- Binding a free list to a free count field keeps the links mutual. -/
theorem CountLinks.bind (h : CountLinks ci attrs) (hli : attrs[li]? = some list)
    (hpi : attrs[pi]? = some p) (hne : pi ≠ li) (hvar : list.isVariableList = true)
    (hfree : list.countField? = none) (hcounted : p.countedList? = none)
    (hcountable : isCountable p = true) :
    CountLinks ci ((attrs.set pi (asCount ci li list p)).set li (asList ci pi list)) :=
  ⟨h.list_bind hli hpi hne hvar hcounted, h.count_bind hli hpi hne hfree hcountable⟩

/-- Where one attribute was flagged, nothing that links depend on is different. -/
theorem getElem?_flagged (hpi : attrs[pi]? = some p) {k : Nat} {a' : Attribute}
    (ha' : (attrs.set pi { p with isCount := true })[k]? = some a') :
    ∃ a, attrs[k]? = some a ∧ a'.countField? = a.countField? ∧
      a'.countedList? = a.countedList? ∧ a'.isVariableList = a.isVariableList ∧
      isCountable a' = isCountable a ∧ (a.isCount = true → a'.isCount = true) := by
  obtain ⟨hpt, -⟩ := List.getElem?_eq_some_iff.mp hpi
  by_cases hk : pi = k
  · subst hk
    rw [List.getElem?_set_self hpt] at ha'
    obtain rfl := Option.some.inj ha'
    exact ⟨p, hpi, rfl, rfl, rfl, rfl, fun _ => rfl⟩
  · rw [List.getElem?_set_ne hk] at ha'
    exact ⟨a', ha', rfl, rfl, rfl, rfl, id⟩

/-- Flagging a count field leaves every link where it was. -/
theorem CountLinks.flag (h : CountLinks ci attrs) (hpi : attrs[pi]? = some p) :
    CountLinks ci (attrs.set pi { p with isCount := true }) := by
  have hback : ∀ (k : Nat) (a : Attribute), attrs[k]? = some a →
      ∃ a', (attrs.set pi { p with isCount := true })[k]? = some a' ∧
        a'.countField? = a.countField? ∧ a'.countedList? = a.countedList? := by
    intro k a ha
    have hadv : Advances attrs (attrs.set pi { p with isCount := true }) :=
      Advances.set hpi ⟨rfl, fun _ => rfl, id⟩
    obtain ⟨a', ha', -⟩ := hadv.keeps k a ha
    obtain ⟨b, hb, hf, hc, -⟩ := getElem?_flagged hpi ha'
    obtain rfl := Option.some.inj (hb.symm.trans ha)
    exact ⟨a', ha', hf, hc⟩
  constructor
  · intro k a' r ha' hr
    obtain ⟨a, ha, hf, -, hv, -⟩ := getElem?_flagged hpi ha'
    obtain ⟨hv', hcls, b, hb, hcb⟩ := h.list k a r ha (hf ▸ hr)
    obtain ⟨b', hb', -, hc'⟩ := hback r.attr b hb
    exact ⟨hv ▸ hv', hcls, b', hb', hc' ▸ hcb⟩
  · intro k a' r ha' hr
    obtain ⟨a, ha, -, hc, -, hable, hflag⟩ := getElem?_flagged hpi ha'
    obtain ⟨hcount, hab, hcls, b, hb, hfb⟩ := h.count k a r ha (hc ▸ hr)
    obtain ⟨b', hb', hf', -⟩ := hback r.attr b hb
    exact ⟨hflag hcount, hable ▸ hab, hcls, b', hb', hf' ▸ hfb⟩

/-- Both updates keep what later steps rely on. -/
theorem advances_bound (hli : attrs[li]? = some list) (hpi : attrs[pi]? = some p)
    (hne : pi ≠ li) :
    Advances attrs ((attrs.set pi (asCount ci li list p)).set li (asList ci pi list)) := by
  have hcount : Keeps p (asCount ci li list p) := ⟨rfl, fun _ => rfl, id⟩
  have hlist : Keeps list (asList ci pi list) := ⟨rfl, id, fun _ => rfl⟩
  have hli' : (attrs.set pi (asCount ci li list p))[li]? = some list := by
    rw [List.getElem?_set_ne hne, hli]
  exact (Advances.set hpi hcount).trans (Advances.set hli' hlist)

/-- A count field that is fit and free is linked with the list, and nothing is reported. -/
theorem bindPair_of_free (owner : String) (ci : Nat) (attrs : List Attribute) (li pi : Nat)
    {list p : Attribute} (hable : isCountable p = true) (hfree : p.countedList? = none) :
    bindPair owner ci attrs li pi list p =
      ((attrs.set pi (asCount ci li list p)).set li (asList ci pi list), .empty) := by
  simp only [bindPair, hable, hfree, Bool.not_true, Bool.false_eq_true, if_false, List.set_set]
  rfl

/-- The outcome of `bindPair`: the count field is only flagged, or both ends are linked. -/
theorem bindPair_cases (owner : String) (ci : Nat) (attrs : List Attribute) (li pi : Nat)
    (list p : Attribute) :
    ((bindPair owner ci attrs li pi list p).1 = attrs.set pi { p with isCount := true } ∧
      ((bindPair owner ci attrs li pi list p).2.hasErrors = false → isCountable p = false)) ∨
    (isCountable p = true ∧ p.countedList? = none ∧
      (bindPair owner ci attrs li pi list p).1 =
        (attrs.set pi (asCount ci li list p)).set li (asList ci pi list)) := by
  cases hable : isCountable p with
  | false => exact Or.inl ⟨by simp [bindPair, hable], fun _ => rfl⟩
  | true =>
      cases hcounted : p.countedList? with
      | some other =>
          refine Or.inl ⟨by simp [bindPair, hable, hcounted], fun herr => ?_⟩
          simp [bindPair, hable, hcounted] at herr
      | none =>
          refine Or.inr ⟨rfl, rfl, ?_⟩
          rw [bindPair_of_free owner ci attrs li pi hable hcounted]

theorem bindPair_advances (owner : String) (hli : attrs[li]? = some list)
    (hpi : attrs[pi]? = some p) (hne : pi ≠ li) :
    Advances attrs (bindPair owner ci attrs li pi list p).1 := by
  rcases bindPair_cases owner ci attrs li pi list p with ⟨hout, -⟩ | ⟨-, -, hout⟩
  · rw [hout]
    exact Advances.set hpi ⟨rfl, fun _ => rfl, id⟩
  · rw [hout]
    exact advances_bound hli hpi hne

end Pair

/-! ## One list -/

theorem mem_flaggedFor {attrs : List Attribute} {li i : Nat} {list : Attribute} :
    i ∈ flaggedFor attrs li list ↔
      i ≠ li ∧ ∃ p, attrs[i]? = some p ∧ p.isCount = true ∧ p.counts = list.name := by
  rw [flaggedFor, List.mem_filter, List.mem_range]
  constructor
  · rintro ⟨hlt, hflag⟩
    simpa [List.getElem?_eq_getElem hlt] using hflag
  · rintro ⟨hne, p, hp, hcount, hname⟩
    exact ⟨(List.getElem?_eq_some_iff.mp hp).1, by simp [hp, hne, hcount, hname]⟩

@[simp] theorem mem_appendNew {α : Type} [DecidableEq α] {xs : List α} {x y : α} :
    y ∈ appendNew xs x ↔ y ∈ xs ∨ y = x := by
  unfold appendNew
  split
  · rename_i hmem
    exact ⟨Or.inl, fun h => h.elim id fun heq => heq ▸ hmem⟩
  · rw [List.mem_append, List.mem_singleton]

/-- The candidates of a list: the flagged attributes, and the one it names if it names one. -/
theorem candidates?_eq_some {attrs : List Attribute} {li : Nat} {list : Attribute}
    {places : List Nat} :
    candidates? attrs li list = some places ↔
      (list.countFieldName.isEmpty = true ∧ places = flaggedFor attrs li list) ∨
      (list.countFieldName.isEmpty = false ∧
        ∃ i, attrs.findIdx? (·.name == list.countFieldName) = some i ∧ i ≠ li ∧
          places = appendNew (flaggedFor attrs li list) i) := by
  unfold candidates?
  cases hempty : list.countFieldName.isEmpty with
  | true => simp [eq_comm]
  | false =>
      cases hfind : attrs.findIdx? (·.name == list.countFieldName) with
      | none => simp
      | some i =>
          by_cases hi : i = li
          · simp [hi]
          · simpa [hi] using eq_comm

/-- A candidate is an attribute of the type, and never the list itself. -/
theorem candidates?_mem {attrs : List Attribute} {li pi : Nat} {list : Attribute}
    {places : List Nat} (h : candidates? attrs li list = some places) (hmem : pi ∈ places) :
    pi ≠ li ∧ pi < attrs.length := by
  have hflagged : ∀ i ∈ flaggedFor attrs li list, i ≠ li ∧ i < attrs.length := by
    intro i hi
    obtain ⟨hne, p, hp, -⟩ := mem_flaggedFor.mp hi
    exact ⟨hne, (List.getElem?_eq_some_iff.mp hp).1⟩
  rcases candidates?_eq_some.mp h with ⟨-, rfl⟩ | ⟨-, i, hfind, hne, rfl⟩
  · exact hflagged pi hmem
  · rcases mem_appendNew.mp hmem with hold | rfl
    · exact hflagged pi hold
    · exact ⟨hne, (List.findIdx?_eq_some_iff_getElem.mp hfind).1⟩

/-- A list with one candidate is bound to it. -/
theorem bindList_single (sc : Scope) (owner : String) (ci : Nat) {attrs : List Attribute}
    {li pi : Nat} {list p : Attribute} (hone : candidates? attrs li list = some [pi])
    (hpi : attrs[pi]? = some p) :
    bindList sc owner ci attrs li list = bindPair owner ci attrs li pi list p := by
  simp only [bindList, hone, hpi]

/-- The outcome of `bindList`: an error and nothing else, or the binding of the only candidate. -/
theorem bindList_cases (sc : Scope) (owner : String) (ci : Nat) (attrs : List Attribute) (li : Nat)
    (list : Attribute) :
    ((bindList sc owner ci attrs li list).1 = attrs ∧
      (bindList sc owner ci attrs li list).2.hasErrors = true) ∨
    ∃ pi p, candidates? attrs li list = some [pi] ∧ pi ≠ li ∧ attrs[pi]? = some p ∧
      bindList sc owner ci attrs li list = bindPair owner ci attrs li pi list p := by
  cases hcands : candidates? attrs li list with
  | none => exact Or.inl (by simp [bindList, hcands])
  | some places =>
      rcases places with _ | ⟨pi, _ | ⟨pj, more⟩⟩
      · exact Or.inl (by simp [bindList, hcands])
      · obtain ⟨hne, hlt⟩ := candidates?_mem hcands (List.mem_singleton_self pi)
        have hpi : attrs[pi]? = some attrs[pi] := List.getElem?_eq_getElem hlt
        exact Or.inr ⟨pi, attrs[pi], rfl, hne, hpi, bindList_single sc owner ci hcands hpi⟩
      · exact Or.inl (by simp [bindList, hcands])

theorem bindList_advances (sc : Scope) (owner : String) (ci : Nat) {attrs : List Attribute}
    {li : Nat} {list : Attribute} (hli : attrs[li]? = some list) :
    Advances attrs (bindList sc owner ci attrs li list).1 := by
  rcases bindList_cases sc owner ci attrs li list with
    ⟨hout, -⟩ | ⟨pi, p, -, hne, hpi, hout⟩
  · rw [hout]
    exact Advances.refl attrs
  · rw [hout]
    exact bindPair_advances owner hli hpi hne

/-- An attribute was flagged as a count although it cannot be one. -/
def Misflagged (attrs : List Attribute) : Prop :=
  ∃ (k : Nat) (a : Attribute), attrs[k]? = some a ∧ a.isCount = true ∧ isCountable a = false

/-- What binding one list does: the links stay mutual, and unless something is reported the list
is bound or an unfit attribute was flagged. -/
structure ListBound (ci : Nat) (attrs : List Attribute) (li : Nat)
    (out : List Attribute × Report) : Prop where
  links : CountLinks ci attrs → CountLinks ci out.1
  others : ∀ (k : Nat) (a a' : Attribute), k ≠ li → attrs[k]? = some a → out.1[k]? = some a' →
    a'.countField? = a.countField?
  bound : out.2.hasErrors = false → Misflagged out.1 ∨
    ∃ a, out.1[li]? = some a ∧ a.countField?.isSome = true

/-- Nothing is bound where an error is reported. -/
theorem ListBound.refused {ci li : Nat} {attrs : List Attribute} {out : List Attribute × Report}
    (hout : out.1 = attrs) (herr : out.2.hasErrors = true) : ListBound ci attrs li out := by
  refine ⟨fun h => hout ▸ h, ?_, ?_⟩
  · intro k a a' _ ha ha'
    rw [hout] at ha'
    rw [Option.some.inj (ha.symm.trans ha')]
  · intro hno
    rw [herr] at hno
    cases hno

theorem bindPair_bound {ci li pi : Nat} {attrs : List Attribute} {list p : Attribute}
    (owner : String) (hli : attrs[li]? = some list) (hpi : attrs[pi]? = some p) (hne : pi ≠ li)
    (hvar : list.isVariableList = true) (hfree : list.countField? = none) :
    ListBound ci attrs li (bindPair owner ci attrs li pi list p) := by
  rcases bindPair_cases owner ci attrs li pi list p with
    ⟨hout, hbad⟩ | ⟨hable, hcounted, hout⟩
  · obtain ⟨hpt, -⟩ := List.getElem?_eq_some_iff.mp hpi
    refine ⟨?_, ?_, ?_⟩
    · rw [hout]
      exact fun h => h.flag hpi
    · rw [hout]
      intro k a a' _ ha ha'
      obtain ⟨b, hb, hf, -⟩ := getElem?_flagged hpi ha'
      rw [hf, Option.some.inj (hb.symm.trans ha)]
    · rw [hout]
      exact fun hno => Or.inl ⟨pi, _, List.getElem?_set_self hpt, rfl, hbad hno⟩
  · have hat := getElem?_bound ci hli hpi
    refine ⟨?_, ?_, ?_⟩
    · rw [hout]
      intro h
      exact h.bind hli hpi hne hvar hfree hcounted hable
    · rw [hout]
      intro k a a' hk ha ha'
      rw [hat, if_neg hk] at ha'
      split at ha'
      · rename_i hkp
        subst hkp
        obtain rfl := Option.some.inj (ha.symm.trans hpi)
        obtain rfl := Option.some.inj ha'
        rfl
      · rw [Option.some.inj (ha.symm.trans ha')]
    · rw [hout]
      intro _
      exact Or.inr ⟨asList ci pi list, getElem?_bound_list ci hli hpi, rfl⟩

theorem bindList_bound (sc : Scope) (owner : String) (ci : Nat) {li : Nat}
    {attrs : List Attribute} {list : Attribute} (hli : attrs[li]? = some list)
    (hvar : list.isVariableList = true) (hfree : list.countField? = none) :
    ListBound ci attrs li (bindList sc owner ci attrs li list) := by
  rcases bindList_cases sc owner ci attrs li list with
    ⟨hout, herr⟩ | ⟨pi, p, -, hne, hpi, hout⟩
  · exact ListBound.refused hout herr
  · rw [hout]
    exact bindPair_bound owner hli hpi hne hvar hfree

/-! ## The whole pass -/

theorem Misflagged.advances {attrs attrs' : List Attribute} (h : Misflagged attrs)
    (hadv : Advances attrs attrs') : Misflagged attrs' := by
  obtain ⟨k, a, ha, hcount, hable⟩ := h
  obtain ⟨a', ha', hkeep⟩ := hadv.keeps k a ha
  exact ⟨k, a', ha', hkeep.isCount hcount,
    (isCountable_of_uncounted hkeep.uncounted_eq).trans hable⟩

theorem bindLists_advances (sc : Scope) (owner : String) (ci : Nat) (places : List Nat) :
    ∀ attrs : List Attribute, Advances attrs (bindLists sc owner ci places attrs).1 := by
  induction places with
  | nil => exact Advances.refl
  | cons li rest ih =>
      intro attrs
      rw [bindLists]
      cases hli : attrs[li]? with
      | none => exact ih attrs
      | some list =>
          cases hvar : list.isVariableList with
          | false =>
              simp only [hvar, Bool.false_eq_true, if_false]
              exact ih attrs
          | true =>
              simp only [hvar, if_true]
              exact (bindList_advances sc owner ci hli).trans (ih _)

/-- What binding a run of lists does. -/
structure ListsBound (ci : Nat) (attrs : List Attribute) (places : List Nat)
    (out : List Attribute × Report) : Prop where
  links : CountLinks ci attrs → CountLinks ci out.1
  bound : out.2.hasErrors = false → Misflagged out.1 ∨
    ∀ k ∈ places, ∀ a, attrs[k]? = some a → a.isVariableList = true →
      ∃ a', out.1[k]? = some a' ∧ a'.countField?.isSome = true

section Run

variable {ci li : Nat} {attrs attrs₁ attrs₂ : List Attribute} {rest : List Nat}
  {found more : Report}

/-- A place that holds no list leaves the attributes as they are. -/
theorem ListsBound.skip {out : List Attribute × Report} (h : ListsBound ci attrs rest out)
    (hno : ∀ a, attrs[li]? = some a → a.isVariableList = false) :
    ListsBound ci attrs (li :: rest) out := by
  refine ⟨h.links, fun herr => (h.bound herr).imp_right fun hall k hk a ha hvar => ?_⟩
  rcases List.mem_cons.mp hk with rfl | hk
  · rw [hno a ha] at hvar
    cases hvar
  · exact hall k hk a ha hvar

/-- Another place that was free still is once a list is bound. -/
theorem ListBound.free (h : ListBound ci attrs li (attrs₁, found)) (hadv : Advances attrs attrs₁)
    {k : Nat} (hne : k ≠ li) (hfree : ∀ a, attrs[k]? = some a → a.countField? = none)
    {a : Attribute} (ha : attrs₁[k]? = some a) : a.countField? = none := by
  have hlt : k < attrs.length := by
    rw [← hadv.length_eq]
    exact (List.getElem?_eq_some_iff.mp ha).1
  have ha₀ : attrs[k]? = some attrs[k] := List.getElem?_eq_getElem hlt
  rw [h.others k _ a hne ha₀ ha]
  exact hfree _ ha₀

/-- One list after another: what is bound stays bound, and what is misflagged stays so. -/
theorem ListsBound.cons (hone : ListBound ci attrs li (attrs₁, found))
    (hfirst : Advances attrs attrs₁) (hmore : ListsBound ci attrs₁ rest (attrs₂, more))
    (hsecond : Advances attrs₁ attrs₂) :
    ListsBound ci attrs (li :: rest) (attrs₂, found ++ more) := by
  refine ⟨hmore.links ∘ hone.links, fun herr => ?_⟩
  simp only [Report.hasErrors_append, Bool.or_eq_false_iff] at herr
  rcases hone.bound herr.1 with hbad | ⟨a, ha, hbound⟩
  · exact Or.inl (hbad.advances hsecond)
  refine (hmore.bound herr.2).imp_right fun hall k hk b hb hvar => ?_
  rcases List.mem_cons.mp hk with rfl | hk
  · obtain ⟨a', ha', hkeep⟩ := hsecond.keeps k a ha
    exact ⟨a', ha', hkeep.bound hbound⟩
  · obtain ⟨b', hb', hkeep⟩ := hfirst.keeps k b hb
    exact hall k hk b' hb' ((isVariableList_of_uncounted hkeep.uncounted_eq).trans hvar)

end Run

/-- Lists are visited once each and start out free, so binding one never disturbs another. -/
theorem bindLists_bound (sc : Scope) (owner : String) (ci : Nat) (places : List Nat) :
    ∀ attrs : List Attribute, places.Nodup →
      (∀ k ∈ places, ∀ a, attrs[k]? = some a → a.countField? = none) →
      ListsBound ci attrs places (bindLists sc owner ci places attrs) := by
  induction places with
  | nil =>
      intro attrs _ _
      exact ⟨id, fun _ => Or.inr fun k hk => absurd hk List.not_mem_nil⟩
  | cons li rest ih =>
      intro attrs hnodup hfree
      obtain ⟨hnew, hrest⟩ := List.nodup_cons.mp hnodup
      have hfreeRest : ∀ k ∈ rest, ∀ a, attrs[k]? = some a → a.countField? = none :=
        fun k hk => hfree k (List.mem_cons_of_mem _ hk)
      have hskip : (∀ a, attrs[li]? = some a → a.isVariableList = false) →
          ListsBound ci attrs (li :: rest) (bindLists sc owner ci rest attrs) :=
        (ih attrs hrest hfreeRest).skip
      rw [bindLists]
      cases hli : attrs[li]? with
      | none => exact hskip fun a ha => by rw [hli] at ha; cases ha
      | some list =>
          cases hvar : list.isVariableList with
          | false =>
              simp only [hvar, Bool.false_eq_true, if_false]
              refine hskip fun a ha => ?_
              obtain rfl := Option.some.inj (hli.symm.trans ha)
              exact hvar
          | true =>
              simp only [hvar, if_true]
              have hone := bindList_bound sc owner ci hli hvar
                (hfree li List.mem_cons_self list hli)
              have hfirst := bindList_advances sc owner ci hli
              generalize bindList sc owner ci attrs li list = first at hone hfirst
              obtain ⟨attrs₁, found⟩ := first
              have hfree₁ : ∀ k ∈ rest, ∀ a, attrs₁[k]? = some a → a.countField? = none :=
                fun k hk a => hone.free hfirst (fun heq => hnew (heq ▸ hk)) (hfreeRest k hk)
              exact ListsBound.cons hone hfirst (ih attrs₁ hrest hfree₁)
                (bindLists_advances sc owner ci rest attrs₁)

/-- The attributes as binding starts on them. -/
def cleared (attrs : List Attribute) : List Attribute :=
  attrs.map fun a => { a with countField? := none, countedList? := none }

theorem bindLists_cleared (sc : Scope) (owner : String) (ci : Nat) (attrs : List Attribute) :
    ListsBound ci (cleared attrs) (List.range (cleared attrs).length)
      (bindLists sc owner ci (List.range (cleared attrs).length) (cleared attrs)) := by
  refine bindLists_bound sc owner ci _ _ List.nodup_range ?_
  intro k _ a ha
  simp only [cleared, List.getElem?_map, Option.map_eq_some_iff] at ha
  obtain ⟨a₀, -, rfl⟩ := ha
  rfl

/-- After binding, the links of a message type are mutual. -/
theorem bindCounts_links (sc : Scope) (owner : String) (ci : Nat) (attrs : List Attribute) :
    CountLinks ci (bindCounts sc owner ci attrs).1 := by
  refine (bindLists_cleared sc owner ci attrs).links ⟨?_, ?_⟩ <;>
  · intro k a r ha hr
    simp only [cleared, List.getElem?_map, Option.map_eq_some_iff] at ha
    obtain ⟨a₀, -, rfl⟩ := ha
    cases hr

theorem bindCounts_advances (sc : Scope) (owner : String) (ci : Nat) (attrs : List Attribute) :
    Advances (cleared attrs) (bindCounts sc owner ci attrs).1 :=
  bindLists_advances sc owner ci _ _

/-- Binding changes nothing but flags, counted names and links. -/
theorem bindCounts_uncounted (sc : Scope) (owner : String) (ci : Nat) (attrs : List Attribute) :
    (bindCounts sc owner ci attrs).1.map uncounted = attrs.map uncounted := by
  rw [(bindCounts_advances sc owner ci attrs).map_uncounted]
  simp [cleared, uncounted, Function.comp_def]

/-- If nothing is reported, neither the lists nor the count fields gave a reason to. -/
theorem bindCounts_noErrors {sc : Scope} {owner : String} {ci : Nat} {attrs : List Attribute}
    (herr : (bindCounts sc owner ci attrs).2.hasErrors = false) :
    (bindLists sc owner ci (List.range (cleared attrs).length)
        (cleared attrs)).2.hasErrors = false ∧
      ∀ a ∈ (bindCounts sc owner ci attrs).1, a.isCount = true →
        (checkCount sc owner (bindCounts sc owner ci attrs).1 a).hasErrors = false := by
  have herr' : ((bindLists sc owner ci (List.range (cleared attrs).length) (cleared attrs)).2 ++
      Report.join (((bindCounts sc owner ci attrs).1.filter (·.isCount)).map
        (checkCount sc owner (bindCounts sc owner ci attrs).1))).hasErrors = false := herr
  rw [Report.hasErrors_append, Bool.or_eq_false_iff, Report.hasErrors_join] at herr'
  refine ⟨herr'.1, fun a ha hcount => ?_⟩
  have hmem : checkCount sc owner (bindCounts sc owner ci attrs).1 a ∈
      ((bindCounts sc owner ci attrs).1.filter (·.isCount)).map
        (checkCount sc owner (bindCounts sc owner ci attrs).1) :=
    List.mem_map_of_mem (List.mem_filter.mpr ⟨ha, hcount⟩)
  exact Bool.eq_false_iff.mpr (List.any_eq_false.mp herr'.2 _ hmem)

/-- If nothing is reported, every variable list has a count field and every count field can
count. -/
theorem bindCounts_bound {sc : Scope} {owner : String} {ci : Nat} {attrs : List Attribute}
    (herr : (bindCounts sc owner ci attrs).2.hasErrors = false) :
    (∀ a ∈ (bindCounts sc owner ci attrs).1, a.isCount = true → isCountable a = true) ∧
      ∀ (k : Nat) (a : Attribute), (bindCounts sc owner ci attrs).1[k]? = some a →
        a.isVariableList = true → a.countField?.isSome = true := by
  have hpass := bindLists_cleared sc owner ci attrs
  have hadv := bindCounts_advances sc owner ci attrs
  obtain ⟨hlists, hchecked⟩ := bindCounts_noErrors herr
  have hable : ∀ a ∈ (bindCounts sc owner ci attrs).1, a.isCount = true → isCountable a = true := by
    intro a ha hcount
    have hno := hchecked a ha hcount
    cases hfit : isCountable a with
    | true => rfl
    | false => simp [checkCount, hfit] at hno
  refine ⟨hable, fun k a ha hvar => ?_⟩
  rcases hpass.bound hlists with ⟨j, b, hb, hcount, hbad⟩ | hall
  · rw [hable b (List.mem_of_getElem? hb) hcount] at hbad
    cases hbad
  · have hlt : k < (cleared attrs).length := by
      rw [← hadv.length_eq]
      exact (List.getElem?_eq_some_iff.mp ha).1
    have ha₀ : (cleared attrs)[k]? = some (cleared attrs)[k] := List.getElem?_eq_getElem hlt
    obtain ⟨a', ha', hkeep⟩ := hadv.keeps k _ ha₀
    obtain rfl := Option.some.inj (ha'.symm.trans ha)
    have hvar₀ : ((cleared attrs)[k]).isVariableList = true :=
      (isVariableList_of_uncounted hkeep.uncounted_eq).symm.trans hvar
    obtain ⟨b, hb, hbound⟩ := hall k (List.mem_range.mpr hlt) _ ha₀ hvar₀
    obtain rfl := Option.some.inj (hb.symm.trans ha)
    exact hbound

end WireSchema.Resolve
