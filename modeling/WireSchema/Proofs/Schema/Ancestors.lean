import Mathlib
import WireSchema.Schema.Model

/-!
# Walks along parent links

Parents are looked up before it is known that no type is its own ancestor, so a walk along parent
links remembers what it has seen and stops where it would see something again.  `Walks` says what
such a walk meets, `Searches` what a search finds that looks at each type before it goes on; neither
counts steps, so that there is a walk at all says that it ends.  The search starts with nothing seen
and sees its first type too, while the ancestors of a type are met by a walk that has seen the type
itself, and both are cut at the same place.

A walk ends since every step leaves one type of the model fewer unseen.  It misses nothing since a
link from a type it has seen leads to another one, or to where it stands.

## Main results

* `walks_ancestors`, `searches_lookupAttribute` — the walk and the search come to an end.
* `mem_ancestors_iff` — the ancestors of a type are all types above it but itself.
* `ancestors_exact` — all of it, for every type of every model.
-/

namespace WireSchema.Model

variable {m : Model} {i j : Nat}

/-! ## Walks and searches -/

/-- The type at `i` extends the one at `j`. -/
def Extends (m : Model) (i j : Nat) : Prop := m.parentOf? i = some j

/-- A walk to the type `next`, if there is one, with the types `seen` behind it meets the types
`met`. -/
inductive Walks (m : Model) : (seen : List Nat) → (next : Option Nat) → (met : List Nat) → Prop
  | top (seen : List Nat) : Walks m seen none []
  | again {seen : List Nat} {i : Nat} (h : i ∈ seen) : Walks m seen (some i) []
  | step {seen met : List Nat} {i : Nat} (h : i ∉ seen)
      (rest : Walks m (i :: seen) (m.parentOf? i) met) : Walks m seen (some i) (i :: met)

/-- The place of the attribute a type declares under a name. -/
def own? (m : Model) (name : String) (i : Nat) : Option AttrRef :=
  (m.classes[i]?.bind (·.attributeIndex? name)).map fun k => ⟨i, k⟩

/-- A search for a name, at the type `next` with the types `seen` behind it, ends with the answer
`found`. -/
inductive Searches (m : Model) (name : String) :
    (seen : List Nat) → (next : Option Nat) → (found : Option AttrRef) → Prop
  | top (seen : List Nat) : Searches m name seen none none
  | again {seen : List Nat} {i : Nat} (h : i ∈ seen) : Searches m name seen (some i) none
  | here {seen : List Nat} {i : Nat} {r : AttrRef} (h : i ∉ seen) (hown : m.own? name i = some r) :
      Searches m name seen (some i) (some r)
  | step {seen : List Nat} {i : Nat} {found : Option AttrRef} (h : i ∉ seen)
      (hown : m.own? name i = none)
      (rest : Searches m name (i :: seen) (m.parentOf? i) found) :
      Searches m name seen (some i) found

namespace Walks

variable {seen met met' : List Nat} {next : Option Nat}

/-- A walk meets the same types every time. -/
theorem unique (h : Walks m seen next met) (h' : Walks m seen next met') : met = met' := by
  induction h generalizing met' with
  | top seen =>
      cases h'
      rfl
  | again hseen =>
      cases h' with
      | again _ => rfl
      | step hnew _ => exact absurd hseen hnew
  | step hnew _ ih =>
      cases h' with
      | again hseen => exact absurd hseen hnew
      | step _ rest => rw [ih rest]

/-- What a walk meets is new, every time. -/
theorem fresh (h : Walks m seen next met) : met.Nodup ∧ ∀ j ∈ met, j ∉ seen := by
  induction h with
  | top seen => exact ⟨.nil, by simp⟩
  | again _ => exact ⟨.nil, by simp⟩
  | @step seen met i hnew _ ih =>
      obtain ⟨hnodup, hunseen⟩ := ih
      constructor
      · refine List.nodup_cons.mpr ⟨fun hi => ?_, hnodup⟩
        exact hunseen i hi List.mem_cons_self
      · intro j hj
        rcases List.mem_cons.mp hj with rfl | hj
        · exact hnew
        · exact fun hseen => hunseen j hj (List.mem_cons_of_mem i hseen)

/-- A search finds the first of the types a walk meets that has what is looked for. -/
theorem searches (h : Walks m seen next met) (name : String) :
    Searches m name seen next (met.findSome? (m.own? name)) := by
  induction h with
  | top seen => exact .top seen
  | again hseen => exact .again hseen
  | @step seen met i hnew _ ih =>
      rw [List.findSome?_cons]
      cases hown : m.own? name i with
      | some r => exact .here hnew hown
      | none => exact .step hnew hown ih

end Walks

/-- A search finds the same every time. -/
theorem Searches.unique {name : String} {seen : List Nat} {next : Option Nat}
    {found found' : Option AttrRef} (h : Searches m name seen next found)
    (h' : Searches m name seen next found') : found = found' := by
  induction h generalizing found' with
  | top seen =>
      cases h'
      rfl
  | again hseen =>
      cases h' with
      | again _ => rfl
      | here hnew _ => exact absurd hseen hnew
      | step hnew _ _ => exact absurd hseen hnew
  | here hnew hown =>
      cases h' with
      | again hseen => exact absurd hseen hnew
      | here _ hown' => rw [← hown, hown']
      | step _ hown' _ => exact absurd (hown.symm.trans hown') (by simp)
  | step hnew hown _ ih =>
      cases h' with
      | again hseen => exact absurd hseen hnew
      | here _ hown' => exact absurd (hown.symm.trans hown') (by simp)
      | step _ _ rest => exact ih rest

/-! ## Walks end

A type with a parent is one of the model, so a step from a new type leaves fewer of them unseen. -/

/-- The types of the model that have not been seen. -/
def unseen (m : Model) (seen : List Nat) : Finset Nat :=
  Finset.range m.classes.length \ seen.toFinset

theorem card_unseen_cons_lt {seen : List Nat} (hnew : i ∉ seen) (hparent : m.Extends i j) :
    (m.unseen (i :: seen)).card < (m.unseen seen).card := by
  have hlt : i < m.classes.length := by
    obtain ⟨c, hc, -⟩ := Option.bind_eq_some_iff.mp hparent
    exact (List.getElem?_eq_some_iff.mp hc).1
  apply Finset.card_lt_card
  rw [Finset.ssubset_iff_of_subset]
  · exact ⟨i, by simp [unseen, hlt, hnew], by simp [unseen]⟩
  · intro k hk
    simp only [unseen, Finset.mem_sdiff, List.mem_toFinset, List.mem_cons, not_or] at hk ⊢
    exact ⟨hk.1, hk.2.2⟩

/-- With steps for the types that are unseen and one more, a chain is cut by nothing but what the
walk has seen. -/
theorem walks_chainFrom {fuel : Nat} {seen : List Nat} (hfuel : (m.unseen seen).card < fuel)
    (i : Nat) : Walks m seen (some i) (m.chainFrom fuel seen i) := by
  induction fuel generalizing seen i with
  | zero => omega
  | succ fuel ih =>
      rw [chainFrom]
      by_cases hseen : i ∈ seen
      · rw [if_pos (List.contains_iff_mem.mpr hseen)]
        exact .again hseen
      · rw [if_neg (fun h => hseen (List.contains_iff_mem.mp h))]
        apply Walks.step hseen
        cases hparent : m.parentOf? i with
        | none => exact .top _
        | some p =>
            have hless := card_unseen_cons_lt hseen hparent
            exact ih (by omega) p

theorem walks_chain (m : Model) (i : Nat) : Walks m [] (some i) (m.chain i) := by
  apply walks_chainFrom
  simp [unseen]

theorem chain_eq (m : Model) (i : Nat) : m.chain i = i :: m.ancestors i := by
  have hwalk := walks_chain m i
  rw [ancestors]
  generalize m.chain i = met at hwalk
  cases hwalk with
  | again hseen => cases hseen
  | step _ _ => rfl

/-- **The ancestors of a type are what a walk meets that starts above it and has seen it.** -/
theorem walks_ancestors (m : Model) (i : Nat) : Walks m [i] (m.parentOf? i) (m.ancestors i) := by
  have hwalk := walks_chain m i
  rw [chain_eq] at hwalk
  cases hwalk with
  | step _ rest => exact rest

/-- **Looking up an attribute is a search that starts at the type with nothing seen.** -/
theorem searches_lookupAttribute (m : Model) (i : Nat) (name : String) :
    Searches m name [] (some i) (m.lookupAttribute i name) :=
  (walks_chain m i).searches name

/-! ## Walks miss nothing -/

namespace Walks

variable {seen met : List Nat} {next : Option Nat}

/-- Links from what a walk has seen or meets lead to what it has seen or meets. -/
theorem closed (h : Walks m seen next met)
    (hseen : ∀ k ∈ seen, ∀ p, m.Extends k p → p ∈ seen ∨ next = some p) :
    ∀ k, k ∈ seen ∨ k ∈ met → ∀ p, m.Extends k p → p ∈ seen ∨ p ∈ met := by
  induction h with
  | top seen =>
      rintro k (hk | hk) p hp
      · exact (hseen k hk p hp).imp_right fun h => absurd h (by simp)
      · cases hk
  | @again seen i hi =>
      rintro k (hk | hk) p hp
      · rcases hseen k hk p hp with hp | hp
        · exact Or.inl hp
        · exact Or.inl (Option.some.inj hp ▸ hi)
      · cases hk
  | @step seen met i hnew _ ih =>
      have hstep : ∀ k ∈ i :: seen, ∀ p, m.Extends k p →
          p ∈ i :: seen ∨ m.parentOf? i = some p := by
        intro k hk p hp
        rcases List.mem_cons.mp hk with rfl | hk
        · exact Or.inr hp
        · rcases hseen k hk p hp with hp | hp
          · exact Or.inl (List.mem_cons_of_mem i hp)
          · exact Or.inl (Option.some.inj hp ▸ List.mem_cons_self)
      intro k hk p hp
      have hk' : k ∈ i :: seen ∨ k ∈ met := by
        simp only [List.mem_cons] at hk ⊢
        tauto
      have hmet := ih hstep k hk' p hp
      simp only [List.mem_cons] at hmet ⊢
      tauto

/-- What a walk meets is reached along parent links from where it starts. -/
theorem reached (h : Walks m seen next met) :
    ∀ j ∈ met, ∃ k, next = some k ∧ Relation.ReflTransGen m.Extends k j := by
  induction h with
  | top seen => simp
  | again _ => simp
  | @step seen met i _ _ ih =>
      intro j hj
      rcases List.mem_cons.mp hj with rfl | hj
      · exact ⟨j, rfl, .refl⟩
      · obtain ⟨k, hk, hkj⟩ := ih j hj
        exact ⟨i, rfl, .head hk hkj⟩

end Walks

/-- A type above another one is among its ancestors, unless links lead back to where they start. -/
theorem mem_ancestors_of_above (habove : Relation.TransGen m.Extends i j) :
    j = i ∨ j ∈ m.ancestors i := by
  have hclosed := (walks_ancestors m i).closed fun k hk p hp =>
    Or.inr (List.mem_singleton.mp hk ▸ hp)
  simp only [List.mem_singleton] at hclosed
  induction habove with
  | single hp => exact hclosed i (Or.inl rfl) _ hp
  | tail _ hp ih => exact hclosed _ ih _ hp

/-- **The ancestors of a type are all types above it but itself.** -/
theorem mem_ancestors_iff :
    j ∈ m.ancestors i ↔ j ≠ i ∧ Relation.TransGen m.Extends i j := by
  have hwalk := walks_ancestors m i
  constructor
  · intro hj
    obtain ⟨k, hk, hkj⟩ := hwalk.reached j hj
    exact ⟨fun heq => hwalk.fresh.2 j hj (heq ▸ List.mem_cons_self), .head' hk hkj⟩
  · rintro ⟨hne, habove⟩
    exact (mem_ancestors_of_above habove).resolve_left hne

/-! ## The nearest come first -/

/-- The type so many parent links above the one at `i`. -/
def above (m : Model) : (n : Nat) → (i : Nat) → Option Nat
  | 0, i => some i
  | n + 1, i => (m.parentOf? i).bind (m.above n)

theorem Walks.above_of_getElem? {seen met : List Nat} {next : Option Nat}
    (h : Walks m seen next met) {k : Nat} (hk : met[k]? = some j) :
    next.bind (m.above k) = some j := by
  induction h generalizing k with
  | top seen => simp at hk
  | again _ => simp at hk
  | step _ _ ih =>
      cases k with
      | zero => simpa [above] using hk
      | succ k => exact ih (by simpa using hk)

/-- **An ancestor stands as far from the front as it is above the type**, on the shortest way. -/
theorem isLeast_above {k : Nat} (hk : (m.ancestors i)[k]? = some j) :
    IsLeast {n | 0 < n ∧ m.above n i = some j} (k + 1) := by
  have hwalk := walks_ancestors m i
  constructor
  · exact ⟨Nat.succ_pos k, hwalk.above_of_getElem? hk⟩
  · rintro n ⟨hpos, hn⟩
    obtain ⟨n, rfl⟩ := Nat.exists_eq_succ_of_ne_zero hpos.ne'
    by_contra hless
    have hklen : k < (m.ancestors i).length := (List.getElem?_eq_some_iff.mp hk).1
    have hnlen : n < (m.ancestors i).length := by omega
    -- The ancestor at `n` is as far above as `j` is, so it is `j` and stands at `k`.
    have hat : (m.ancestors i)[n]? = some j := by
      have hsome := List.getElem?_eq_getElem hnlen
      rw [hsome, ← hwalk.above_of_getElem? hsome]
      exact hn
    have hsame : n = k := (List.getElem?_inj hnlen hwalk.fresh.1).mp (hat.trans hk.symm)
    omega

/-! ## Lookups -/

/-- The type declares an attribute of the name. -/
def Declares (m : Model) (name : String) (i : Nat) : Prop :=
  ∃ c, m.classes[i]? = some c ∧ ∃ a ∈ c.attributes, a.name = name

/-- The attribute at a place is the first of its type that has the name. -/
def FirstCalled (m : Model) (name : String) (r : AttrRef) : Prop :=
  ∃ c a, m.classes[r.cls]? = some c ∧ c.attributes[r.attr]? = some a ∧ a.name = name ∧
    ∀ k < r.attr, ∀ b, c.attributes[k]? = some b → b.name ≠ name

theorem own?_eq_none_iff {name : String} : m.own? name i = none ↔ ¬ m.Declares name i := by
  rw [own?, Option.map_eq_none_iff, Declares]
  cases hc : m.classes[i]? with
  | none => simp
  | some c => simp [Class.attributeIndex?, List.findIdx?_eq_none_iff]

theorem own?_eq_some_iff {name : String} {r : AttrRef} :
    m.own? name i = some r ↔ r.cls = i ∧ m.FirstCalled name r := by
  rw [own?, Option.map_eq_some_iff]
  constructor
  · rintro ⟨k, hk, rfl⟩
    obtain ⟨c, hc, hindex⟩ := Option.bind_eq_some_iff.mp hk
    obtain ⟨hlt, hname, hfirst⟩ := List.findIdx?_eq_some_iff_getElem.mp hindex
    refine ⟨rfl, c, c.attributes[k], hc, List.getElem?_eq_getElem hlt, eq_of_beq hname, ?_⟩
    intro l hl b hb
    obtain ⟨_, rfl⟩ := List.getElem?_eq_some_iff.mp hb
    exact fun heq => hfirst l hl (beq_iff_eq.mpr heq)
  · rintro ⟨rfl, c, a, hc, ha, hname, hfirst⟩
    obtain ⟨hlt, rfl⟩ := List.getElem?_eq_some_iff.mp ha
    refine ⟨r.attr, ?_, rfl⟩
    rw [hc, Option.bind_some]
    apply List.findIdx?_eq_some_iff_getElem.mpr
    refine ⟨hlt, beq_iff_eq.mpr hname, fun l hl heq => ?_⟩
    exact hfirst l hl _ (List.getElem?_eq_getElem (hl.trans hlt)) (eq_of_beq heq)

theorem lookupAttribute_eq_none_iff {name : String} :
    m.lookupAttribute i name = none ↔ ∀ j ∈ i :: m.ancestors i, ¬ m.Declares name j := by
  show (m.chain i).findSome? (m.own? name) = none ↔ _
  rw [List.findSome?_eq_none_iff, chain_eq]
  simp only [own?_eq_none_iff]

theorem lookupAttribute_eq_some_iff {name : String} {r : AttrRef} :
    m.lookupAttribute i name = some r ↔ m.FirstCalled name r ∧ ∃ nearer further,
      i :: m.ancestors i = nearer ++ r.cls :: further ∧ ∀ j ∈ nearer, ¬ m.Declares name j := by
  show (m.chain i).findSome? (m.own? name) = some r ↔ _
  rw [List.findSome?_eq_some_iff, chain_eq]
  simp only [own?_eq_some_iff, own?_eq_none_iff]
  constructor
  · rintro ⟨nearer, j, further, hchain, ⟨rfl, hfirst⟩, hnearer⟩
    exact ⟨hfirst, nearer, further, hchain, hnearer⟩
  · rintro ⟨hfirst, nearer, further, hchain, hnearer⟩
    exact ⟨nearer, r.cls, further, hchain, ⟨rfl, hfirst⟩, hnearer⟩

/-- **Walks along parents are complete and finite, whatever the links are.**  The walk above a type
ends, with its ancestors: no type twice and never the type itself, all others above it, each as far
from the front as it is above the type.  The search for a name ends, with the first attribute of
that name in the first type of the type and its ancestors that declares it. -/
theorem ancestors_exact (m : Model) (i : Nat) :
    (∀ met, Walks m [i] (m.parentOf? i) met ↔ met = m.ancestors i) ∧
    (m.ancestors i).Nodup ∧
    i ∉ m.ancestors i ∧
    (∀ j, j ∈ m.ancestors i ↔ j ≠ i ∧ Relation.TransGen m.Extends i j) ∧
    (∀ k j, (m.ancestors i)[k]? = some j → IsLeast {n | 0 < n ∧ m.above n i = some j} (k + 1)) ∧
    ∀ name,
      (∀ found, Searches m name [] (some i) found ↔ found = m.lookupAttribute i name) ∧
      (m.lookupAttribute i name = none ↔ ∀ j ∈ i :: m.ancestors i, ¬ m.Declares name j) ∧
      ∀ r, m.lookupAttribute i name = some r ↔ m.FirstCalled name r ∧ ∃ nearer further,
        i :: m.ancestors i = nearer ++ r.cls :: further ∧ ∀ j ∈ nearer, ¬ m.Declares name j := by
  have hwalk := walks_ancestors m i
  refine ⟨fun met => ⟨fun h => h.unique hwalk, fun h => h ▸ hwalk⟩, hwalk.fresh.1,
    fun hi => hwalk.fresh.2 i hi (List.mem_singleton_self i), fun j => mem_ancestors_iff,
    fun k j => isLeast_above, fun name => ⟨fun found => ?_, lookupAttribute_eq_none_iff,
      fun r => lookupAttribute_eq_some_iff⟩⟩
  have hsearch := searches_lookupAttribute m i name
  exact ⟨fun h => h.unique hsearch, fun h => h ▸ hsearch⟩

/-- Behind the first type, the other two are each other's parents. -/
example : ancestors { classes := [{ name := "A", parentClass? := some 1 },
    { name := "B", parentClass? := some 2 }, { name := "C", parentClass? := some 1 }] } 0 =
    [1, 2] := by
  decide

end WireSchema.Model
