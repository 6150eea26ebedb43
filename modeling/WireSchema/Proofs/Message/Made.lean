import Mathlib
import WireSchema.Proofs.Message.Typing

/-!
# Making messages

Constructing only adds messages to a store; those that were there stay as they were.  `Made` says
that certain messages were made between two stores, that they share nothing, and that everything
below them is new.  Steps that make messages one after another compose.

## Main results

* `Made.append` — what was made first is not disturbed by what is made next.
* `Made.alloc` — a message that holds what was just made.
* `SameLinks.made` — numbers may change as long as messages hold the same messages.
-/

namespace WireSchema.Message

/-- The second store has the messages of the first, unchanged. -/
structure Extends (s s' : Store) : Prop where
  size_le : s.size ≤ s'.size
  cell : ∀ w, w < s.size → s'.cell? w = s.cell? w

namespace Extends

variable {s s' s'' : Store}

theorem refl (s : Store) : Extends s s := ⟨le_rfl, fun _ _ => rfl⟩

theorem trans (h : Extends s s') (h' : Extends s' s'') : Extends s s'' :=
  ⟨h.size_le.trans h'.size_le,
    fun w hw => (h'.cell w (lt_of_lt_of_le hw h.size_le)).trans (h.cell w hw)⟩

theorem grows (h : Extends s s') : Grows s s' :=
  ⟨h.size_le, fun z c hc => ⟨c, (h.cell z (Store.lt_size hc)).trans hc, rfl, rfl⟩⟩

theorem alloc (s : Store) (c : Cell) : Extends s (s.alloc c).2 :=
  ⟨by simp, fun w hw => by rw [Store.cell?_alloc, if_neg (Nat.ne_of_lt hw)]⟩

theorem sameFrom (h : Extends s s') {x : Id} (hx : Complete s x) : SameFrom s s' x :=
  fun w hw => h.cell w (hx w hw)

/-- Two typed regions, one of them old and one new. -/
theorem typedOn {rt : Runtime} {U : Id → Prop} (h : Extends s s') (hold : TypedOn rt s U)
    (hnew : TypedOn rt s' fun w => s.size ≤ w) (hU : ∀ w, s.size ≤ w → U w) :
    TypedOn rt s' U := by
  intro z c hz hc
  by_cases hlt : z < s.size
  · rw [h.cell z hlt] at hc
    obtain ⟨⟨p, hp⟩, hchildren⟩ := hold z c hz hc
    exact ⟨⟨p, hp.mono h.grows⟩, hchildren⟩
  · obtain ⟨hp, hchildren⟩ := hnew z c (Nat.le_of_not_lt hlt) hc
    exact ⟨hp, fun w hw => hU w (hchildren w hw)⟩

end Extends

/-- The messages `zs` were made between two stores.  They share nothing, and what is below them was
made too. -/
structure Made (s s' : Store) (zs : List Id) : Prop where
  below : ∀ z ∈ zs, ∀ w, Reach s' z w → s.size ≤ w ∧ w < s'.size
  forest : Forest s' zs

namespace Made

variable {s s' s'' : Store} {as bs : List Id}

theorem nil (s s' : Store) : Made s s' [] :=
  ⟨fun _ hz => absurd hz List.not_mem_nil, fun _ hz => absurd hz List.not_mem_nil, .nil⟩

theorem complete (h : Made s s' as) {a : Id} (ha : a ∈ as) : Complete s' a :=
  fun w hw => (h.below a ha w hw).2

/-- **What was made first is not disturbed by what is made next.** -/
theorem append (h : Made s s' as) (h' : Made s' s'' bs) (hext : Extends s s')
    (hext' : Extends s' s'') : Made s s'' (as ++ bs) := by
  have hsame : ∀ a ∈ as, SameFrom s' s'' a := fun a ha => hext'.sameFrom (h.complete ha)
  refine ⟨?_, forest_append.mpr ⟨h.forest.sameFrom hsame, h'.forest, ?_⟩⟩
  · intro z hz w hw
    rcases List.mem_append.mp hz with hz | hz
    · have hbound := h.below z hz w ((hsame z hz).reach_iff.mp hw)
      exact ⟨hbound.1, lt_of_lt_of_le hbound.2 hext'.size_le⟩
    · have hbound := h'.below z hz w hw
      exact ⟨hext.size_le.trans hbound.1, hbound.2⟩
  · intro a ha b hb w haw hbw
    have hlt := (h.below a ha w ((hsame a ha).reach_iff.mp haw)).2
    exact absurd hlt (Nat.not_lt.mpr (h'.below b hb w hbw).1)

/-- A message that holds what was just made. -/
theorem alloc {c : Cell} (hext : Extends s s') (h : Made s s' c.children) :
    Made s (s'.alloc c).2 [s'.size] := by
  have hcell : (s'.alloc c).2.cell? s'.size = some c := by rw [Store.cell?_alloc, if_pos rfl]
  have hsame : ∀ z ∈ c.children, SameFrom s' (s'.alloc c).2 z :=
    fun z hz => (Extends.alloc s' c).sameFrom (h.complete hz)
  have hforest := h.forest.sameFrom hsame
  refine ⟨?_, ?_, List.pairwise_singleton _ _⟩
  · intro z hz w hw
    obtain rfl := List.mem_singleton.mp hz
    rw [Store.size_alloc]
    rcases hw.cases with rfl | ⟨d, y, hd, hy, hyw⟩
    · exact ⟨hext.size_le, Nat.lt_succ_self _⟩
    · rw [hcell] at hd
      obtain rfl := Option.some.inj hd
      have hbound := h.below y hy w ((hsame y hy).reach_iff.mp hyw)
      exact ⟨hbound.1, hbound.2.trans (Nat.lt_succ_self _)⟩
  · intro z hz
    obtain rfl := List.mem_singleton.mp hz
    refine (unshared_iff hcell).mpr ⟨hforest, fun y hy hloop => ?_⟩
    have hbound := h.below y hy _ ((hsame y hy).reach_iff.mp hloop)
    exact absurd hbound.2 (lt_irrefl _)

/-- Made messages in the place of none. -/
theorem replaced (h : Made s s' as) (hext : Extends s s') (x : Id) : Replaced s s' x [] as :=
  ⟨hext.size_le, fun w hw _ _ => hext.cell w hw, fun z hz w hw => .inr (h.below z hz w hw).1,
    h.forest⟩

end Made

/-! ## Stores in which messages hold the same messages -/

/-- Every message holds the same messages in both stores. -/
structure SameLinks (s s' : Store) : Prop where
  size_eq : s'.size = s.size
  children : ∀ z, (s'.cell? z).map Cell.children = (s.cell? z).map Cell.children

namespace SameLinks

variable {s s' s'' : Store}

theorem refl (s : Store) : SameLinks s s := ⟨rfl, fun _ => rfl⟩

theorem trans (h : SameLinks s s') (h' : SameLinks s' s'') : SameLinks s s'' :=
  ⟨h'.size_eq.trans h.size_eq, fun z => (h'.children z).trans (h.children z)⟩

theorem follow (h : SameLinks s s') (path : List Nat) :
    ∀ x, s'.follow x path = s.follow x path := by
  induction path with
  | nil =>
      intro x
      rfl
  | cons i path ih =>
      intro x
      have hstep : (s'.cell? x).bind (·.children[i]?) = (s.cell? x).bind (·.children[i]?) := by
        have hmap : ∀ o : Option Cell, o.bind (·.children[i]?) =
            (o.map Cell.children).bind (·[i]?) := by
          intro o
          cases o <;> rfl
        rw [hmap, hmap, h.children x]
      rw [Store.follow, Store.follow, hstep]
      congr 1
      funext z
      exact ih z

theorem reach_iff (h : SameLinks s s') {x w : Id} : Reach s' x w ↔ Reach s x w := by
  simp only [Reach, h.follow]

theorem unshared (h : SameLinks s s') {x : Id} (hx : Unshared s x) : Unshared s' x := by
  intro p q z hp hq
  rw [h.follow] at hp hq
  exact hx p q z hp hq

/-- Numbers may change in what was made. -/
theorem made (h : SameLinks s s') {s₀ : Store} {zs : List Id} (hmade : Made s₀ s zs) :
    Made s₀ s' zs := by
  refine ⟨fun z hz w hw => ?_, fun z hz => h.unshared (hmade.forest.1 z hz), ?_⟩
  · rw [h.size_eq]
    exact hmade.below z hz w (h.reach_iff.mp hw)
  · refine hmade.forest.2.imp fun hab w haw hbw => ?_
    exact hab w (h.reach_iff.mp haw) (h.reach_iff.mp hbw)

/-- A number is written over a number. -/
theorem put {z : Id} {c : Cell} {field : String} {v w : Value} (hc : s.cell? z = some c)
    (hv : c.value? field = some v) (hids : v.ids = w.ids) : SameLinks s (s.put z field w) := by
  refine ⟨Store.size_put s z field w, fun y => ?_⟩
  rw [Store.cell?_put]
  by_cases hy : y = z
  · obtain ⟨before, after, hold, hnew, -⟩ := Cell.children_put hv
    rw [if_pos hy, hy, hc, Option.map_map, Option.map_some, Option.map_some, hold, ← hids.symm]
    exact congrArg some (hids ▸ hnew w)
  · rw [if_neg hy]

end SameLinks

end WireSchema.Message
