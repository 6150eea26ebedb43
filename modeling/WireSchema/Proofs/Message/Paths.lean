import Mathlib
import WireSchema.Message.Store

/-!
# Paths through a store

A message holds other messages: its parent part and those in its fields.  A path is a list of
numbers, each of which picks one of the messages that the message before it holds.  In these terms
a message shares nothing if every message it holds, at any depth, is reached by one path only, and
it is acyclic if no message on the way holds itself.

What is true of a message depends only on the cells that paths from it lead to.  So an operation is
described by the cells it leaves alone, and two operations on messages that reach different cells do
not disturb each other.

## Main results

* `unshared_iff` — a message shares nothing if the messages it holds form a `Forest` without it.
* `Replaced.changed` — replacing the messages that one field holds keeps the rest of a message as
  it was.
* `Replaced.append` — replacements of different messages one after another.
* `Acyclic.shallow` — paths from an acyclic message are shorter than the store is large.
-/

namespace WireSchema.Message

/-! ## What the operations on cells and stores do -/

theorem lookup_putField_self (field : String) (v : Value) (fields : List (String × Value)) :
    (putField field v fields).lookup field = some v := by
  induction fields with
  | nil => simp [putField]
  | cons e rest ih =>
      obtain ⟨n, w⟩ := e
      rw [putField]
      split
      · rename_i hn
        rw [hn]
        exact List.lookup_cons_self
      · rename_i hn
        rw [List.lookup_cons, beq_eq_false_iff_ne.mpr (Ne.symm hn)]
        exact ih

theorem lookup_putField_ne {field g : String} (hne : g ≠ field) (v : Value)
    (fields : List (String × Value)) : (putField field v fields).lookup g = fields.lookup g := by
  induction fields with
  | nil => simp [putField, List.lookup_cons, beq_eq_false_iff_ne.mpr hne]
  | cons e rest ih =>
      obtain ⟨n, w⟩ := e
      rw [putField]
      split
      · rename_i hn
        rw [List.lookup_cons, List.lookup_cons, beq_eq_false_iff_ne.mpr (hn ▸ hne)]
      · rw [List.lookup_cons, List.lookup_cons, ih]

@[simp] theorem Cell.value?_put_self (c : Cell) (field : String) (v : Value) :
    (c.put field v).value? field = some v :=
  lookup_putField_self field v c.fields

theorem Cell.value?_put_ne (c : Cell) {field g : String} (hne : g ≠ field) (v : Value) :
    (c.put field v).value? g = c.value? g :=
  lookup_putField_ne hne v c.fields

@[simp] theorem Cell.plan_put (c : Cell) (field : String) (v : Value) :
    (c.put field v).plan = c.plan := rfl

@[simp] theorem Cell.parent?_put (c : Cell) (field : String) (v : Value) :
    (c.put field v).parent? = c.parent? := rfl

theorem mem_putField {field n : String} {v w : Value} {fields : List (String × Value)}
    (h : (n, w) ∈ putField field v fields) : (n, w) = (field, v) ∨ (n, w) ∈ fields := by
  induction fields with
  | nil => exact .inl (List.mem_singleton.mp h)
  | cons e rest ih =>
      obtain ⟨k, u⟩ := e
      rw [putField] at h
      split at h
      · rename_i hk
        rcases List.mem_cons.mp h with heq | hmem
        · rw [hk] at heq
          exact .inl heq
        · exact .inr (List.mem_cons_of_mem _ hmem)
      · rcases List.mem_cons.mp h with heq | hmem
        · exact .inr (heq ▸ List.mem_cons_self)
        · exact (ih hmem).imp_right (List.mem_cons_of_mem _)

/-- A value that a message has is one of its entries. -/
theorem mem_of_value? {c : Cell} {field : String} {v : Value} (h : c.value? field = some v) :
    (field, v) ∈ c.fields := by
  obtain ⟨l₁, l₂, hsplit, -⟩ := List.lookup_eq_some_iff.mp h
  rw [hsplit]
  exact List.mem_append_right _ List.mem_cons_self

namespace Store

theorem cell?_eq_none_iff {st : Store} {z : Id} : st.cell? z = none ↔ st.size ≤ z := by
  simp [cell?, size]

theorem lt_size {st : Store} {z : Id} {c : Cell} (h : st.cell? z = some c) : z < st.size := by
  by_contra hge
  rw [cell?_eq_none_iff.mpr (Nat.le_of_not_lt hge)] at h
  cases h

@[simp] theorem size_put (st : Store) (id : Id) (field : String) (v : Value) :
    (st.put id field v).size = st.size := by
  simp [put, size]

theorem cell?_put (st : Store) (id : Id) (field : String) (v : Value) (z : Id) :
    (st.put id field v).cell? z =
      if z = id then (st.cell? z).map (·.put field v) else st.cell? z := by
  simp only [put, cell?, Array.getElem?_modify]
  by_cases h : z = id
  · simp [h]
  · simp [h, Ne.symm h]

theorem cell?_put_ne (st : Store) {id z : Id} (hne : z ≠ id) (field : String) (v : Value) :
    (st.put id field v).cell? z = st.cell? z := by
  rw [cell?_put, if_neg hne]

theorem cell?_put_self {st : Store} {id : Id} {c : Cell} (h : st.cell? id = some c)
    (field : String) (v : Value) : (st.put id field v).cell? id = some (c.put field v) := by
  rw [cell?_put, if_pos rfl, h]
  rfl

@[simp] theorem size_alloc (st : Store) (c : Cell) : (st.alloc c).2.size = st.size + 1 := by
  simp [alloc, size]

theorem cell?_alloc (st : Store) (c : Cell) (z : Id) :
    (st.alloc c).2.cell? z = if z = st.size then some c else st.cell? z := by
  simp only [alloc, cell?, size, Array.getElem?_push]
  rfl

end Store

/-! ## Messages held by messages -/

/-- The message in an item, if it is one. -/
def Item.ids : Item → List Id
  | .scalar _ => []
  | .message id => [id]

/-- The messages in a value. -/
def Value.ids : Value → List Id
  | .single i => i.ids
  | .list items => items.flatMap Item.ids

/-- The messages that a message holds: its parent part, then those in its fields. -/
def Cell.children (c : Cell) : List Id := c.parent?.toList ++ c.fields.flatMap (·.2.ids)

/-- The message that a path leads to. -/
def Store.follow (st : Store) : Id → List Nat → Option Id
  | x, [] => some x
  | x, i :: path => ((st.cell? x).bind (·.children[i]?)).bind (st.follow · path)

/-- Some path leads from `x` to `z`. -/
def Reach (st : Store) (x z : Id) : Prop := ∃ path, st.follow x path = some z

/-- Every message below `x` is reached by one path only. -/
def Unshared (st : Store) (x : Id) : Prop :=
  ∀ p q z, st.follow x p = some z → st.follow x q = some z → p = q

/-- No message below `x` holds itself. -/
def Acyclic (st : Store) (x : Id) : Prop :=
  ∀ p q z, st.follow x p = some z → st.follow z q = some z → q = []

/-- Messages that share nothing, neither within one nor between two of them. -/
def Forest (st : Store) (zs : List Id) : Prop :=
  (∀ z ∈ zs, Unshared st z) ∧ zs.Pairwise fun a b => ∀ w, Reach st a w → ¬ Reach st b w

section Reach

variable {st : Store} {x y z : Id} {c : Cell}

theorem Reach.refl (st : Store) (x : Id) : Reach st x x := ⟨[], rfl⟩

theorem follow_cons (h : st.cell? x = some c) (i : Nat) (path : List Nat) :
    st.follow x (i :: path) = (c.children[i]?).bind (st.follow · path) := by
  rw [Store.follow, h, Option.bind_some]

theorem follow_append (p q : List Nat) (h : st.follow x p = some y) :
    st.follow x (p ++ q) = st.follow y q := by
  induction p generalizing x with
  | nil =>
      obtain rfl := Option.some.inj h
      rfl
  | cons i p ih =>
      rw [Store.follow, Option.bind_eq_some_iff] at h
      obtain ⟨w, hw, hrest⟩ := h
      rw [List.cons_append, Store.follow, hw, Option.bind_some]
      exact ih hrest

theorem follow_append_none (p q : List Nat) (h : st.follow x p = none) :
    st.follow x (p ++ q) = none := by
  induction p generalizing x with
  | nil => cases h
  | cons i p ih =>
      rw [List.cons_append, Store.follow]
      rw [Store.follow] at h
      cases hstep : (st.cell? x).bind (·.children[i]?) with
      | none => rfl
      | some y =>
          rw [hstep, Option.bind_some] at h
          exact ih h

theorem Reach.trans (hxy : Reach st x y) (hyz : Reach st y z) : Reach st x z := by
  obtain ⟨p, hp⟩ := hxy
  obtain ⟨q, hq⟩ := hyz
  exact ⟨p ++ q, (follow_append p q hp).trans hq⟩

theorem Reach.child (h : st.cell? x = some c) (hz : z ∈ c.children) : Reach st x z := by
  obtain ⟨i, hi⟩ := List.mem_iff_getElem?.mp hz
  exact ⟨[i], by rw [follow_cons h, hi]; rfl⟩

theorem Reach.head (h : st.cell? x = some c) (hz : z ∈ c.children) (hzy : Reach st z y) :
    Reach st x y :=
  (Reach.child h hz).trans hzy

/-- A path is empty or starts with one of the messages held. -/
theorem Reach.cases (h : Reach st x y) :
    y = x ∨ ∃ c z, st.cell? x = some c ∧ z ∈ c.children ∧ Reach st z y := by
  obtain ⟨path, hpath⟩ := h
  cases path with
  | nil => exact .inl (Option.some.inj hpath).symm
  | cons i path =>
      rw [Store.follow, Option.bind_eq_some_iff] at hpath
      obtain ⟨z, hz, hrest⟩ := hpath
      rw [Option.bind_eq_some_iff] at hz
      obtain ⟨c, hc, hchild⟩ := hz
      exact .inr ⟨c, z, hc, List.mem_of_getElem? hchild, path, hrest⟩

theorem Unshared.acyclic (h : Unshared st x) : Acyclic st x := by
  intro p q z hp hq
  have hboth := h (p ++ q) p z ((follow_append p q hp).trans hq) hp
  simpa using hboth

theorem Acyclic.child (h : Acyclic st x) (hc : st.cell? x = some c) (hz : z ∈ c.children) :
    Acyclic st z := by
  obtain ⟨path, hpath⟩ := Reach.child hc hz
  intro p q w hp hq
  exact h (path ++ p) q w ((follow_append path p hpath).trans hp) hq

/-- A message is acyclic if those it holds are and do not lead back to it. -/
theorem Acyclic.of_children (hc : st.cell? x = some c)
    (h : ∀ z ∈ c.children, Acyclic st z ∧ ¬ Reach st z x) : Acyclic st x := by
  have hfirst : ∀ i path w, st.follow x (i :: path) = some w →
      ∃ z ∈ c.children, st.follow z path = some w := by
    intro i path w hw
    rw [follow_cons hc, Option.bind_eq_some_iff] at hw
    obtain ⟨z, hz, hrest⟩ := hw
    exact ⟨z, List.mem_of_getElem? hz, hrest⟩
  intro p q z hp hq
  cases p with
  | nil =>
      obtain rfl := Option.some.inj hp
      cases q with
      | nil => rfl
      | cons i q =>
          obtain ⟨w, hw, hback⟩ := hfirst i q x hq
          exact absurd ⟨q, hback⟩ (h w hw).2
  | cons i p =>
      obtain ⟨w, hw, hrest⟩ := hfirst i p z hp
      exact (h w hw).1 p q z hrest hq

/-- **Sharing is decided by what a message holds directly.** -/
theorem unshared_iff (hc : st.cell? x = some c) :
    Unshared st x ↔ Forest st c.children ∧ ∀ z ∈ c.children, ¬ Reach st z x := by
  constructor
  · intro h
    have hpath : ∀ {i : Nat} {z : Id} {path : List Nat}, c.children[i]? = some z →
        st.follow x (i :: path) = st.follow z path := by
      intro i z path hi
      rw [follow_cons hc, hi, Option.bind_some]
    refine ⟨⟨?_, ?_⟩, ?_⟩
    · intro z hz p q w hp hq
      obtain ⟨i, hi⟩ := List.mem_iff_getElem?.mp hz
      have hboth := h (i :: p) (i :: q) w ((hpath hi).trans hp) ((hpath hi).trans hq)
      exact (List.cons.inj hboth).2
    · rw [List.pairwise_iff_getElem]
      intro i j hi hj hlt w hreach hreach'
      obtain ⟨p, hp⟩ := hreach
      obtain ⟨q, hq⟩ := hreach'
      have hboth := h (i :: p) (j :: q) w
        ((hpath (List.getElem?_eq_getElem hi)).trans hp)
        ((hpath (List.getElem?_eq_getElem hj)).trans hq)
      exact absurd (List.cons.inj hboth).1 (Nat.ne_of_lt hlt)
    · intro z hz hreach
      obtain ⟨i, hi⟩ := List.mem_iff_getElem?.mp hz
      obtain ⟨p, hp⟩ := hreach
      have hboth := h (i :: p) [] x ((hpath hi).trans hp) rfl
      cases hboth
  · rintro ⟨⟨hsub, hdisj⟩, hself⟩ p q w hp hq
    rw [List.pairwise_iff_getElem] at hdisj
    -- Split both paths at their first step.
    have hstep : ∀ {i : Nat} {path : List Nat} {w : Id}, st.follow x (i :: path) = some w →
        ∃ z, c.children[i]? = some z ∧ st.follow z path = some w := by
      intro i path w hw
      rw [follow_cons hc, Option.bind_eq_some_iff] at hw
      exact hw
    cases p with
    | nil =>
        obtain rfl : x = w := Option.some.inj hp
        cases q with
        | nil => rfl
        | cons j q =>
            obtain ⟨z, hz, hrest⟩ := hstep hq
            exact absurd ⟨q, hrest⟩ (hself z (List.mem_of_getElem? hz))
    | cons i p =>
        obtain ⟨z, hz, hzp⟩ := hstep hp
        cases q with
        | nil =>
            obtain rfl : x = w := Option.some.inj hq
            exact absurd ⟨p, hzp⟩ (hself z (List.mem_of_getElem? hz))
        | cons j q =>
            obtain ⟨z', hz', hzq⟩ := hstep hq
            obtain ⟨hi, hzi⟩ := List.getElem?_eq_some_iff.mp hz
            obtain ⟨hj, hzj⟩ := List.getElem?_eq_some_iff.mp hz'
            rcases Nat.lt_trichotomy i j with hlt | rfl | hlt
            · exact absurd ⟨q, hzj ▸ hzq⟩ (hdisj i j hi hj hlt w ⟨p, hzi ▸ hzp⟩)
            · rw [hz] at hz'
              obtain rfl := Option.some.inj hz'
              rw [hsub z (List.mem_of_getElem? hz) p q w hzp hzq]
            · exact absurd ⟨p, hzi ▸ hzp⟩ (hdisj j i hj hi hlt w ⟨q, hzj ▸ hzq⟩)

/-- What a message that shares nothing holds shares nothing. -/
theorem Unshared.child (h : Unshared st x) (hc : st.cell? x = some c) (hz : z ∈ c.children) :
    Unshared st z :=
  ((unshared_iff hc).mp h).1.1 z hz

end Reach

/-! ## Stores that agree below a message -/

/-- The cells below `x` are the same in both stores. -/
def SameFrom (s s' : Store) (x : Id) : Prop := ∀ w, Reach s x w → s'.cell? w = s.cell? w

section SameFrom

variable {s s' s'' : Store} {x z w : Id} {c : Cell}

theorem SameFrom.refl (s : Store) (x : Id) : SameFrom s s x := fun _ _ => rfl

theorem SameFrom.cell (h : SameFrom s s' x) : s'.cell? x = s.cell? x := h x (Reach.refl s x)

theorem SameFrom.child (h : SameFrom s s' x) (hc : s.cell? x = some c) (hz : z ∈ c.children) :
    SameFrom s s' z :=
  fun w hw => h w (Reach.head hc hz hw)

theorem SameFrom.follow (path : List Nat) :
    ∀ {x : Id}, SameFrom s s' x → s'.follow x path = s.follow x path := by
  induction path with
  | nil =>
      intro x _
      rfl
  | cons i path ih =>
      intro x h
      rw [Store.follow, Store.follow, h.cell]
      cases hc : s.cell? x with
      | none => rfl
      | some c =>
          rw [Option.bind_some]
          cases hz : c.children[i]? with
          | none => rfl
          | some z => exact ih (h.child hc (List.mem_of_getElem? hz))

theorem SameFrom.reach_iff (h : SameFrom s s' x) : Reach s' x w ↔ Reach s x w := by
  constructor
  · rintro ⟨path, hpath⟩
    exact ⟨path, (h.follow path).symm.trans hpath⟩
  · rintro ⟨path, hpath⟩
    exact ⟨path, (h.follow path).trans hpath⟩

theorem SameFrom.trans (h : SameFrom s s' x) (h' : SameFrom s' s'' x) : SameFrom s s'' x :=
  fun w hw => (h' w (h.reach_iff.mpr hw)).trans (h w hw)

theorem SameFrom.unshared (h : SameFrom s s' x) (hx : Unshared s x) : Unshared s' x := by
  intro p q z hp hq
  exact hx p q z ((h.follow p).symm.trans hp) ((h.follow q).symm.trans hq)

theorem Forest.sublist {as bs : List Id} (h : Forest s bs) (hsub : as.Sublist bs) : Forest s as :=
  ⟨fun z hz => h.1 z (hsub.subset hz), h.2.sublist hsub⟩

theorem Forest.perm {as bs : List Id} (h : Forest s as) (hperm : as.Perm bs) : Forest s bs := by
  refine ⟨fun z hz => h.1 z (hperm.mem_iff.mpr hz), (hperm.pairwise_iff ?_).mp h.2⟩
  exact fun hab w hb ha => hab w ha hb

theorem forest_append {as bs : List Id} : Forest s (as ++ bs) ↔
    Forest s as ∧ Forest s bs ∧ ∀ a ∈ as, ∀ b ∈ bs, ∀ w, Reach s a w → ¬ Reach s b w := by
  rw [Forest, Forest, Forest, List.forall_mem_append, List.pairwise_append]
  tauto

theorem Forest.sameFrom {zs : List Id} (h : Forest s zs) (hsame : ∀ z ∈ zs, SameFrom s s' z) :
    Forest s' zs := by
  refine ⟨fun z hz => (hsame z hz).unshared (h.1 z hz), ?_⟩
  refine h.2.imp_of_mem fun ha hb hab w haw hbw => ?_
  exact hab w ((hsame _ ha).reach_iff.mp haw) ((hsame _ hb).reach_iff.mp hbw)

end SameFrom

/-! ## Changes below a message -/

/-- Everything below `x` is there. -/
def Complete (s : Store) (x : Id) : Prop := ∀ w, Reach s x w → w < s.size

/-- What an operation on `x` did: cells that were not below `x` are as they were, only new cells
came to be below `x`, and `x` shares nothing. -/
structure Changed (s s' : Store) (x : Id) : Prop where
  size_le : s.size ≤ s'.size
  frame : ∀ w, w < s.size → ¬ Reach s x w → s'.cell? w = s.cell? w
  below : ∀ w, Reach s' x w → Reach s x w ∨ s.size ≤ w
  unshared : Unshared s' x

section Changed

variable {s s' s'' : Store} {x y z : Id} {c c' : Cell}

theorem Changed.refl (h : Unshared s x) : Changed s s x :=
  ⟨le_rfl, fun _ _ _ => rfl, fun _ hw => .inl hw, h⟩

/-- One operation after another on the same message. -/
theorem Changed.trans (h : Changed s s' x) (h' : Changed s' s'' x) : Changed s s'' x := by
  refine ⟨h.size_le.trans h'.size_le, ?_, ?_, h'.unshared⟩
  · intro w hw hnot
    have hnot' : ¬ Reach s' x w := by
      intro hreach
      rcases h.below w hreach with hold | hnew
      · exact hnot hold
      · omega
    rw [h'.frame w (lt_of_lt_of_le hw h.size_le) hnot', h.frame w hw hnot]
  · intro w hw
    rcases h'.below w hw with hmid | hnew
    · exact h.below w hmid
    · exact .inr (h.size_le.trans hnew)

/-- The messages `new` came to be where `old` were, and nothing else changed but the cell of
`x`. -/
structure Replaced (s s' : Store) (x : Id) (old new : List Id) : Prop where
  size_le : s.size ≤ s'.size
  frame : ∀ w, w < s.size → w ≠ x → (∀ z ∈ old, ¬ Reach s z w) → s'.cell? w = s.cell? w
  below : ∀ z ∈ new, ∀ w, Reach s' z w → (∃ b ∈ old, Reach s b w) ∨ s.size ≤ w
  forest : Forest s' new

/-- **Replacing some of the messages that `x` holds leaves the others as they were.** -/
theorem Replaced.changed {before old after new : List Id} (h : Replaced s s' x old new)
    (hx : Unshared s x) (hcomplete : Complete s x) (hc : s.cell? x = some c)
    (hc' : s'.cell? x = some c') (hold : c.children = before ++ old ++ after)
    (hnew : c'.children = before ++ new ++ after) :
    Changed s s' x ∧ ∀ z ∈ before ++ after, SameFrom s s' z := by
  obtain ⟨hforest, hself⟩ := (unshared_iff hc).mp hx
  have hperm : ∀ mid : List Id, (before ++ mid ++ after).Perm (before ++ after ++ mid) := by
    intro mid
    rw [List.append_assoc, List.append_assoc]
    exact List.perm_append_comm.append_left before
  have hkids : ∀ z, z ∈ c.children ↔ z ∈ before ++ after ∨ z ∈ old := by
    intro z
    rw [hold, (hperm old).mem_iff, List.mem_append]
  obtain ⟨hothers, -, hapart⟩ := forest_append.mp (hforest.perm (hold ▸ hperm old))
  have hbound : ∀ {z w : Id}, z ∈ c.children → Reach s z w → w < s.size :=
    fun hz hw => hcomplete _ (Reach.head hc hz hw)
  -- The other messages meet neither `x` nor what was replaced.
  have hsame : ∀ z ∈ before ++ after, SameFrom s s' z := by
    intro z hz w hw
    have hmem := (hkids z).mpr (.inl hz)
    refine h.frame w (hbound hmem hw) ?_ fun b hb hbw => hapart z hz b hb w hw hbw
    rintro rfl
    exact hself z hmem hw
  have hapart' : ∀ z ∈ before ++ after, ∀ b ∈ new, ∀ w, Reach s' z w → ¬ Reach s' b w := by
    intro z hz b hb w hzw hbw
    have hzw' := (hsame z hz).reach_iff.mp hzw
    rcases h.below b hb w hbw with ⟨d, hd, hdw⟩ | hfresh
    · exact hapart z hz d hd w hzw' hdw
    · exact absurd (hbound ((hkids z).mpr (.inl hz)) hzw') (Nat.not_lt.mpr hfresh)
  have hforest' : Forest s' c'.children :=
    (forest_append.mpr ⟨hothers.sameFrom hsame, h.forest, hapart'⟩).perm (hnew ▸ (hperm new).symm)
  have hreach : ∀ z ∈ c'.children, ∀ w, Reach s' z w →
      (∃ b ∈ c.children, Reach s b w) ∨ s.size ≤ w := by
    intro z hz w hw
    rw [hnew, (hperm new).mem_iff, List.mem_append] at hz
    rcases hz with hz | hz
    · exact .inl ⟨z, (hkids z).mpr (.inl hz), (hsame z hz).reach_iff.mp hw⟩
    · rcases h.below z hz w hw with ⟨b, hb, hbw⟩ | hfresh
      · exact .inl ⟨b, (hkids b).mpr (.inr hb), hbw⟩
      · exact .inr hfresh
  refine ⟨⟨h.size_le, ?_, ?_, (unshared_iff hc').mpr ⟨hforest', ?_⟩⟩, hsame⟩
  · intro w hw hnot
    refine h.frame w hw ?_ fun b hb hbw => hnot (Reach.head hc ((hkids b).mpr (.inr hb)) hbw)
    rintro rfl
    exact hnot (Reach.refl s w)
  · intro w hw
    rcases hw.cases with rfl | ⟨d, z, hd, hz, hzw⟩
    · exact .inl (Reach.refl s w)
    · obtain rfl := Option.some.inj (hc'.symm.trans hd)
      rcases hreach z hz w hzw with ⟨b, hb, hbw⟩ | hfresh
      · exact .inl (Reach.head hc hb hbw)
      · exact .inr hfresh
  · intro z hz hzx
    rcases hreach z hz x hzx with ⟨b, hb, hbx⟩ | hfresh
    · exact hself b hb hbx
    · exact absurd (Store.lt_size hc) (Nat.not_lt.mpr hfresh)

/-- Nothing is replaced by nothing. -/
theorem Replaced.nil (s : Store) (x : Id) : Replaced s s x [] [] :=
  ⟨le_rfl, fun _ _ _ _ => rfl, fun _ hz => absurd hz List.not_mem_nil,
    fun _ hz => absurd hz List.not_mem_nil, .nil⟩

/-- A message that was changed replaces itself. -/
theorem Changed.replaced (h : Changed s s' z) : Replaced s s' x [z] [z] := by
  refine ⟨h.size_le, ?_, ?_, ?_, List.pairwise_singleton _ _⟩
  · intro w hw _ hnot
    exact h.frame w hw (hnot z (List.mem_singleton_self z))
  · intro y hy w hw
    obtain rfl := List.mem_singleton.mp hy
    exact (h.below w hw).imp_left fun hold => ⟨y, List.mem_singleton_self y, hold⟩
  · intro y hy
    obtain rfl := List.mem_singleton.mp hy
    exact h.unshared

/-- One replacement after another of the same messages. -/
theorem Replaced.trans {old mid new : List Id} (h : Replaced s s' x old mid)
    (h' : Replaced s' s'' x mid new) : Replaced s s'' x old new := by
  refine ⟨h.size_le.trans h'.size_le, ?_, ?_, h'.forest⟩
  · intro w hw hne hfree
    rw [← h.frame w hw hne hfree]
    refine h'.frame w (lt_of_lt_of_le hw h.size_le) hne fun z hz hzw => ?_
    rcases h.below z hz w hzw with ⟨b, hb, hbw⟩ | hfresh
    · exact hfree b hb hbw
    · exact absurd hw (Nat.not_lt.mpr hfresh)
  · intro z hz w hw
    rcases h'.below z hz w hw with ⟨b, hb, hbw⟩ | hfresh
    · exact h.below b hb w hbw
    · exact .inr (h.size_le.trans hfresh)

/-- **Replacements of messages that have nothing in common do not disturb each other.** -/
theorem Replaced.append {old₁ old₂ new₁ new₂ : List Id} (h₁ : Replaced s s' x old₁ new₁)
    (h₂ : Replaced s' s'' x old₂ new₂) (hapart : ∀ a ∈ old₁, ∀ b ∈ old₂, ∀ w, Reach s a w →
      ¬ Reach s b w) (hcomplete : ∀ b ∈ old₂, Complete s b ∧ ¬ Reach s b x)
    (hcomplete' : ∀ a ∈ new₁, Complete s' a ∧ ¬ Reach s' a x) :
    Replaced s s'' x (old₁ ++ old₂) (new₁ ++ new₂) ∧ (∀ a ∈ new₁, SameFrom s' s'' a) ∧
      ∀ b ∈ old₂, SameFrom s s' b := by
  have hbefore : ∀ b ∈ old₂, SameFrom s s' b := by
    intro b hb w hw
    refine h₁.frame w ((hcomplete b hb).1 w hw) ?_ fun a ha haw => hapart a ha b hb w haw hw
    rintro rfl
    exact (hcomplete b hb).2 hw
  have hnot : ∀ a ∈ new₁, ∀ b ∈ old₂, ∀ w, Reach s' a w → ¬ Reach s' b w := by
    intro a ha b hb w haw hbw
    have hbw' := (hbefore b hb).reach_iff.mp hbw
    rcases h₁.below a ha w haw with ⟨d, hd, hdw⟩ | hfresh
    · exact hapart d hd b hb w hdw hbw'
    · exact absurd ((hcomplete b hb).1 w hbw') (Nat.not_lt.mpr hfresh)
  have hafter : ∀ a ∈ new₁, SameFrom s' s'' a := by
    intro a ha w hw
    refine h₂.frame w ((hcomplete' a ha).1 w hw) ?_ fun b hb hbw => hnot a ha b hb w hw hbw
    rintro rfl
    exact (hcomplete' a ha).2 hw
  refine ⟨⟨h₁.size_le.trans h₂.size_le, ?_, ?_, ?_⟩, hafter, hbefore⟩
  · intro w hw hne hfree
    have hfirst := h₁.frame w hw hne fun a ha => hfree a (List.mem_append_left _ ha)
    rw [← hfirst]
    refine h₂.frame w (lt_of_lt_of_le hw h₁.size_le) hne fun b hb hbw => ?_
    exact hfree b (List.mem_append_right _ hb) ((hbefore b hb).reach_iff.mp hbw)
  · intro z hz w hw
    rcases List.mem_append.mp hz with hz | hz
    · rcases h₁.below z hz w ((hafter z hz).reach_iff.mp hw) with ⟨a, ha, haw⟩ | hfresh
      · exact .inl ⟨a, List.mem_append_left _ ha, haw⟩
      · exact .inr hfresh
    · rcases h₂.below z hz w hw with ⟨b, hb, hbw⟩ | hfresh
      · exact .inl ⟨b, List.mem_append_right _ hb, (hbefore b hb).reach_iff.mp hbw⟩
      · exact .inr (h₁.size_le.trans hfresh)
  · refine forest_append.mpr ⟨h₁.forest.sameFrom hafter, h₂.forest, ?_⟩
    intro a ha b hb w haw hbw
    have haw' := (hafter a ha).reach_iff.mp haw
    rcases h₂.below b hb w hbw with ⟨d, hd, hdw⟩ | hfresh
    · exact hnot a ha d hd w haw' hdw
    · exact absurd ((hcomplete' a ha).1 w haw') (Nat.not_lt.mpr hfresh)

end Changed

/-! ## The messages in one field -/

namespace Cell

variable {c : Cell} {field : String} {v : Value}

/-- The messages in one field among those that a message holds. -/
theorem children_put (hv : c.value? field = some v) :
    ∃ before after, c.children = before ++ v.ids ++ after ∧
      (∀ v', (c.put field v').children = before ++ v'.ids ++ after) ∧
      (∀ q, c.parent? = some q → q ∈ before) ∧
      ∀ g w, g ≠ field → c.value? g = some w → w.ids ⊆ before ++ after := by
  obtain ⟨l₁, l₂, hsplit, hfresh⟩ := List.lookup_eq_some_iff.mp hv
  have hput : ∀ v', putField field v' c.fields = l₁ ++ (field, v') :: l₂ := by
    intro v'
    rw [hsplit]
    clear hsplit hv
    induction l₁ with
    | nil => simp [putField]
    | cons e rest ih =>
        obtain ⟨n, w⟩ := e
        have hne : n ≠ field := by
          rintro rfl
          simpa using hfresh (n, w) List.mem_cons_self
        rw [List.cons_append, putField, if_neg hne, List.cons_append,
          ih fun p hp => hfresh p (List.mem_cons_of_mem _ hp)]
  refine ⟨c.parent?.toList ++ l₁.flatMap (·.2.ids), l₂.flatMap (·.2.ids), ?_, ?_, ?_, ?_⟩
  · simp [children, hsplit, List.append_assoc]
  · intro v'
    simp [children, put, hput v', List.append_assoc]
  · intro q hq
    simp [hq]
  · intro g w hne hw id hid
    obtain ⟨k₁, k₂, hsplit', -⟩ := List.lookup_eq_some_iff.mp hw
    have hmem : (g, w) ∈ l₁ ++ (field, v) :: l₂ := by
      rw [← hsplit, hsplit']
      exact List.mem_append_right _ List.mem_cons_self
    rcases List.mem_append.mp hmem with hmem | hmem
    · exact List.mem_append_left _ (List.mem_append_right _
        (List.mem_flatMap.mpr ⟨(g, w), hmem, hid⟩))
    · rcases List.mem_cons.mp hmem with heq | hmem
      · exact absurd (Prod.mk.inj heq).1 hne
      · exact List.mem_append_right _ (List.mem_flatMap.mpr ⟨(g, w), hmem, hid⟩)

theorem ids_sublist_children (hv : c.value? field = some v) : v.ids.Sublist c.children := by
  obtain ⟨before, after, hsplit, -⟩ := children_put hv
  rw [hsplit]
  exact (List.sublist_append_right _ _).trans (List.sublist_append_left _ _)

theorem ids_subset_children (hv : c.value? field = some v) : v.ids ⊆ c.children :=
  (ids_sublist_children hv).subset

theorem parent_mem_children {q : Id} (hq : c.parent? = some q) : q ∈ c.children := by
  simp [children, hq]

end Cell

/-! ## The length of paths -/

/-- Paths from `x` have fewer than `n` steps. -/
def Shallow (st : Store) (n : Nat) (x : Id) : Prop :=
  ∀ path z, st.follow x path = some z → path.length < n

theorem Shallow.child {st : Store} {n : Nat} {x z : Id} {c : Cell} (h : Shallow st (n + 1) x)
    (hc : st.cell? x = some c) (hz : z ∈ c.children) : Shallow st n z := by
  intro path w hw
  obtain ⟨i, hi⟩ := List.mem_iff_getElem?.mp hz
  have hlen := h (i :: path) w (by rw [follow_cons hc, hi, Option.bind_some, hw])
  simpa using hlen

/-- **Paths from an acyclic message are shorter than the store is large.**  They never come back to
a message, so there are at least as many messages as steps. -/
theorem Acyclic.shallow {st : Store} {x : Id} (h : Acyclic st x) (hcomplete : Complete st x) :
    Shallow st st.size x := by
  intro path z hpath
  have hprefix : ∀ k, ∃ y, st.follow x (path.take k) = some y ∧
      st.follow y (path.drop k) = some z := by
    intro k
    cases hy : st.follow x (path.take k) with
    | none =>
        have hboth := follow_append_none (path.take k) (path.drop k) hy
        rw [List.take_append_drop, hpath] at hboth
        cases hboth
    | some y =>
        refine ⟨y, rfl, ?_⟩
        rw [← follow_append _ (path.drop k) hy, List.take_append_drop, hpath]
  choose node hnode hrest using hprefix
  have hlt : ∀ k, node k < st.size := fun k => hcomplete _ ⟨_, hnode k⟩
  have hinj : ∀ k l, k < l → l ≤ path.length → node k ≠ node l := by
    intro k l hkl hl heq
    have hloop : st.follow (node k) ((path.take l).drop k) = some (node k) := by
      have hsplit : path.take l = path.take k ++ (path.take l).drop k := by
        conv_lhs => rw [← List.take_append_drop k (path.take l)]
        rw [List.take_take, min_eq_left hkl.le]
      have hl' := hnode l
      rw [hsplit, follow_append _ _ (hnode k)] at hl'
      rw [heq] at hl' ⊢
      exact hl'
    have hnil := h _ _ _ (hnode k) hloop
    have hlen : ((path.take l).drop k).length = l - k := by simp; omega
    rw [hnil] at hlen
    simp only [List.length_nil] at hlen
    omega
  have hcard : (Finset.range (path.length + 1)).card ≤ (Finset.range st.size).card := by
    refine Finset.card_le_card_of_injOn node ?_ ?_
    · intro k _
      simpa using hlt k
    · intro k hk l hl heq
      simp only [Finset.coe_range, Set.mem_Iio] at hk hl
      by_contra hne
      rcases Nat.lt_or_gt_of_ne hne with hkl | hkl
      · exact hinj k l hkl (by omega) heq
      · exact hinj l k hkl (by omega) heq.symm
  simpa using hcard

end WireSchema.Message
