import Mathlib
import WireSchema.Proofs.Codec.Same

/-!
# Equality is structural

Comparing two messages goes through the comparisons of their plan, which were derived apart from the
fields and from the steps that write them.  They are those of the stored fields, counts left out, so
comparing decides whether two messages hold the same, as long as equal numbers are the same numbers:
a zero equals the other zero, and a NaN does not equal itself.

## Main results

* `Scalar.sameNumber_iff` — other numbers are equal only to themselves.
* `agree_decides` — comparing a field decides whether it agrees.
* `equalDepth_decides` — comparing messages decides whether they hold the same.
* `equal_structural` — equality is an equivalence, and equal messages have the same bytes and size.
-/

namespace WireSchema

/-- A number that is equal to itself and to no other: neither a NaN nor a zero of floating point. -/
def Scalar.isDefinite (s : Scalar) : Bool :=
  match s.kind.format? with
  | some f => !f.isNaN s.pattern && !f.isZero s.pattern
  | none => true

theorem Scalar.eq_of_pattern {a b : Scalar} (hkind : a.kind = b.kind)
    (hpattern : a.pattern = b.pattern) : a = b := by
  obtain ⟨k, x⟩ := a
  obtain ⟨l, y⟩ := b
  obtain rfl : k = l := hkind
  have hbits : x = y := BitVec.eq_of_toNat_eq hpattern
  rw [hbits]

/-- Definite numbers are equal only to themselves. -/
theorem Scalar.sameNumber_iff {a b : Scalar} (ha : a.isDefinite = true) :
    a.sameNumber b = true ↔ a = b := by
  unfold sameNumber
  unfold isDefinite at ha
  cases hformat : a.kind.format? with
  | none => exact beq_iff_eq
  | some f =>
      rw [hformat] at ha
      obtain ⟨hnan, hzero⟩ : f.isNaN a.pattern = false ∧ f.isZero a.pattern = false := by
        simpa using ha
      simp only [Number.Format.sameNumber, hnan, hzero, Bool.not_false, Bool.true_and,
        Bool.false_and, Bool.or_false, Bool.and_eq_true, beq_iff_eq]
      constructor
      · rintro ⟨hkind, -, hpattern⟩
        exact eq_of_pattern hkind hpattern
      · rintro rfl
        exact ⟨rfl, by rw [hnan]; rfl, rfl⟩

/-- Every plan of a runtime compares its stored fields. -/
def Message.Runtime.Compares (rt : Message.Runtime) : Prop :=
  ∀ (i : Nat) (p : Plan), rt.plans[i]? = some p → p.comparisons =
    (p.fields.filter (·.stored)).map fun f => ⟨f.name, f.elem, f.compareRule⟩

namespace Message

open Plan (Field Comparison)

theorem Runtime.ofSet_compares {sized : Bool} {m : Model} {S : PlanSet} (hm : Resolve.Bound m)
    (h : PlanSet.derive sized m = .ok S) : (Runtime.ofSet S).Compares := by
  intro i p hp
  rw [Runtime.getElem?_plans_ofSet] at hp
  obtain ⟨j, c, hmember⟩ := PlanSet.exists_member h hp
  exact hmember.comparisons hm

/-- An item that is a message or a definite number. -/
def Item.isDefinite : Item → Bool
  | .scalar s => s.isDefinite
  | .message _ => true

/-- The numbers that a message stores are definite. -/
def Cell.Definite (c : Cell) : Prop :=
  ∀ f v, c.value? f = some v → ∀ i ∈ v.items, i.isDefinite = true

/-- The numbers that a message stores, at any depth, are definite. -/
def Definite (st : Store) (x : Id) : Prop :=
  ∀ z c, Reach st x z → st.cell? z = some c → c.Definite

theorem Definite.child {st : Store} {x z : Id} {c : Cell} (h : Definite st x)
    (hc : st.cell? x = some c) (hz : z ∈ c.children) : Definite st z :=
  fun y d hy hd => h y d (Reach.head hc hz hy) hd

/-! ## Decisions -/

/-- A comparison comes to an end and decides a statement. -/
def Decides (r : Except Failure Bool) (P : Prop) : Prop := ∃ b, r = .ok b ∧ (b = true ↔ P)

namespace Decides

variable {r s : Except Failure Bool} {P Q : Prop}

theorem congr (h : Decides r P) (hPQ : P ↔ Q) : Decides r Q := by
  obtain ⟨b, hb, hiff⟩ := h
  exact ⟨b, hb, hiff.trans hPQ⟩

theorem of_not (h : ¬ P) : Decides (.ok false) P := ⟨false, rfl, by simpa using h⟩

/-- The second comparison is made only if the first one holds. -/
theorem and (hr : Decides r P) (hs : Decides s Q) :
    Decides (do if ← r then s else return false) (P ∧ Q) := by
  obtain ⟨b, rfl, hP⟩ := hr
  cases b with
  | false => exact of_not fun h => Bool.false_ne_true (hP.mpr h.1)
  | true => exact hs.congr (iff_and_self.mpr fun _ => hP.mp rfl)

/-- What holds is what is answered. -/
theorem eq_true_iff (h : Decides r P) : r = .ok true ↔ P := by
  obtain ⟨b, rfl, hiff⟩ := h
  rw [← hiff]
  exact ⟨Except.ok.inj, congrArg Except.ok⟩

end Decides

section Comparing

variable {rt : Runtime} {st : Store} {same : Id → Id → Except Failure Bool} {R : Id → Id → Prop}
  {p : Plan} {c d : Cell}

theorem fieldAgrees_iff {f : String} {v w : Value} (hv : c.value? f = some v)
    (hw : d.value? f = some w) : FieldAgrees R c d f ↔ ValueAgrees R v w := by
  constructor
  · rintro ⟨v', w', hv', hw', hvw⟩
    obtain rfl := Option.some.inj (hv.symm.trans hv')
    obtain rfl := Option.some.inj (hw.symm.trans hw')
    exact hvw
  · exact fun hvw => ⟨v, w, hv, hw, hvw⟩

/-- Comparing two items of one type decides whether they agree. -/
theorem sameItem_decides {e : Element} {i j : Item}
    (hsame : ∀ x ∈ i.ids, ∀ y ∈ j.ids, Decides (same x y) (R x y)) (hdefinite : i.isDefinite = true)
    (hi : ItemTyped rt st e i) (hj : ItemTyped rt st e j) :
    Decides (sameItem same e i j) (ItemAgrees R i j) := by
  cases e with
  | primitive t =>
      obtain ⟨a, rfl, -⟩ := hi.exists_scalar
      obtain ⟨b, rfl, -⟩ := hj.exists_scalar
      exact ⟨a.sameNumber b, rfl, Scalar.sameNumber_iff hdefinite⟩
  | message type =>
      obtain ⟨x, rfl, -⟩ := hi.exists_message
      obtain ⟨y, rfl, -⟩ := hj.exists_message
      exact hsame x (List.mem_singleton_self x) y (List.mem_singleton_self y)

/-- Comparing two lists of items of one type decides whether they agree item by item. -/
theorem sameItems_decides {e : Element} (is : List Item) : ∀ js : List Item,
    (∀ i ∈ is, ∀ j ∈ js, Decides (sameItem same e i j) (ItemAgrees R i j)) →
      Decides (sameItems same e is js) (List.Forall₂ (ItemAgrees R) is js) := by
  induction is with
  | nil =>
      intro js _
      cases js with
      | nil => exact ⟨true, rfl, fun _ => .nil, fun _ => rfl⟩
      | cons j js => exact .of_not fun h => by cases h
  | cons i is ih =>
      intro js h
      cases js with
      | nil => exact .of_not fun h => by cases h
      | cons j js =>
          rw [List.forall₂_cons]
          exact (h i List.mem_cons_self j List.mem_cons_self).and
            (ih js fun a ha b hb => h a (List.mem_cons_of_mem _ ha) b (List.mem_cons_of_mem _ hb))

/-- The messages in the lists of two fields are compared. -/
theorem listField_decides {f : Field} (hc : c.Definite)
    (hsame : ∀ x ∈ c.children, ∀ y ∈ d.children, Decides (same x y) (R x y))
    {is js : List Item} (hv : c.value? f.name = some (.list is))
    (hw : d.value? f.name = some (.list js)) (his : ∀ i ∈ is, ItemTyped rt st f.elem i)
    (hjs : ∀ j ∈ js, ItemTyped rt st f.elem j) :
    Decides (if (c.list f.name).length ≠ (d.list f.name).length then .ok false
      else sameItems same f.elem (c.list f.name) (d.list f.name)) (FieldAgrees R c d f.name) := by
  refine Decides.congr ?_ (fieldAgrees_iff hv hw).symm
  rw [list_of_value? hv, list_of_value? hw]
  split
  · rename_i hlength
    exact .of_not fun h => hlength (List.Forall₂.length_eq h)
  · refine sameItems_decides is js fun i hi j hj => ?_
    refine sameItem_decides (fun x hx y hy => hsame x ?_ y ?_) (hc _ _ hv i hi) (his i hi)
      (hjs j hj)
    · exact Cell.ids_subset_children hv (List.mem_flatMap.mpr ⟨i, hi, hx⟩)
    · exact Cell.ids_subset_children hw (List.mem_flatMap.mpr ⟨j, hj, hy⟩)

/-- **Comparing a stored field decides whether it agrees.** -/
theorem agree_decides (hp : p.Sound) (hct : CellTyped rt st p c) (hdt : CellTyped rt st p d)
    (hc : c.Definite) (hsame : ∀ x ∈ c.children, ∀ y ∈ d.children, Decides (same x y) (R x y))
    {f : Field} (hf : f ∈ p.fields) (hstored : f.stored = true) :
    Decides (agree same c d ⟨f.name, f.elem, f.compareRule⟩) (FieldAgrees R c d f.name) := by
  obtain ⟨v, hv, hvt⟩ := hct.stored f hf hstored
  obtain ⟨w, hw, hwt⟩ := hdt.stored f hf hstored
  cases hp.field f hf with
  | number t hshape helem =>
      obtain ⟨a, rfl, -⟩ := hvt.number hshape helem
      obtain ⟨b, rfl, -⟩ := hwt.number hshape helem
      have ha : a.isDefinite = true := hc _ _ hv _ (List.mem_singleton_self _)
      refine Decides.congr ⟨a.sameNumber b, ?_, Scalar.sameNumber_iff ha⟩
        (fieldAgrees_iff hv hw).symm
      simp only [agree, Field.compareRule, hshape, hv, hw]
  | count t l _ _ hunstored =>
      rw [hunstored] at hstored
      cases hstored
  | reference type hshape helem =>
      obtain ⟨x, rfl, -⟩ := hvt.message hshape helem
      obtain ⟨y, rfl, -⟩ := hwt.message hshape helem
      have hx : c.message f.name = .ok x := by simp [Cell.message, hv]
      have hy : d.message f.name = .ok y := by simp [Cell.message, hw]
      have hxc := Cell.ids_subset_children hv (List.mem_singleton_self x)
      have hyc := Cell.ids_subset_children hw (List.mem_singleton_self y)
      refine Decides.congr ?_ (fieldAgrees_iff hv hw).symm
      simp only [agree, Field.compareRule, hshape, hx, hy]
      exact hsame x hxc y hyc
  | fixedList n hshape =>
      obtain ⟨is, rfl, -, -, his⟩ := hvt.fixedList hshape
      obtain ⟨js, rfl, -, -, hjs⟩ := hwt.fixedList hshape
      simp only [agree, Field.compareRule, hshape]
      exact listField_decides hc hsame hv hw his hjs
  | variableList k hshape =>
      obtain ⟨is, rfl, his⟩ := hvt.variableList hshape
      obtain ⟨js, rfl, hjs⟩ := hwt.variableList hshape
      simp only [agree, Field.compareRule, hshape]
      exact listField_decides hc hsame hv hw his hjs

theorem agreeAll_decides {P : Comparison → Prop} (cs : List Comparison)
    (h : ∀ k ∈ cs, Decides (agree same c d k) (P k)) :
    Decides (agreeAll same c d cs) (∀ k ∈ cs, P k) := by
  induction cs with
  | nil => exact ⟨true, rfl, fun _ k hk => absurd hk List.not_mem_nil, fun _ => rfl⟩
  | cons k cs ih =>
      rw [List.forall_mem_cons]
      exact (h k List.mem_cons_self).and (ih fun k hk => h k (List.mem_cons_of_mem _ hk))

/-- The comparisons of a plan decide whether all stored fields agree. -/
theorem fields_decides (hrt : rt.Sound) (hcompares : rt.Compares) (hct : CellTyped rt st p c)
    (hdt : CellTyped rt st p d) (hc : c.Definite)
    (hsame : ∀ x ∈ c.children, ∀ y ∈ d.children, Decides (same x y) (R x y)) :
    Decides (agreeAll same c d p.comparisons)
      (∀ f ∈ p.fields, f.stored = true → FieldAgrees R c d f.name) := by
  have hmem : ∀ k, k ∈ p.comparisons ↔
      ∃ f ∈ p.fields, f.stored = true ∧ k = ⟨f.name, f.elem, f.compareRule⟩ := by
    intro k
    simp only [hcompares c.plan p hct.plan, List.mem_map, List.mem_filter, and_assoc, eq_comm]
  refine (agreeAll_decides (P := fun k => FieldAgrees R c d k.field) p.comparisons ?_).congr ?_
  · intro k hk
    obtain ⟨f, hf, hstored, rfl⟩ := (hmem k).mp hk
    exact agree_decides (hrt.plan hct.plan) hct hdt hc hsame hf hstored
  · constructor
    · intro h f hf hstored
      exact h _ ((hmem _).mpr ⟨f, hf, hstored, rfl⟩)
    · intro h k hk
      obtain ⟨f, hf, hstored, rfl⟩ := (hmem k).mp hk
      exact h f hf hstored

/-- Two messages of one plan both have a parent part, or neither does. -/
theorem parent_parts (hrt : rt.Sound) (hct : CellTyped rt st p c) (hdt : CellTyped rt st p d) :
    (p.hasParent = false ∧ c.parent? = none ∧ d.parent? = none) ∨
      ∃ x y, p.hasParent = true ∧ c.parent? = some x ∧ d.parent? = some y := by
  have hcq := hct.hasParent hrt
  have hdq := hdt.hasParent hrt
  cases hhas : p.hasParent with
  | false =>
      rw [hhas] at hcq hdq
      exact .inl ⟨rfl, Option.isNone_iff_eq_none.mp (Option.isSome_eq_false_iff.mp hcq.symm),
        Option.isNone_iff_eq_none.mp (Option.isSome_eq_false_iff.mp hdq.symm)⟩
  | true =>
      rw [hhas] at hcq hdq
      obtain ⟨x, hx⟩ := Option.isSome_iff_exists.mp hcq.symm
      obtain ⟨y, hy⟩ := Option.isSome_iff_exists.mp hdq.symm
      exact .inr ⟨x, y, rfl, hx, hy⟩

/-- Comparing two messages decides whether they are of one plan and agree on their parts. -/
theorem equalWith_decides (hrt : rt.Sound) (hcompares : rt.Compares) {q : Plan} {x y : Id}
    (hxc : st.cell? x = some c) (hyd : st.cell? y = some d) (hct : CellTyped rt st p c)
    (hdt : CellTyped rt st q d) (hc : c.Definite)
    (hsame : ∀ x ∈ c.children, ∀ y ∈ d.children, Decides (same x y) (R x y)) :
    Decides (equalWith rt st same x y) (d.plan = c.plan ∧ SameParts R p c d) := by
  have hof : rt.planOf? st x = some p := planOf?_eq.mpr ⟨c, hxc, hct.plan⟩
  simp only [equalWith, Runtime.planOf, hof, Store.cell, hxc, hyd, bind, Except.bind]
  by_cases hplan : c.plan = d.plan
  · rw [if_neg (not_not_intro hplan)]
    have hqp : p = q := by
      have hp := hct.plan
      rw [hplan, hdt.plan] at hp
      exact (Option.some.inj hp).symm
    subst hqp
    have hfields := fields_decides hrt hcompares hct hdt hc hsame
    rcases parent_parts hrt hct hdt with ⟨hhas, hcq, hdq⟩ | ⟨z, w, hhas, hcq, hdq⟩
    · have hparent : ParentAgrees R c.parent? d.parent? := by
        rw [hcq, hdq]
        trivial
      simp only [hhas, Bool.false_eq_true, if_false, if_true]
      exact hfields.congr ⟨fun h => ⟨hplan.symm, hparent, h⟩, fun h => h.2.stored⟩
    · have hzw := hsame z (Cell.parent_mem_children hcq) w (Cell.parent_mem_children hdq)
      simp only [hhas, if_true, hcq, hdq]
      refine (hzw.and hfields).congr ⟨fun h => ⟨hplan.symm, ?_, h.2⟩, fun h => ⟨?_, h.2.stored⟩⟩
      · rw [hcq, hdq]
        exact h.1
      · have hparent := h.2.parent
        rw [hcq, hdq] at hparent
        exact hparent
  · rw [if_pos hplan]
    exact .of_not fun h => hplan h.1.symm

/-- **Comparing messages decides whether they hold the same**, down to any depth that the first one
does not reach. -/
theorem equalDepth_decides (hrt : rt.Sound) (hcompares : rt.Compares) (n : Nat) :
    ∀ (k : Nat) (x y : Id), n ≤ k → WellTyped rt st x → WellTyped rt st y → Definite st x →
      Shallow st n x → Decides (equalDepth rt st n x y) (SameTo rt st k x y) := by
  induction n with
  | zero =>
      intro k x y _ _ _ _ hshallow
      exact absurd (hshallow [] x rfl) (Nat.not_lt_zero _)
  | succ n ih =>
      intro k x y hnk hx hy hdefinite hshallow
      obtain ⟨k, rfl⟩ : ∃ j, k = j + 1 := ⟨k - 1, by omega⟩
      obtain ⟨p, c, hc, hct⟩ := hx.cell
      obtain ⟨q, d, hd, hdt⟩ := hy.cell
      have hchild : ∀ z ∈ c.children, ∀ w ∈ d.children,
          Decides (equalDepth rt st n z w) (SameTo rt st k z w) := fun z hz w hw =>
        ih k z w (Nat.le_of_succ_le_succ hnk) (hx.child hc hz) (hy.child hd hw)
          (hdefinite.child hc hz) (hshallow.child hc hz)
      refine (equalWith_decides hrt hcompares hc hd hct hdt
        (hdefinite x c (Reach.refl st x) hc) hchild).congr ?_
      constructor
      · rintro ⟨hplan, hparts⟩
        exact ⟨p, c, d, hct.plan, hc, hd, hplan, hparts⟩
      · rintro ⟨p', c', d', hp', hc', hd', hplan, hparts⟩
        obtain rfl := Option.some.inj (hc.symm.trans hc')
        obtain rfl := Option.some.inj (hd.symm.trans hd')
        obtain rfl := Option.some.inj (hct.plan.symm.trans hp')
        exact ⟨hplan, hparts⟩

end Comparing

/-! ## Equality of messages -/

/-- A well-typed message that does not contain itself and in which no number of floating point is a
zero or a NaN. -/
structure Plain (rt : Runtime) (st : Store) (x : Id) : Prop where
  typed : WellTyped rt st x
  acyclic : Acyclic st x
  definite : Definite st x

/-- Comparing two plain messages decides whether they hold the same. -/
theorem equal_decides {rt : Runtime} {st : Store} (hrt : rt.Sound) (hcompares : rt.Compares)
    {x y : Id} (hx : Plain rt st x) (hy : WellTyped rt st y) :
    Decides (equal rt st x y) (Same rt st x y) := by
  have hshallow : Shallow st (st.size + 1) x := fun path z h =>
    Nat.lt_succ_of_lt (hx.acyclic.shallow hx.typed.complete path z h)
  have hdecides : ∀ k, st.size + 1 ≤ k → Decides (equal rt st x y) (SameTo rt st k x y) :=
    fun k hk => equalDepth_decides hrt hcompares _ k x y hk hx.typed hy hx.definite hshallow
  refine (hdecides _ le_rfl).congr ⟨fun h k => ?_, fun h => h _⟩
  -- The comparison has one answer, which is right for all depths from some on.
  have htrue := (hdecides _ le_rfl).eq_true_iff.mpr h
  exact ((hdecides _ (le_max_left _ k)).eq_true_iff.mp htrue).of_le (le_max_right _ k)

/-- **Equality is structural.**  Two messages in which no number of floating point is a zero or a
NaN are equal if and only if they hold the same; so equality is an equivalence on such messages,
and equal ones are written as the same bytes or fail to be for the same reason, and have the same
size. -/
theorem equal_structural {catalog : Catalog} {limit : Int} {raw : Model} {sized : Bool}
    {S : PlanSet}
    (hresolve : (Resolve.run catalog limit raw).succeeded = true)
    (hderive : PlanSet.derive sized (Resolve.run catalog limit raw).model = .ok S) (st : Store) :
    (∀ x y, Plain (.ofSet S) st x → Plain (.ofSet S) st y →
      ∃ b, equal (.ofSet S) st x y = .ok b ∧ (b = true ↔ Same (.ofSet S) st x y)) ∧
    (Equivalence fun x y : { x : Id // Plain (.ofSet S) st x } =>
      equal (.ofSet S) st x y = .ok true) ∧
    ∀ x y, Plain (.ofSet S) st x → Plain (.ofSet S) st y → equal (.ofSet S) st x y = .ok true →
      marshal (.ofSet S) st x = marshal (.ofSet S) st y ∧
        size (.ofSet S) st x = size (.ofSet S) st y := by
  have hm := Resolve.run_bound hresolve
  have hrt := Runtime.ofSet_sound hm hderive
  have hsized := Runtime.ofSet_sizedByFields hm hderive
  have hdecides : ∀ x y, Plain (.ofSet S) st x → Plain (.ofSet S) st y →
      Decides (equal (.ofSet S) st x y) (Same (.ofSet S) st x y) :=
    fun x y hx hy => equal_decides hrt (Runtime.ofSet_compares hm hderive) hx hy.typed
  refine ⟨hdecides, ⟨?_, ?_, ?_⟩, fun x y hx hy h => ?_⟩
  · rintro ⟨x, hx⟩
    exact (hdecides x x hx hx).eq_true_iff.mpr fun n => SameTo.refl n hx.typed
  · rintro ⟨x, hx⟩ ⟨y, hy⟩ h
    have hsame := (hdecides x y hx hy).eq_true_iff.mp h
    exact (hdecides y x hy hx).eq_true_iff.mpr fun n => (hsame n).symm
  · rintro ⟨x, hx⟩ ⟨y, hy⟩ ⟨z, hz⟩ hxy hyz
    have hsame := (hdecides x y hx hy).eq_true_iff.mp hxy
    have hsame' := (hdecides y z hy hz).eq_true_iff.mp hyz
    exact (hdecides x z hx hz).eq_true_iff.mpr fun n => (hsame n).trans n (hsame' n)
  · have hsame := (hdecides x y hx hy).eq_true_iff.mp h
    exact ⟨hsame.marshal_eq hrt, hsame.size_eq hrt hsized⟩

namespace Sample

/-- Node 7 with two nodes in it, both with the number 9. -/
def twinBytes : List UInt8 := [0, 7, 2, 0, 9, 0, 0, 9, 0]

/-- The store after the bytes were decoded into the new node: the two nodes have the numbers 3
and 5. -/
def twins : Store := (unmarshal runtime start 1 twinBytes).2

theorem twins_computed :
    (decode runtime 1 ⟨start, .ofBytes twinBytes⟩).1.toOption = some () ∧
      (decode runtime 1 ⟨start, .ofBytes twinBytes⟩).2.reader = ⟨9, [], none⟩ ∧
      (∃ c, twins.cell? 1 = some c ∧ 3 ∈ c.children ∧ 5 ∈ c.children) ∧
      (∀ c ∈ twins.cells.toList, ∀ e ∈ c.fields, ∀ i ∈ e.2.items, i.isDefinite = true) ∧
      (equal runtime twins 3 5).toOption = some true ∧
      (equal runtime twins 1 5).toOption = some false := by
  decide +kernel

theorem twins_plain : Plain runtime twins 1 ∧ Plain runtime twins 3 ∧ Plain runtime twins 5 := by
  obtain ⟨hok, hreader, ⟨c, hc, hthree, hfive⟩, hdefinite, -⟩ := twins_computed
  have hdecode : decode runtime 1 ⟨start, .ofBytes twinBytes⟩ = (.ok (), ⟨twins, ⟨9, [], none⟩⟩) :=
    Prod.ext (ok_of_toOption hok) (congrArg (Input.mk twins) hreader)
  have hfresh := decode_fresh sound makes hdecode
  have hnumbers : ∀ x, Definite twins x := fun x z d _ hd f v hv =>
    hdefinite d (Array.mem_toList_iff.mpr (Array.mem_of_getElem? hd)) _ (mem_of_value? hv)
  have hchild : ∀ z ∈ c.children, Plain runtime twins z := fun z hz =>
    ⟨hfresh.typed.child hc hz, hfresh.unshared.acyclic.child hc hz, hnumbers z⟩
  exact ⟨⟨hfresh.typed, hfresh.unshared.acyclic, hnumbers 1⟩, hchild 3 hthree, hchild 5 hfive⟩

end Sample

/-- The two nodes are equal, hold the same and are written alike; the node around them holds
something else than they do. -/
theorem equal_structural_twins :
    equal Sample.runtime Sample.twins 3 5 = .ok true ∧ Same Sample.runtime Sample.twins 3 5 ∧
      equal Sample.runtime Sample.twins 5 3 = .ok true ∧ ¬ Same Sample.runtime Sample.twins 1 5 ∧
      marshal Sample.runtime Sample.twins 3 = marshal Sample.runtime Sample.twins 5 ∧
      size Sample.runtime Sample.twins 3 = size Sample.runtime Sample.twins 5 := by
  obtain ⟨-, -, -, -, htrue, hfalse⟩ := Sample.twins_computed
  obtain ⟨hone, hthree, hfive⟩ := Sample.twins_plain
  have hequal : equal Sample.runtime Sample.twins 3 5 = .ok true := ok_of_toOption htrue
  have hunequal : equal Sample.runtime Sample.twins 1 5 = .ok false := ok_of_toOption hfalse
  obtain ⟨hdecides, hequivalence, hcongr⟩ :=
    equal_structural Sample.resolves Sample.derives Sample.twins
  refine ⟨hequal, ?_, ?_, ?_, hcongr 3 5 hthree hfive hequal⟩
  · obtain ⟨b, hb, hiff⟩ := hdecides 3 5 hthree hfive
    exact hiff.mp (Except.ok.inj (hb.symm.trans hequal))
  · exact hequivalence.symm (x := ⟨3, hthree⟩) (y := ⟨5, hfive⟩) hequal
  · obtain ⟨b, hb, hiff⟩ := hdecides 1 5 hone hfive
    intro hsame
    have hbool : false = true :=
      Except.ok.inj (hunequal.symm.trans (hb.trans (congrArg _ (hiff.mpr hsame))))
    cases hbool

end Message

end WireSchema
