import Mathlib
import WireSchema.Message.Compare
import WireSchema.Proofs.Codec.RoundTrip
import WireSchema.Proofs.Plan.Pairing
import WireSchema.Proofs.Plan.Types

/-!
# Messages that hold the same

Two messages of a store hold the same if they follow the same plan and agree on every stored field,
on the wire or not, in every parent part and at every depth.  `SameTo` says so down to a depth.  It
is what comparing two messages is about; here are its laws, and what does not tell such messages
apart: what is written for a message and its size are made from what it stores.

## Main results

* `SameTo.refl`, `SameTo.symm`, `SameTo.trans` — holding the same is an equivalence.
* `encodeDepth_congr`, `sizeDepth_congr` — messages that hold the same down to a depth are written
  and measured alike down to it.
* `Same.marshal_eq`, `Same.size_eq` — so they have the same bytes or the same failure, and one size.
-/

namespace WireSchema

/-- The stored fields that a write looks at. -/
def Plan.EncodeStep.looksAt : Plan.EncodeStep → List String
  | .parent _ => []
  | .primitive f _ | .reference f _ | .fixedList f _ _ | .variableList f _ => [f]
  | .count _ list _ => [list]

/-- A size that a plan has is the one its fields make up. -/
def Message.Runtime.SizedByFields (rt : Message.Runtime) : Prop :=
  ∀ (i : Nat) (p : Plan), rt.plans[i]? = some p → ∀ s, p.size? = some s → s = p.fieldSizes

namespace Message

open Plan (Field EncodeStep DecodeStep SizeTerm)

theorem Runtime.ofSet_sizedByFields {sized : Bool} {m : Model} {S : PlanSet}
    (hm : Resolve.Bound m) (h : PlanSet.derive sized m = .ok S) :
    (Runtime.ofSet S).SizedByFields := by
  intro i p hp
  rw [Runtime.getElem?_plans_ofSet] at hp
  obtain ⟨j, c, hmember⟩ := PlanSet.exists_member h hp
  exact hmember.size_eq hm

/-! ## Agreement -/

section Agreement

variable {R S T : Id → Id → Prop}

theorem ItemAgrees.mono (h : ∀ x y, R x y → S x y) :
    ∀ {i j : Item}, ItemAgrees R i j → ItemAgrees S i j
  | .scalar _, .scalar _, hij => hij
  | .message x, .message y, hij => h x y hij

theorem ItemAgrees.symm (h : ∀ x y, R x y → S y x) :
    ∀ {i j : Item}, ItemAgrees R i j → ItemAgrees S j i
  | .scalar _, .scalar _, hij => Eq.symm hij
  | .message x, .message y, hij => h x y hij

theorem ItemAgrees.trans (h : ∀ x y z, R x y → S y z → T x z) :
    ∀ {i j k : Item}, ItemAgrees R i j → ItemAgrees S j k → ItemAgrees T i k
  | .scalar _, .scalar _, .scalar _, hij, hjk => Eq.trans hij hjk
  | .message x, .message y, .message z, hij, hjk => h x y z hij hjk

theorem ItemAgrees.refl {i : Item} (h : ∀ x ∈ i.ids, R x x) : ItemAgrees R i i := by
  cases i with
  | scalar s => rfl
  | message x => exact h x (List.mem_singleton_self x)

theorem forall₂_trans {α : Type} {P Q U : α → α → Prop} (h : ∀ a b c, P a b → Q b c → U a c)
    {as bs : List α} (hab : List.Forall₂ P as bs) :
    ∀ {cs : List α}, List.Forall₂ Q bs cs → List.Forall₂ U as cs := by
  induction hab with
  | nil =>
      intro cs hbc
      cases hbc
      exact .nil
  | cons hab _ ih =>
      intro cs hbc
      cases hbc with
      | cons hbc hrest => exact .cons (h _ _ _ hab hbc) (ih hrest)

theorem ValueAgrees.mono (h : ∀ x y, R x y → S x y) :
    ∀ {v w : Value}, ValueAgrees R v w → ValueAgrees S v w
  | .single _, .single _, hvw => ItemAgrees.mono h hvw
  | .list _, .list _, hvw => List.Forall₂.imp (fun _ _ => ItemAgrees.mono h) hvw

theorem ValueAgrees.symm (h : ∀ x y, R x y → S y x) :
    ∀ {v w : Value}, ValueAgrees R v w → ValueAgrees S w v
  | .single _, .single _, hvw => ItemAgrees.symm h hvw
  | .list _, .list _, hvw => (List.Forall₂.imp (fun _ _ => ItemAgrees.symm h) hvw).flip

theorem ValueAgrees.trans (h : ∀ x y z, R x y → S y z → T x z) :
    ∀ {u v w : Value}, ValueAgrees R u v → ValueAgrees S v w → ValueAgrees T u w
  | .single _, .single _, .single _, huv, hvw => ItemAgrees.trans h huv hvw
  | .list _, .list _, .list _, huv, hvw =>
      forall₂_trans (P := ItemAgrees R) (Q := ItemAgrees S) (U := ItemAgrees T)
        (fun _ _ _ hij hjk => ItemAgrees.trans h hij hjk) huv hvw

theorem ValueAgrees.refl {v : Value} (h : ∀ x ∈ v.ids, R x x) : ValueAgrees R v v := by
  cases v with
  | single i => exact ItemAgrees.refl h
  | list items =>
      exact List.forall₂_same.mpr fun i hi =>
        ItemAgrees.refl fun x hx => h x (List.mem_flatMap.mpr ⟨i, hi, hx⟩)

theorem ParentAgrees.mono (h : ∀ x y, R x y → S x y) :
    ∀ {p q : Option Id}, ParentAgrees R p q → ParentAgrees S p q
  | some x, some y, hpq => h x y hpq
  | none, none, _ => trivial

theorem ParentAgrees.symm (h : ∀ x y, R x y → S y x) :
    ∀ {p q : Option Id}, ParentAgrees R p q → ParentAgrees S q p
  | some x, some y, hpq => h x y hpq
  | none, none, _ => trivial

theorem ParentAgrees.trans (h : ∀ x y z, R x y → S y z → T x z) :
    ∀ {p q r : Option Id}, ParentAgrees R p q → ParentAgrees S q r → ParentAgrees T p r
  | some x, some y, some z, hpq, hqr => h x y z hpq hqr
  | none, none, none, _, _ => trivial

theorem ParentAgrees.refl {q : Option Id} (h : ∀ x ∈ q.toList, R x x) : ParentAgrees R q q := by
  cases q with
  | none => trivial
  | some x => exact h x (List.mem_singleton_self x)

theorem ParentAgrees.cases :
    ∀ {p q : Option Id}, ParentAgrees R p q →
      (p = none ∧ q = none) ∨ ∃ x y, p = some x ∧ q = some y ∧ R x y
  | some x, some y, hpq => .inr ⟨x, y, rfl, rfl, hpq⟩
  | none, none, _ => .inl ⟨rfl, rfl⟩

end Agreement

/-! ## Holding the same -/

/-- Two messages store values in a field that agree. -/
def FieldAgrees (inner : Id → Id → Prop) (c d : Cell) (f : String) : Prop :=
  ∃ v w, c.value? f = some v ∧ d.value? f = some w ∧ ValueAgrees inner v w

/-- Two messages of one plan agree on their parent parts and on every stored field. -/
structure SameParts (inner : Id → Id → Prop) (p : Plan) (c d : Cell) : Prop where
  parent : ParentAgrees inner c.parent? d.parent?
  stored : ∀ f ∈ p.fields, f.stored = true → FieldAgrees inner c d f.name

/-- Two messages hold the same down to a depth. -/
def SameTo (rt : Runtime) (st : Store) : (depth : Nat) → Id → Id → Prop
  | 0, _, _ => True
  | depth + 1, x, y => ∃ p c d, rt.plans[c.plan]? = some p ∧ st.cell? x = some c ∧
      st.cell? y = some d ∧ d.plan = c.plan ∧ SameParts (SameTo rt st depth) p c d

/-- Two messages hold the same: every stored field, serialized or not, in every parent part and at
every depth, is the same in both. -/
def Same (rt : Runtime) (st : Store) (x y : Id) : Prop := ∀ depth, SameTo rt st depth x y

section Laws

variable {rt : Runtime} {st : Store} {R S T : Id → Id → Prop} {p : Plan} {c d e : Cell}

theorem FieldAgrees.mono (h : ∀ x y, R x y → S x y) {f : String} :
    FieldAgrees R c d f → FieldAgrees S c d f := by
  rintro ⟨v, w, hv, hw, hvw⟩
  exact ⟨v, w, hv, hw, hvw.mono h⟩

theorem SameParts.mono (h : ∀ x y, R x y → S x y) (hcd : SameParts R p c d) : SameParts S p c d :=
  ⟨hcd.parent.mono h, fun f hf hstored => (hcd.stored f hf hstored).mono h⟩

theorem SameParts.symm (h : ∀ x y, R x y → S y x) (hcd : SameParts R p c d) :
    SameParts S p d c := by
  refine ⟨hcd.parent.symm h, fun f hf hstored => ?_⟩
  obtain ⟨v, w, hv, hw, hvw⟩ := hcd.stored f hf hstored
  exact ⟨w, v, hw, hv, hvw.symm h⟩

theorem SameParts.trans (h : ∀ x y z, R x y → S y z → T x z) (hcd : SameParts R p c d)
    (hde : SameParts S p d e) : SameParts T p c e := by
  refine ⟨hcd.parent.trans h hde.parent, fun f hf hstored => ?_⟩
  obtain ⟨u, v, hu, hv, huv⟩ := hcd.stored f hf hstored
  obtain ⟨v', w, hv', hw, hvw⟩ := hde.stored f hf hstored
  obtain rfl := Option.some.inj (hv.symm.trans hv')
  exact ⟨u, w, hu, hw, huv.trans h hvw⟩

theorem SameTo.pred {n : Nat} : ∀ {x y : Id}, SameTo rt st (n + 1) x y → SameTo rt st n x y := by
  induction n with
  | zero => exact fun _ => trivial
  | succ n ih =>
      rintro x y ⟨p, c, d, hp, hc, hd, hplan, hparts⟩
      exact ⟨p, c, d, hp, hc, hd, hplan, hparts.mono fun _ _ => ih⟩

/-- What holds the same down to a depth does so down to a smaller one. -/
theorem SameTo.of_le {m n : Nat} {x y : Id} (hmn : m ≤ n) (h : SameTo rt st n x y) :
    SameTo rt st m x y := by
  induction hmn with
  | refl => exact h
  | step _ ih => exact ih h.pred

theorem SameTo.refl (n : Nat) : ∀ {x : Id}, WellTyped rt st x → SameTo rt st n x x := by
  induction n with
  | zero => exact fun _ => trivial
  | succ n ih =>
      intro x hx
      obtain ⟨p, c, hc, hcell⟩ := hx.cell
      have hchild : ∀ z ∈ c.children, SameTo rt st n z z := fun z hz => ih (hx.child hc hz)
      refine ⟨p, c, c, hcell.plan, hc, hc, rfl, .refl ?_, fun f hf hstored => ?_⟩
      · intro z hz
        exact hchild z (List.mem_append_left _ hz)
      · obtain ⟨v, hv, -⟩ := hcell.stored f hf hstored
        exact ⟨v, v, hv, hv, .refl fun z hz => hchild z (Cell.ids_subset_children hv hz)⟩

theorem SameTo.symm (n : Nat) : ∀ {x y : Id}, SameTo rt st n x y → SameTo rt st n y x := by
  induction n with
  | zero => exact fun _ => trivial
  | succ n ih =>
      rintro x y ⟨p, c, d, hp, hc, hd, hplan, hparts⟩
      exact ⟨p, d, c, hplan ▸ hp, hd, hc, hplan.symm, hparts.symm fun _ _ => ih⟩

theorem SameTo.trans (n : Nat) :
    ∀ {x y z : Id}, SameTo rt st n x y → SameTo rt st n y z → SameTo rt st n x z := by
  induction n with
  | zero => exact fun _ _ => trivial
  | succ n ih =>
      rintro x y z ⟨p, c, d, hp, hc, hd, hplan, hparts⟩ ⟨q, d', e, hq, hd', he, hplan', hparts'⟩
      obtain rfl := Option.some.inj (hd.symm.trans hd')
      rw [hplan] at hq
      obtain rfl := Option.some.inj (hp.symm.trans hq)
      refine ⟨p, c, e, hp, hc, he, hplan'.trans hplan, ?_⟩
      exact SameParts.trans (R := SameTo rt st n) (S := SameTo rt st n)
        (fun _ _ _ hxy hyz => ih hxy hyz) hparts hparts'

end Laws

/-! ## Fields that agree -/

section Fields

variable {inner : Id → Id → Prop} {c d : Cell} {f : String}

theorem FieldAgrees.list (h : FieldAgrees inner c d f) :
    List.Forall₂ (ItemAgrees inner) (c.list f) (d.list f) := by
  obtain ⟨v, w, hv, hw, hvw⟩ := h
  cases v with
  | single i =>
      cases w with
      | single j => simp [Cell.list, hv, hw]
      | list js => exact hvw.elim
  | list is =>
      cases w with
      | single j => exact hvw.elim
      | list js =>
          rw [list_of_value? hv, list_of_value? hw]
          exact hvw

/-- The messages in a field agree, or there is none, for the same reason. -/
theorem FieldAgrees.message (h : FieldAgrees inner c d f) :
    (∃ x y, c.message f = .ok x ∧ d.message f = .ok y ∧ inner x y) ∨
      ∃ e, c.message f = .error e ∧ d.message f = .error e := by
  obtain ⟨v, w, hv, hw, hvw⟩ := h
  cases v with
  | list is =>
      cases w with
      | single j => exact hvw.elim
      | list js => exact .inr ⟨_, by rw [Cell.message, hv], by rw [Cell.message, hw]; rfl⟩
  | single i =>
      cases w with
      | list js => exact hvw.elim
      | single j =>
          cases i with
          | message x =>
              cases j with
              | scalar s => exact hvw.elim
              | message y =>
                exact .inl ⟨x, y, by rw [Cell.message, hv], by rw [Cell.message, hw], hvw⟩
          | scalar s =>
              cases j with
              | message y => exact hvw.elim
              | scalar t =>
                  obtain rfl : s = t := hvw
                  exact .inr ⟨_, by rw [Cell.message, hv], by rw [Cell.message, hw]⟩

end Fields

/-! ## Writing -/

section Writing

variable {rt : Runtime} {st : Store} {inner : Id → Id → Prop} {emit : Id → Emit Unit} {p : Plan}
  {c d : Cell}

theorem writeItem_congr (hemit : ∀ x y, inner x y → emit x = emit y) (e : Element) :
    ∀ {i j : Item}, ItemAgrees inner i j → writeItem emit e i = writeItem emit e j
  | .scalar s, .scalar t, hij => by
      obtain rfl : s = t := hij
      rfl
  | .message x, .message y, hij => by
      cases e with
      | primitive t => rfl
      | message type => exact hemit x y hij

/-- Writing things that are written alike, one after another. -/
theorem forM_congr {α β : Type} {R : α → β → Prop} {f : α → Emit Unit} {g : β → Emit Unit}
    (h : ∀ a b, R a b → f a = g b) {as : List α} {bs : List β} (hab : List.Forall₂ R as bs) :
    as.forM f = bs.forM g := by
  induction hab with
  | nil => rfl
  | @cons a b as bs hab _ ih =>
      show (f a >>= fun _ => as.forM f) = (g b >>= fun _ => bs.forM g)
      rw [h a b hab, ih]

/-- A step is the same on two messages that agree on what it looks at. -/
theorem encodeStep_congr (hemit : ∀ x y, inner x y → emit x = emit y)
    (hparent : ParentAgrees inner c.parent? d.parent?) {step : EncodeStep}
    (hlooks : ∀ f ∈ step.looksAt, FieldAgrees inner c d f) :
    encodeStep emit c step = encodeStep emit d step := by
  cases step with
  | parent name =>
      rcases hparent.cases with ⟨hc, hd⟩ | ⟨x, y, hc, hd, hxy⟩
      · simp only [encodeStep, hc, hd]
      · simp only [encodeStep, hc, hd]
        exact hemit x y hxy
  | primitive f t =>
      obtain ⟨v, w, hv, hw, hvw⟩ := hlooks f (List.mem_singleton_self f)
      cases v with
      | list is =>
          cases w with
          | single j => exact hvw.elim
          | list js => simp only [encodeStep, hv, hw]
      | single i =>
          cases w with
          | list js => exact hvw.elim
          | single j =>
              simp only [encodeStep, hv, hw]
              exact writeItem_congr hemit (.primitive t) hvw
  | count f list t =>
      have hlength := (hlooks list (List.mem_singleton_self list)).list.length_eq
      simp only [encodeStep, hlength]
  | reference f type =>
      rcases (hlooks f (List.mem_singleton_self f)).message with
        ⟨x, y, hc, hd, hxy⟩ | ⟨e, hc, hd⟩
      · simp only [encodeStep, hc, hd]
        exact hemit x y hxy
      · simp only [encodeStep, hc, hd]
  | fixedList f n e | variableList f e =>
      exact forM_congr (R := ItemAgrees inner) (fun _ _ hij => writeItem_congr hemit e hij)
        (hlooks f (List.mem_singleton_self f)).list

/-- The steps of a plan look at its stored fields. -/
theorem looksAt_stored (hp : p.Sound) {step : EncodeStep} (hstep : step ∈ p.encode) {n : String}
    (hn : n ∈ step.looksAt) : ∃ f ∈ p.fields, f.stored = true ∧ f.name = n := by
  rcases (mem_encode hp).mp hstep with ⟨-, rfl⟩ | ⟨f, hf, -, rfl⟩
  · cases hn
  cases hp.field f hf with
  | number t hshape helem hstored =>
      simp only [Field.step_number hshape helem hstored, DecodeStep.write] at hn
      exact ⟨f, hf, hstored, (List.mem_singleton.mp hn).symm⟩
  | count t l hshape helem hunstored _ hl hname hlist =>
      simp only [Field.step_count hshape helem hunstored, DecodeStep.write] at hn
      exact ⟨l, hl, (hp.of_variableList hl hlist).1, hname.trans (List.mem_singleton.mp hn).symm⟩
  | reference type hshape helem hstored =>
      simp only [Field.step_reference hshape, helem, DecodeStep.write] at hn
      exact ⟨f, hf, hstored, (List.mem_singleton.mp hn).symm⟩
  | fixedList n hshape _ _ hstored =>
      simp only [Field.step_fixedList hshape, DecodeStep.write] at hn
      exact ⟨f, hf, hstored, (List.mem_singleton.mp hn).symm⟩
  | variableList k hshape hstored =>
      simp only [Field.step_variableList hshape, DecodeStep.write] at hn
      exact ⟨f, hf, hstored, (List.mem_singleton.mp hn).symm⟩

/-- Messages that hold the same down to a depth are written alike down to it. -/
theorem encodeDepth_congr (hrt : rt.Sound) (n : Nat) :
    ∀ x y, SameTo rt st n x y → encodeDepth rt st n x = encodeDepth rt st n y := by
  induction n with
  | zero => exact fun _ _ _ => rfl
  | succ n ih =>
      rintro x y ⟨p, c, d, hp, hc, hd, hplan, hparts⟩
      have hx : rt.planOf? st x = some p := planOf?_eq.mpr ⟨c, hc, hp⟩
      have hy : rt.planOf? st y = some p := planOf?_eq.mpr ⟨d, hd, hplan ▸ hp⟩
      have hsteps : ∀ step ∈ p.encode, encodeStep (encodeDepth rt st n) c step =
          encodeStep (encodeDepth rt st n) d step := by
        intro step hstep
        refine encodeStep_congr ih hparts.parent fun f hf => ?_
        obtain ⟨g, hg, hstored, rfl⟩ := looksAt_stored (hrt.plan hp) hstep hf
        exact hparts.stored g hg hstored
      have hwrite : (p.encode.forM fun step =>
            within ("encode " ++ p.name) (encodeStep (encodeDepth rt st n) c step)) =
          p.encode.forM fun step =>
            within ("encode " ++ p.name) (encodeStep (encodeDepth rt st n) d step) := by
        refine forM_congr (R := fun s t => s ∈ p.encode ∧ s = t) ?_
          (List.forall₂_same.mpr fun step hstep => ⟨hstep, rfl⟩)
        rintro step _ ⟨hstep, rfl⟩
        rw [hsteps step hstep]
      simp only [encodeDepth, encodeWith, Runtime.planOf, hx, hy, Store.cell, hc, hd]
      funext w
      simp only [Action.run_bind, Action.run_lift]
      exact congrFun hwrite w

end Writing

/-! ## Measuring -/

section Measuring

variable {rt : Runtime} {st : Store} {inner : Id → Id → Prop} {sizeOf : Id → Except Failure Int}
  {p : Plan} {c d : Cell}

theorem sizeItems_congr (hsize : ∀ x y, inner x y → sizeOf x = sizeOf y) {is js : List Item}
    (h : List.Forall₂ (ItemAgrees inner) is js) : sizeItems sizeOf is = sizeItems sizeOf js := by
  induction h with
  | nil => rfl
  | @cons i j is js hij _ ih =>
      cases i with
      | scalar s =>
          cases j with
          | scalar t =>
              obtain rfl : s = t := hij
              rfl
          | message y => exact hij.elim
      | message x =>
          cases j with
          | scalar t => exact hij.elim
          | message y => rw [sizeItems, sizeItems, hsize x y hij, ih]

/-- A term is the same for two messages that agree on its field. -/
theorem termSize_congr (hsize : ∀ x y, inner x y → sizeOf x = sizeOf y) {t : SizeTerm}
    (h : t.rule.isStatic = false → FieldAgrees inner c d t.field) :
    termSize sizeOf c t = termSize sizeOf d t := by
  obtain ⟨f, rule⟩ := t
  cases rule with
  | static bytes length => rfl
  | reference cls =>
      rcases (h rfl).message with ⟨x, y, hc, hd, hxy⟩ | ⟨e, hc, hd⟩
      · simp only [termSize, hc, hd]
        exact hsize x y hxy
      · simp only [termSize, hc, hd]
  | countTimesWidth bytes => simp only [termSize, (h rfl).list.length_eq]
  | elementSum cls length => exact sizeItems_congr hsize (h rfl).list

theorem termSizes_congr {terms : List SizeTerm}
    (h : ∀ t ∈ terms, termSize sizeOf c t = termSize sizeOf d t) :
    termSizes sizeOf c terms = termSizes sizeOf d terms := by
  induction terms with
  | nil => rfl
  | cons t rest ih =>
      rw [termSizes, termSizes, h t List.mem_cons_self,
        ih fun u hu => h u (List.mem_cons_of_mem _ hu)]

/-- What a message adds to its size is in its stored fields. -/
theorem dynamic_stored (hp : p.Sound) {t : SizeTerm} (ht : t ∈ p.fieldSizes.dynamic) :
    ∃ f ∈ p.fields, f.stored = true ∧ f.name = t.field := by
  obtain ⟨hmem, hdynamic⟩ := List.mem_filter.mp ht
  obtain ⟨f, hf, rfl⟩ := List.mem_map.mp hmem
  have hfield := (List.mem_filter.mp hf).1
  cases hstored : f.stored with
  | true => exact ⟨f, hfield, hstored, rfl⟩
  | false =>
      obtain ⟨t, l, hshape, helem, -⟩ := hp.of_unstored hfield hstored
      simp [Field.sizeRule, hshape, helem, Plan.SizeRule.isStatic] at hdynamic

/-- Messages that hold the same down to a depth are measured alike down to it. -/
theorem sizeDepth_congr (hrt : rt.Sound) (hsized : rt.SizedByFields) (n : Nat) :
    ∀ x y, SameTo rt st n x y → sizeDepth rt st n x = sizeDepth rt st n y := by
  induction n with
  | zero => exact fun _ _ _ => rfl
  | succ n ih =>
      rintro x y ⟨p, c, d, hp, hc, hd, hplan, hparts⟩
      have hx : rt.planOf? st x = some p := planOf?_eq.mpr ⟨c, hc, hp⟩
      have hy : rt.planOf? st y = some p := planOf?_eq.mpr ⟨d, hd, hplan ▸ hp⟩
      unfold sizeDepth sizeWith
      simp only [Runtime.planOf, hx, hy, Store.cell, hc, hd, bind, Except.bind]
      cases hsize : p.size? with
      | none => rfl
      | some s =>
          obtain rfl := hsized c.plan p hp s hsize
          have hterms : termSizes (sizeDepth rt st n) c p.fieldSizes.dynamic =
              termSizes (sizeDepth rt st n) d p.fieldSizes.dynamic := by
            refine termSizes_congr fun t ht => termSize_congr ih fun _ => ?_
            obtain ⟨f, hf, hstored, hname⟩ := dynamic_stored (hrt.plan hp) ht
            exact hname ▸ hparts.stored f hf hstored
          rcases hparts.parent.cases with ⟨hcq, hdq⟩ | ⟨q, r, hcq, hdq, hqr⟩
          · simp only [hterms, hcq, hdq]
          · simp only [hterms, hcq, hdq, ih q r hqr]

end Measuring

/-- **Messages that hold the same have the same bytes, or fail to be written for the same
reason.** -/
theorem Same.marshal_eq {rt : Runtime} {st : Store} (hrt : rt.Sound) {x y : Id}
    (h : Same rt st x y) : marshal rt st x = marshal rt st y := by
  have hencode : encode rt st x = encode rt st y := encodeDepth_congr hrt _ x y (h _)
  rw [marshal, marshal, hencode]

/-- **Messages that hold the same have the same size.** -/
theorem Same.size_eq {rt : Runtime} {st : Store} (hrt : rt.Sound) (hsized : rt.SizedByFields)
    {x y : Id} (h : Same rt st x y) : size rt st x = size rt st y :=
  sizeDepth_congr hrt hsized _ x y (h _)

end Message

end WireSchema
