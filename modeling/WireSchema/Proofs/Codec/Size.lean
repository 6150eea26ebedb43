import Mathlib
import WireSchema.Message.Compare
import WireSchema.Proofs.Codec.Fresh
import WireSchema.Proofs.Plan.Size

/-!
# Sizes

The size of a message is a sum over the fields of its plan, made without writing anything.  It
always exists, and it is the number of bytes that the message shows, as long as that number is one
that sizes can be: the static parts are summed in machine words.

Both are proved together, because the size of a message is made from the sizes of what it holds.

## Main results

* `field_measured` — what one field adds is what its step shows.
* `sizeDepth_measures` — the size of a message exists and is that of what it shows.
* `size_eq_length` — the size of a message exists and is the number of its bytes.
-/

namespace WireSchema

/-- Every plan of a runtime has the size that its fields make up. -/
def Message.Runtime.Sized (rt : Message.Runtime) : Prop :=
  ∀ (i : Nat) (p : Plan), rt.plans[i]? = some p → p.size? = some p.fieldSizes

/-- The part of a rule that is known beforehand. -/
def Plan.SizeRule.known (r : Plan.SizeRule) : Int := if r.isStatic then r.bytes else 0

namespace Message

open Plan (Field SizeTerm SizeRule)

/-- The accepted plans of a model have sizes if they were derived with sizes. -/
theorem Runtime.ofSet_sized {m : Model} {S : PlanSet} (hm : Resolve.Bound m)
    (h : PlanSet.derive true m = .ok S) : (Runtime.ofSet S).Sized := by
  intro i p hp
  rw [Runtime.getElem?_plans_ofSet] at hp
  obtain ⟨j, c, hmember⟩ := PlanSet.exists_member h hp
  exact hmember.size hm

/-- A number of bytes that sizes can be. -/
def Measurable (n : Nat) : Prop := (n : Int) < 0x8000000000000000

/-- A message has a size, which is that of whatever content it shows. -/
def Measures (sizeOf : Id → Except Failure Int) (shown : Id → Content → Prop) (id : Id) : Prop :=
  ∃ n, sizeOf id = .ok n ∧ ∀ ct, shown id ct → Measurable ct.bytes.length → n = ct.bytes.length

section Parts

variable {sizeOf : Id → Except Failure Int} {shown : Id → Content → Prop}

/-- The sizes of messages add up to that of the list. -/
theorem sizeItems_measured {type : String} {items : List Item}
    (h : ∀ i ∈ items, ∃ id, i = .message id ∧ Measures sizeOf shown id) :
    ∃ n, sizeItems sizeOf items = .ok n ∧
      ∀ parts, List.Forall₂ (ItemShows shown (.message type)) items parts →
        Measurable (Content.allBytes parts).length → n = (Content.allBytes parts).length := by
  induction items with
  | nil =>
      refine ⟨0, rfl, fun parts hparts _ => ?_⟩
      cases hparts
      rfl
  | cons i items ih =>
      obtain ⟨id, rfl, n, hn, hsize⟩ := h i List.mem_cons_self
      obtain ⟨k, hk, hrest⟩ := ih fun j hj => h j (List.mem_cons_of_mem _ hj)
      refine ⟨n + k, by simp [sizeItems, hn, hk, bind, Except.bind, pure, Except.pure], ?_⟩
      intro parts hparts hfits
      cases hparts with
      | @cons _ ct _ parts hshow hshows =>
          rw [Content.allBytes_cons, List.length_append, Measurable] at hfits
          have hhead := hsize ct hshow (by rw [Measurable]; omega)
          have htail := hrest parts hshows (by rw [Measurable]; omega)
          rw [Content.allBytes_cons, List.length_append]
          omega

/-- Numbers of one type take the same bytes each. -/
theorem length_numbers {t : Primitive} {items : List Item} {parts : List Content}
    (h : List.Forall₂ (ItemShows shown (.primitive t)) items parts) :
    (Content.allBytes parts).length = items.length * t.wireBytes := by
  induction h with
  | nil => simp
  | @cons i ct items parts hshow _ ih =>
      cases i with
      | message id => exact hshow.elim
      | scalar s =>
          obtain ⟨rfl, hkind⟩ := hshow
          have hwidth : s.kind.bytes = t.wireBytes := by rw [hkind, Primitive.wireBytes]
          simp only [Content.allBytes_cons, Content.bytes_number, List.length_append,
            Wire.length_scalarBytes, ih, hwidth, List.length_cons, Nat.succ_mul]
          omega

/-- What a field adds to the size of a message. -/
def FieldMeasured (sizeOf : Id → Except Failure Int) (shown : Id → Content → Prop) (c : Cell)
    (d : Bool) (f : Field) : Prop :=
  ∃ n, termSize sizeOf c ⟨f.name, f.sizeRule⟩ = .ok n ∧ (f.sizeRule.isStatic = true → n = 0) ∧
    ∀ ct, StepShows true shown c (f.step d) ct → Measurable ct.bytes.length →
      f.sizeRule.known + n = ct.bytes.length

/-- A part that is known beforehand is what the step shows. -/
theorem FieldMeasured.of_static {c : Cell} {d : Bool} {f : Field} {w k : Int}
    (hrule : f.sizeRule = .static w k)
    (h : ∀ ct, StepShows true shown c (f.step d) ct → Measurable ct.bytes.length →
      w = ct.bytes.length) : FieldMeasured sizeOf shown c d f := by
  refine ⟨0, by rw [termSize, hrule], fun _ => rfl, fun ct hshow hfits => ?_⟩
  have hsize := h ct hshow hfits
  simp only [hrule, SizeRule.known, SizeRule.isStatic, SizeRule.bytes, if_true]
  omega

/-- A part that is looked at is what the step shows. -/
theorem FieldMeasured.of_dynamic {c : Cell} {d : Bool} {f : Field} {n : Int}
    (hrule : f.sizeRule.isStatic = false) (hn : termSize sizeOf c ⟨f.name, f.sizeRule⟩ = .ok n)
    (h : ∀ ct, StepShows true shown c (f.step d) ct → Measurable ct.bytes.length →
      n = ct.bytes.length) : FieldMeasured sizeOf shown c d f := by
  refine ⟨n, hn, fun hstatic => ?_, fun ct hshow hfits => ?_⟩
  · rw [hrule] at hstatic
    cases hstatic
  · have hsize := h ct hshow hfits
    rw [SizeRule.known, hrule, if_neg (by simp)]
    omega

end Parts

section Sizes

variable {rt : Runtime} {st : Store} {sizeOf : Id → Except Failure Int}
  {shown : Id → Content → Prop} {p : Plan} {c : Cell}

/-- A list of messages of a field. -/
theorem list_measured {f : Field} {type : String} {items : List Item}
    (hchild : ∀ id ∈ c.children, Measures sizeOf shown id)
    (hv : c.value? f.name = some (.list items)) (helem : f.elem = .message type)
    (hitems : ∀ i ∈ items, ItemTyped rt st f.elem i) :
    ∃ n, sizeItems sizeOf (c.list f.name) = .ok n ∧
      ∀ parts, List.Forall₂ (ItemShows shown (.message type)) (c.list f.name) parts →
        Measurable (Content.allBytes parts).length → n = (Content.allBytes parts).length := by
  rw [list_of_value? hv]
  refine sizeItems_measured fun i hi => ?_
  obtain ⟨id, rfl, -⟩ := (helem ▸ hitems i hi).exists_message
  refine ⟨id, rfl, hchild id (Cell.mem_children_of_list (f := f.name) ?_)⟩
  rw [list_of_value? hv]
  exact hi

/-- **What a field adds is what its step shows.** -/
theorem field_measured (hp : p.Sound) (hc : CellTyped rt st p c)
    (hchild : ∀ id ∈ c.children, Measures sizeOf shown id) {f : Field} (hf : f ∈ p.fields)
    (d : Bool) : FieldMeasured sizeOf shown c d f := by
  cases hp.field f hf with
  | number t hshape helem hstored =>
      have hrule : f.sizeRule = .static t.wireBytes 0 := by simp [Field.sizeRule, hshape, helem]
      refine .of_static hrule fun ct hshow _ => ?_
      rw [Field.step_number hshape helem hstored] at hshow
      obtain ⟨v, -, hitem⟩ := hshow
      cases v with
      | message id => exact hitem.elim
      | scalar s =>
          obtain ⟨rfl, hkind⟩ := hitem
          simp [hkind, Primitive.wireBytes]
  | count t l hshape helem hunstored =>
      have hrule : f.sizeRule = .static t.wireBytes 0 := by simp [Field.sizeRule, hshape, helem]
      refine .of_static hrule fun ct hshow _ => ?_
      rw [Field.step_count hshape helem hunstored] at hshow
      obtain ⟨s, rfl, hcount⟩ := hshow
      obtain ⟨rfl, -⟩ := hcount (.inl rfl)
      simp [Wire.kind_ofWord, Primitive.wireBytes]
  | reference type hshape helem hstored =>
      have hrule : f.sizeRule = .reference type := by simp [Field.sizeRule, hshape, helem]
      obtain ⟨v, hv, htyped⟩ := hc.stored f hf hstored
      obtain ⟨id, rfl, -⟩ := htyped.message hshape helem
      obtain ⟨n, hn, hsize⟩ :=
        hchild id (Cell.ids_subset_children hv (List.mem_singleton_self id))
      have hmessage : c.message f.name = .ok id := by simp [Cell.message, hv]
      have hterm : termSize sizeOf c ⟨f.name, f.sizeRule⟩ = .ok n := by
        rw [termSize, hrule]
        simpa [hmessage, bind, Except.bind] using hn
      refine .of_dynamic (by rw [hrule]; rfl) hterm fun ct hshow hfits => ?_
      rw [Field.step_reference hshape] at hshow
      obtain ⟨id', hv', hinner⟩ := hshow
      obtain rfl : id = id' := by simpa using hv.symm.trans hv'
      exact hsize ct hinner hfits
  | fixedList k hshape _ _ hstored =>
      obtain ⟨v, hv, htyped⟩ := hc.stored f hf hstored
      obtain ⟨items, rfl, hlen, -, hitems⟩ := htyped.fixedList hshape
      cases helem : f.elem with
      | primitive t =>
          have hrule : f.sizeRule = .static (Number.wrap (k * t.wireBytes)) k := by
            simp [Field.sizeRule, hshape, helem]
          refine .of_static hrule fun ct hshow hfits => ?_
          rw [Field.step_fixedList hshape, helem] at hshow
          obtain ⟨parts, rfl, hshows⟩ := hshow
          rw [list_of_value? hv] at hshows
          have hcast : ((items.length * t.wireBytes : Nat) : Int) = k * t.wireBytes := by
            rw [Nat.cast_mul, hlen]
          rw [Content.bytes_group, Measurable, length_numbers hshows] at hfits
          rw [Content.bytes_group, length_numbers hshows, hcast, Number.wrap_of_inRange] <;> omega
      | message type =>
          have hrule : f.sizeRule = .elementSum type k := by simp [Field.sizeRule, hshape, helem]
          obtain ⟨n, hn, hsize⟩ := list_measured hchild hv helem hitems
          refine .of_dynamic (by rw [hrule]; rfl) (by rw [termSize, hrule]; exact hn) ?_
          intro ct hshow hfits
          rw [Field.step_fixedList hshape, helem] at hshow
          obtain ⟨parts, rfl, hshows⟩ := hshow
          rw [Content.bytes_group] at hfits ⊢
          exact hsize parts hshows hfits
  | variableList k hshape hstored =>
      obtain ⟨v, hv, htyped⟩ := hc.stored f hf hstored
      obtain ⟨items, rfl, hitems⟩ := htyped.variableList hshape
      cases helem : f.elem with
      | primitive t =>
          have hrule : f.sizeRule = .countTimesWidth t.wireBytes := by
            simp [Field.sizeRule, hshape, helem]
          refine .of_dynamic (by rw [hrule]; rfl) (by rw [termSize, hrule]) fun ct hshow _ => ?_
          rw [Field.step_variableList hshape, helem] at hshow
          obtain ⟨parts, rfl, hshows⟩ := hshow
          rw [Content.bytes_group, length_numbers hshows, Nat.cast_mul]
      | message type =>
          have hrule : f.sizeRule = .elementSum type 0 := by simp [Field.sizeRule, hshape, helem]
          obtain ⟨n, hn, hsize⟩ := list_measured hchild hv helem hitems
          refine .of_dynamic (by rw [hrule]; rfl) (by rw [termSize, hrule]; exact hn) ?_
          intro ct hshow hfits
          rw [Field.step_variableList hshape, helem] at hshow
          obtain ⟨parts, rfl, hshows⟩ := hshow
          rw [Content.bytes_group] at hfits ⊢
          exact hsize parts hshows hfits

/-- The static part of some fields, before it is made a machine word. -/
def knownSum (fs : List Field) : Int :=
  ((fs.map fun f => (⟨f.name, f.sizeRule⟩ : SizeTerm)).filter (·.rule.isStatic)).foldr
    (fun t n => t.rule.bytes + n) 0

theorem knownSum_cons (f : Field) (fs : List Field) :
    knownSum (f :: fs) = f.sizeRule.known + knownSum fs := by
  unfold knownSum SizeRule.known
  rw [List.map_cons, List.filter_cons]
  split
  · rfl
  · rw [Int.zero_add]

/-- Terms that are known beforehand need not be looked at again. -/
theorem termSizes_cons {t : SizeTerm} {ts : List SizeTerm} {n k : Int}
    (hn : termSize sizeOf c t = .ok n) (hstatic : t.rule.isStatic = true → n = 0)
    (hk : termSizes sizeOf c (ts.filter fun t => !t.rule.isStatic) = .ok k) :
    termSizes sizeOf c ((t :: ts).filter fun t => !t.rule.isStatic) = .ok (n + k) := by
  rw [List.filter_cons]
  cases hrule : t.rule.isStatic with
  | true =>
      rw [hstatic hrule, Int.zero_add]
      exact hk
  | false =>
      simp only [Bool.not_false, if_true]
      simp only [termSizes, hn, hk, bind, Except.bind, pure, Except.pure]

/-- What the fields add is what their steps show. -/
theorem fields_measured (discard : Field → Bool) (fs : List Field)
    (h : ∀ f ∈ fs, FieldMeasured sizeOf shown c (discard f) f) :
    ∃ n, termSizes sizeOf c ((fs.map fun f => (⟨f.name, f.sizeRule⟩ : SizeTerm)).filter
        fun t => !t.rule.isStatic) = .ok n ∧
      ∀ parts, List.Forall₂ (StepShows true shown c) (fs.map fun f => f.step (discard f)) parts →
        Measurable (Content.allBytes parts).length →
        0 ≤ knownSum fs ∧ knownSum fs ≤ (Content.allBytes parts).length ∧
          knownSum fs + n = (Content.allBytes parts).length := by
  induction fs with
  | nil =>
      refine ⟨0, rfl, fun parts hparts _ => ?_⟩
      cases hparts
      exact ⟨le_rfl, le_rfl, rfl⟩
  | cons f fs ih =>
      obtain ⟨n, hn, hstatic, hsize⟩ := h f List.mem_cons_self
      obtain ⟨k, hk, hrest⟩ := ih fun g hg => h g (List.mem_cons_of_mem _ hg)
      refine ⟨n + k, termSizes_cons hn hstatic hk, fun parts hparts hfits => ?_⟩
      cases hparts with
      | @cons _ ct _ parts hshow hshows =>
          rw [Content.allBytes_cons, List.length_append, Measurable] at hfits
          have hhead := hsize ct hshow (by rw [Measurable]; omega)
          obtain ⟨hpos, hle, htail⟩ := hrest parts hshows (by rw [Measurable]; omega)
          -- A static rule says all of its bytes, any other says none of them.
          have hknown : 0 ≤ f.sizeRule.known ∧ f.sizeRule.known ≤ ct.bytes.length := by
            cases hrule : f.sizeRule.isStatic with
            | true =>
                rw [hstatic hrule] at hhead
                omega
            | false => simp [SizeRule.known, hrule]
          rw [knownSum_cons, Content.allBytes_cons, List.length_append]
          omega

/-- The size of the parent part; zero without a parent. -/
def ParentSize (sizeOf : Id → Except Failure Int) (p : Plan) (c : Cell) (n : Int) : Prop :=
  (p.hasParent = false ∧ n = 0) ∨
    (p.hasParent = true ∧ ∃ q, c.parent? = some q ∧ sizeOf q = .ok n)

/-- What the parent part adds is what its step shows. -/
theorem parent_measured (hrt : rt.Sound) (hc : CellTyped rt st p c)
    (hchild : ∀ id ∈ c.children, Measures sizeOf shown id) :
    ∃ n, ParentSize sizeOf p c n ∧
      ∀ parts, List.Forall₂ (StepShows true shown c) p.parentSteps parts →
        Measurable (Content.allBytes parts).length → n = (Content.allBytes parts).length := by
  unfold Plan.parentSteps
  cases hhas : p.hasParent with
  | false =>
      refine ⟨0, .inl ⟨hhas, rfl⟩, fun parts hparts _ => ?_⟩
      cases hparts
      rfl
  | true =>
      obtain ⟨q, hq⟩ := Option.isSome_iff_exists.mp ((hc.hasParent hrt).symm.trans hhas)
      obtain ⟨n, hn, hsize⟩ := hchild q (Cell.parent_mem_children hq)
      refine ⟨n, .inr ⟨hhas, q, hq, hn⟩, fun parts hparts hfits => ?_⟩
      cases hparts with
      | @cons _ ct _ _ hshow hnil =>
          cases hnil
          obtain ⟨q', hq', hinner⟩ := hshow
          rw [hq] at hq'
          obtain rfl := Option.some.inj hq'
          simp only [Content.allBytes_cons, Content.allBytes_nil, List.append_nil] at hfits ⊢
          exact hsize ct hinner hfits

/-- The size of a message from the sizes of its parts. -/
theorem sizeWith_eq {x : Id} (hc : st.cell? x = some c) (hplan : rt.plans[c.plan]? = some p)
    (hsize : p.size? = some p.fieldSizes) {n k : Int} (hn : ParentSize sizeOf p c n)
    (hk : termSizes sizeOf c p.fieldSizes.dynamic = .ok k) :
    sizeWith rt st sizeOf x = .ok (p.fieldSizes.fixed + n + k) := by
  have hof : rt.planOf? st x = some p := planOf?_eq.mpr ⟨c, hc, hplan⟩
  have hparent : p.fieldSizes.parent.isEmpty = !p.hasParent := by
    simp [Plan.fieldSizes, Plan.hasParent]
  unfold sizeWith
  simp only [Runtime.planOf, hof, Store.cell, hc, hsize, hparent, bind, Except.bind]
  rcases hn with ⟨hhas, rfl⟩ | ⟨hhas, q, hq, hn⟩
  · simp only [hhas, hk, Bool.not_false, if_true, pure, Except.pure]
  · simp only [hhas, hq, hn, hk, Bool.not_true, Bool.false_eq_true, if_false, pure, Except.pure]

/-- What corresponds to two lists in turn comes in two parts. -/
theorem forall₂_split {α β : Type} {R : α → β → Prop} {xs ys : List α} {zs : List β}
    (h : List.Forall₂ R (xs ++ ys) zs) :
    ∃ front back, zs = front ++ back ∧ List.Forall₂ R xs front ∧ List.Forall₂ R ys back :=
  ⟨_, _, (List.take_append_drop xs.length zs).symm,
    (List.forall₂_take_append zs xs ys h.flip).flip,
    (List.forall₂_drop_append zs xs ys h.flip).flip⟩

/-- **The size of a message exists and is that of what it shows.** -/
theorem sizeDepth_measures (hrt : rt.Sound) (hsized : rt.Sized) (n : Nat) :
    ∀ x, WellTyped rt st x → Shallow st n x →
      Measures (sizeDepth rt st n) (fun id ct => ∃ k, Shows true rt st k id ct) x := by
  induction n with
  | zero =>
      intro x _ hshallow
      exact absurd (hshallow [] x rfl) (Nat.not_lt_zero _)
  | succ n ih =>
      intro x hx hshallow
      obtain ⟨p, c, hc, hcell⟩ := hx.cell
      have hp := hrt.plan hcell.plan
      have hchild : ∀ id ∈ c.children, Measures (sizeDepth rt st n) _ id :=
        fun id hid => ih id (hx.child hc hid) (hshallow.child hc hid)
      obtain ⟨q, hq, hparent⟩ := parent_measured hrt hcell hchild
      obtain ⟨k, hk, hfields⟩ := fields_measured p.discardsCount
        (p.fields.filter (·.serialized)) fun f hf =>
          field_measured hp hcell hchild (List.mem_filter.mp hf).1 _
      refine ⟨_, sizeWith_eq hc hcell.plan (hsized _ _ hcell.plan) hq hk, ?_⟩
      rintro ct ⟨j, hshows⟩ hfits
      obtain ⟨j, parts, -, rfl, hsteps⟩ := hshows.steps hc hcell.plan
      have hshown : List.Forall₂ (StepShows true (fun id ct => ∃ k, Shows true rt st k id ct) c)
          p.decode parts :=
        hsteps.imp fun step ct hstep => hstep.imp fun id ct _ h => ⟨j, h⟩
      rw [hp.decode] at hshown
      obtain ⟨front, back, rfl, hfront, hback⟩ := forall₂_split hshown
      rw [Content.bytes_group, Content.allBytes_append, List.length_append, Measurable] at hfits
      have hfixed := hfields back hback (by rw [Measurable]; omega)
      have hn := hparent front hfront (by rw [Measurable]; omega)
      have hwrap : p.fieldSizes.fixed = knownSum (p.fields.filter (·.serialized)) := by
        show Number.wrap (knownSum _) = _
        exact Number.wrap_of_inRange (by omega) (by omega)
      rw [Content.bytes_group, Content.allBytes_append, List.length_append]
      omega

end Sizes

/-- **The size of a message exists and is the number of its bytes.**  Plans that were derived with
sizes measure every well-typed message without cycles, and if it can be written then the size is
right, provided that it is one that sizes can be. -/
theorem size_eq_length {catalog : Catalog} {limit : Int} {raw : Model} {S : PlanSet}
    (hresolve : (Resolve.run catalog limit raw).succeeded = true)
    (hderive : PlanSet.derive true (Resolve.run catalog limit raw).model = .ok S) {st : Store}
    {x : Id} (hx : WellTyped (.ofSet S) st x) (hacyclic : Acyclic st x) :
    ∃ n, size (.ofSet S) st x = .ok n ∧
      ∀ d, marshal (.ofSet S) st x = .ok d → Measurable d.length → n = d.length := by
  have hm := Resolve.run_bound hresolve
  have hrt := Runtime.ofSet_sound hm hderive
  have hshallow := hacyclic.shallow hx.complete
  have hdeep : Shallow st (st.size + 1) x := fun path z h => Nat.lt_succ_of_lt (hshallow path z h)
  obtain ⟨n, hn, hsize⟩ :=
    sizeDepth_measures hrt (Runtime.ofSet_sized hm hderive) (st.size + 1) x hx hdeep
  refine ⟨n, hn, fun d hd hfits => ?_⟩
  obtain ⟨ct, hshows, rfl⟩ := shows_of_marshal hrt hd
  exact hsize ct ⟨_, hshows⟩ hfits

/-- The node with one node in it takes six bytes. -/
theorem size_eq_length_node : size Sample.runtime Sample.store 1 = .ok 6 := by
  obtain ⟨n, hn, hsize⟩ := size_eq_length Sample.resolves Sample.derives Sample.fresh.typed
    Sample.fresh.unshared.acyclic
  have hsix : n = 6 := hsize Sample.bytes Sample.marshals (by rw [Measurable]; decide)
  exact hsix ▸ hn

end Message

end WireSchema
