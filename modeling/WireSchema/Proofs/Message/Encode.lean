import Mathlib
import WireSchema.Message.Encode
import WireSchema.Proofs.Message.Action
import WireSchema.Proofs.Message.Content

/-!
# Encoding

A message that is written shows a content, and the bytes that were added are those of the content;
conversely a message that shows a content is written without failure.  A well-typed message without
cycles is written unless a list is longer than its count can say.

## Main results

* `shows_of_encode` — what was written is what the message shows.
* `encode_of_shows` — what a message shows is written.
* `encode_writes` — when writing a well-typed message fails, and why.
* `shows_of_marshal`, `marshal_of_shows` — the same for the bytes of a message.
-/

namespace WireSchema.Message

open Plan (Field DecodeStep EncodeStep)
open Wire (Writer)

/-! ## What was written is shown -/

/-- An action that succeeds adds the bytes of a content that `Q` holds of. -/
def Emits (act : Emit Unit) (Q : Content → Prop) : Prop :=
  ∀ w w', act w = (.ok (), w') → ∃ ct, Q ct ∧ w'.bytes = w.bytes ++ ct.bytes

section Shown

variable {rt : Runtime} {st : Store} {emit : Id → Emit Unit} {inner : Id → Content → Prop}

theorem writeScalar_emits (t : Primitive) (v : Item) :
    Emits (writeScalar t v) (ItemShows inner (.primitive t) v) := by
  intro w w' h
  cases v with
  | message id => cases h
  | scalar s =>
      unfold writeScalar at h
      by_cases hkind : s.kind = t.kind
      · simp only [if_pos hkind] at h
        cases h
        exact ⟨.number s, ⟨rfl, hkind⟩, by simp⟩
      · simp only [if_neg hkind] at h
        cases h

theorem writeItem_emits (hemit : ∀ id, Emits (emit id) (inner id)) (e : Element) (v : Item) :
    Emits (writeItem emit e v) (ItemShows inner e v) := by
  cases e with
  | primitive t => exact writeScalar_emits t v
  | message type =>
      cases v with
      | message id => exact hemit id
      | scalar s =>
          intro w w' h
          cases h

/-- Writing one thing after another emits their contents in order. -/
theorem forM_emits {α : Type} {act : α → Emit Unit} {Q : α → Content → Prop} (l : List α)
    (hact : ∀ a ∈ l, Emits (act a) (Q a)) :
    ∀ w w', l.forM act w = (.ok (), w') →
      ∃ parts, List.Forall₂ Q l parts ∧ w'.bytes = w.bytes ++ Content.allBytes parts := by
  induction l with
  | nil =>
      intro w w' h
      cases h
      exact ⟨[], .nil, by simp⟩
  | cons a l ih =>
      intro w w' h
      obtain ⟨_, w₁, hfirst, hrest⟩ := Action.bind_eq_ok.mp h
      obtain ⟨ct, hct, hbytes⟩ := hact a List.mem_cons_self w w₁ hfirst
      obtain ⟨parts, hparts, hmore⟩ :=
        ih (fun b hb => hact b (List.mem_cons_of_mem _ hb)) w₁ w' hrest
      refine ⟨ct :: parts, .cons hct hparts, ?_⟩
      rw [hmore, hbytes, Content.allBytes_cons, List.append_assoc]

theorem encodeStep_emits (hemit : ∀ id, Emits (emit id) (inner id)) (c : Cell)
    (step : DecodeStep) : Emits (encodeStep emit c step.write) (StepShows true inner c step) := by
  intro w w' h
  cases step with
  | parent name =>
      cases hq : c.parent? with
      | none =>
          simp only [DecodeStep.write, encodeStep, hq] at h
          cases h
      | some q =>
          simp only [DecodeStep.write, encodeStep, hq] at h
          obtain ⟨ct, hct, hbytes⟩ := hemit q w w' h
          exact ⟨ct, ⟨q, hq, hct⟩, hbytes⟩
  | primitive f t =>
      cases hv : c.value? f with
      | none =>
          simp only [DecodeStep.write, encodeStep, hv] at h
          cases h
      | some v =>
          cases v with
          | list items =>
              simp only [DecodeStep.write, encodeStep, hv] at h
              cases h
          | single v =>
              simp only [DecodeStep.write, encodeStep, hv] at h
              obtain ⟨ct, hct, hbytes⟩ := writeScalar_emits t v w w' h
              exact ⟨ct, ⟨v, hv, hct⟩, hbytes⟩
  | count f list t discard =>
      simp only [DecodeStep.write, encodeStep] at h
      by_cases hover : t.kind.maxCount < (c.list list).length
      · simp only [if_pos hover] at h
        cases h
      · simp only [if_neg hover] at h
        cases h
        exact ⟨.number _, ⟨_, rfl, fun _ => ⟨rfl, Nat.le_of_not_lt hover⟩⟩, by simp⟩
  | reference f cls =>
      simp only [DecodeStep.write, encodeStep, Cell.message] at h
      cases hv : c.value? f with
      | none =>
          rw [hv] at h
          cases h
      | some v =>
          rw [hv] at h
          cases v with
          | list items => cases h
          | single v =>
              cases v with
              | scalar s => cases h
              | message id =>
                  obtain ⟨ct, hct, hbytes⟩ := hemit id w w' h
                  exact ⟨ct, ⟨id, hv, hct⟩, hbytes⟩
  | fixedList f n e | variableList f e count =>
      obtain ⟨parts, hparts, hbytes⟩ :=
        forM_emits (c.list f) (fun v _ => writeItem_emits hemit e v) w w' h
      exact ⟨.group parts, ⟨parts, rfl, hparts⟩, by simpa using hbytes⟩

/-- **What was written is what the message shows.** -/
theorem shows_of_encode (hrt : rt.Sound) (n : Nat) :
    ∀ x, Emits (encodeDepth rt st n x) (Shows true rt st n x) := by
  induction n with
  | zero =>
      intro x w w' h
      cases h
  | succ n ih =>
      intro x w w' h
      unfold encodeDepth encodeWith at h
      cases hp : rt.planOf? st x with
      | none =>
          simp only [Runtime.planOf, hp, Action.run_bind, Action.run_lift] at h
          cases h
      | some p =>
          obtain ⟨c, hc, hplan⟩ := planOf?_eq.mp hp
          simp only [Runtime.planOf, hp, Store.cell, hc, Action.run_bind, Action.run_lift] at h
          rw [(hrt.plan hplan).encode] at h
          have hsteps : ∀ step ∈ p.decode, Emits
              (within ("encode " ++ p.name) (encodeStep (encodeDepth rt st n) c step.write))
              (StepShows true (Shows true rt st n) c step) := by
            intro step _ v v' hrun
            exact encodeStep_emits ih c step v v' (Action.within_eq_ok.mp hrun)
          rw [List.forM_eq_forM, List.forM_map, ← List.forM_eq_forM] at h
          obtain ⟨parts, hparts, hbytes⟩ := forM_emits p.decode hsteps w w' h
          exact ⟨.group parts, ⟨p, c, parts, hp, hc, rfl, hparts⟩, by simpa using hbytes⟩

end Shown

/-! ## What is shown is written -/

/-- An action succeeds and adds certain bytes. -/
def Adds (act : Emit Unit) (bytes : List UInt8) : Prop :=
  ∀ w, ∃ w', act w = (.ok (), w') ∧ w'.bytes = w.bytes ++ bytes

section Written

variable {rt : Runtime} {st : Store} {emit : Id → Emit Unit} {inner : Id → Content → Prop}

theorem writeScalar_adds {t : Primitive} {v : Item} {ct : Content}
    (h : ItemShows inner (.primitive t) v ct) : Adds (writeScalar t v) ct.bytes := by
  intro w
  cases v with
  | message id => exact h.elim
  | scalar s =>
      obtain ⟨rfl, hkind⟩ := h
      exact ⟨w.scalar s, by simp [writeScalar, hkind], by simp⟩

theorem writeItem_adds (hemit : ∀ id ct, inner id ct → Adds (emit id) ct.bytes) {e : Element}
    {v : Item} {ct : Content} (h : ItemShows inner e v ct) :
    Adds (writeItem emit e v) ct.bytes := by
  cases e with
  | primitive t => exact writeScalar_adds h
  | message type =>
      cases v with
      | message id => exact hemit id ct h
      | scalar s => exact h.elim

theorem forM_adds {α : Type} {act : α → Emit Unit} {l : List α} {parts : List Content}
    (h : List.Forall₂ (fun a ct => Adds (act a) ct.bytes) l parts) :
    Adds (l.forM act) (Content.allBytes parts) := by
  induction h with
  | nil => exact fun w => ⟨w, rfl, by simp⟩
  | cons hhead _ ih =>
      intro w
      obtain ⟨w₁, hfirst, hbytes⟩ := hhead w
      obtain ⟨w₂, hrest, hmore⟩ := ih w₁
      refine ⟨w₂, (Action.run_bind_ok hfirst).trans hrest, ?_⟩
      rw [hmore, hbytes, Content.allBytes_cons, List.append_assoc]

theorem encodeStep_adds (hemit : ∀ id ct, inner id ct → Adds (emit id) ct.bytes) {c : Cell}
    {step : DecodeStep} {ct : Content} (h : StepShows true inner c step ct) :
    Adds (encodeStep emit c step.write) ct.bytes := by
  cases step with
  | parent name =>
      obtain ⟨q, hq, hshow⟩ := h
      simp only [DecodeStep.write, encodeStep, hq]
      exact hemit q ct hshow
  | primitive f t =>
      obtain ⟨v, hv, hshow⟩ := h
      simp only [DecodeStep.write, encodeStep, hv]
      exact writeScalar_adds hshow
  | count f list t discard =>
      obtain ⟨s, rfl, hcount⟩ := h
      obtain ⟨hs, hfits⟩ := hcount (.inl rfl)
      intro w
      refine ⟨w.scalar s, ?_, by simp⟩
      simp only [DecodeStep.write, encodeStep, if_neg (Nat.not_lt.mpr hfits), ← hs]
      rfl
  | reference f cls =>
      obtain ⟨id, hv, hshow⟩ := h
      intro w
      obtain ⟨w', hrun, hbytes⟩ := hemit id ct hshow w
      refine ⟨w', ?_, hbytes⟩
      have hmessage : c.message f = .ok id := by simp [Cell.message, hv]
      simp only [DecodeStep.write, encodeStep, hmessage]
      exact hrun
  | fixedList f n e | variableList f e count =>
      obtain ⟨parts, rfl, hshow⟩ := h
      rw [Content.bytes_group]
      exact forM_adds (hshow.imp fun v ct hv => writeItem_adds hemit hv)

/-- **What a message shows is written.** -/
theorem encode_of_shows (hrt : rt.Sound) (n : Nat) :
    ∀ x ct, Shows true rt st n x ct → Adds (encodeDepth rt st n x) ct.bytes := by
  induction n with
  | zero =>
      intro x ct h
      exact h.elim
  | succ n ih =>
      intro x ct h w
      obtain ⟨p, c, parts, hp, hc, rfl, hsteps⟩ := h
      obtain ⟨c', hc', hplan⟩ := planOf?_eq.mp hp
      have hadds : Adds (p.decode.forM fun step =>
          within ("encode " ++ p.name) (encodeStep (encodeDepth rt st n) c step.write))
          (Content.allBytes parts) := by
        refine forM_adds (hsteps.imp fun step ct hstep w => ?_)
        obtain ⟨w', hrun, hbytes⟩ := encodeStep_adds ih hstep w
        exact ⟨w', Action.within_eq_ok.mpr hrun, hbytes⟩
      obtain ⟨w', hrun, hbytes⟩ := hadds w
      refine ⟨w', ?_, by rw [hbytes, Content.bytes_group]⟩
      unfold encodeDepth encodeWith
      simp only [Runtime.planOf, hp, Store.cell, hc, Action.run_bind, Action.run_lift]
      rw [(hrt.plan hplan).encode, List.forM_eq_forM, List.forM_map, ← List.forM_eq_forM]
      exact hrun

end Written

/-! ## When writing fails -/

/-- The messages that are written when `x` is: itself, its parent part, and those in its serialized
fields, at any depth. -/
inductive Encoded (rt : Runtime) (st : Store) : Id → Id → Prop where
  | self (x : Id) : Encoded rt st x x
  | parent {x q z : Id} {c : Cell} (cell : st.cell? x = some c) (link : c.parent? = some q)
      (rest : Encoded rt st q z) : Encoded rt st x z
  | field {x y z : Id} {c : Cell} {p : Plan} {f : Field} {v : Value} (cell : st.cell? x = some c)
      (plan : rt.plans[c.plan]? = some p) (mem : f ∈ p.fields) (serialized : f.serialized = true)
      (value : c.value? f.name = some v) (link : y ∈ v.ids) (rest : Encoded rt st y z) :
      Encoded rt st x z

/-- Every serialized count of one message can say the length of its list. -/
def OwnCountsFit (rt : Runtime) (st : Store) (z : Id) : Prop :=
  ∀ p c f t, rt.planOf? st z = some p → st.cell? z = some c → f ∈ p.fields →
    f.serialized = true → f.stored = false → f.elem = .primitive t →
    (c.list f.countOf).length ≤ t.kind.maxCount

/-- Every list that is governed by a serialized count, in every message that is written, has a
length that the count can say. -/
def CountsFit (rt : Runtime) (st : Store) (x : Id) : Prop :=
  ∀ z, Encoded rt st x z → OwnCountsFit rt st z

/-- An action succeeds exactly if something fits, and otherwise reports a list too long for its
count. -/
def Writes (act : Emit Unit) (fits : Prop) : Prop :=
  ∀ w, (fits ∧ ∃ w', act w = (.ok (), w')) ∨
    (¬ fits ∧ ∃ e w', act w = (.error e, w') ∧ e.cause = .countOverflow)

namespace Writes

variable {act : Emit Unit} {fits : Prop}

theorem congr {fits' : Prop} (h : Writes act fits) (hiff : fits ↔ fits') : Writes act fits' := by
  rw [← propext hiff]
  exact h

theorem within (place : String) (h : Writes act fits) : Writes (within place act) fits := by
  intro w
  rcases h w with ⟨hfits, w', hrun⟩ | ⟨hfits, e, w', hrun, hcause⟩
  · exact .inl ⟨hfits, w', Action.within_eq_ok.mpr hrun⟩
  · refine .inr ⟨hfits, _, w', Action.within_eq_error hrun, ?_⟩
    simp [Failure.within, hcause]

/-- One thing after another fits if all do. -/
theorem forM {α : Type} {act : α → Emit Unit} {fits : α → Prop} (l : List α)
    (h : ∀ a ∈ l, Writes (act a) (fits a)) : Writes (l.forM act) (∀ a ∈ l, fits a) := by
  induction l with
  | nil => exact fun w => .inl ⟨fun a ha => absurd ha List.not_mem_nil, w, rfl⟩
  | cons a l ih =>
      intro w
      rcases h a List.mem_cons_self w with ⟨hfits, w₁, hrun⟩ | ⟨hfits, e, w₁, hrun, hcause⟩
      · rcases ih (fun b hb => h b (List.mem_cons_of_mem _ hb)) w₁ with
          ⟨hrest, w₂, hrun₂⟩ | ⟨hrest, e, w₂, hrun₂, hcause⟩
        · exact .inl ⟨List.forall_mem_cons.mpr ⟨hfits, hrest⟩, w₂,
            (Action.run_bind_ok hrun).trans hrun₂⟩
        · exact .inr ⟨fun hall => hrest (List.forall_mem_cons.mp hall).2, e, w₂,
            (Action.run_bind_ok hrun).trans hrun₂, hcause⟩
      · exact .inr ⟨fun hall => hfits (List.forall_mem_cons.mp hall).1, e, w₁,
          Action.run_bind_error hrun, hcause⟩

end Writes

/-- The steps of a plan: the parent's, and one for each serialized field. -/
theorem mem_decode {p : Plan} (hp : p.Sound) {step : DecodeStep} :
    step ∈ p.decode ↔ (p.hasParent = true ∧ step = .parent p.parentName) ∨
      ∃ f ∈ p.fields, f.serialized = true ∧ step = f.step (p.discardsCount f) := by
  rw [hp.decode, List.mem_append]
  refine or_congr ?_ ?_
  · unfold Plan.parentSteps
    cases p.hasParent <;> simp
  · simp only [List.mem_map, List.mem_filter]
    constructor
    · rintro ⟨f, ⟨hf, hser⟩, rfl⟩
      exact ⟨f, hf, hser, rfl⟩
    · rintro ⟨f, hf, hser, rfl⟩
      exact ⟨f, ⟨hf, hser⟩, rfl⟩

theorem mem_encode {p : Plan} (hp : p.Sound) {step : EncodeStep} :
    step ∈ p.encode ↔ (p.hasParent = true ∧ step = .parent p.parentName) ∨
      ∃ f ∈ p.fields, f.serialized = true ∧ step = (f.step (p.discardsCount f)).write := by
  rw [hp.encode, List.mem_map]
  constructor
  · rintro ⟨step, hstep, rfl⟩
    rcases (mem_decode hp).mp hstep with ⟨hhas, rfl⟩ | ⟨f, hf, hser, rfl⟩
    · exact .inl ⟨hhas, rfl⟩
    · exact .inr ⟨f, hf, hser, rfl⟩
  · rintro (⟨hhas, rfl⟩ | ⟨f, hf, hser, rfl⟩)
    · exact ⟨_, (mem_decode hp).mpr (.inl ⟨hhas, rfl⟩), rfl⟩
    · exact ⟨_, (mem_decode hp).mpr (.inr ⟨f, hf, hser, rfl⟩), rfl⟩

/-- What fits at one step. -/
def StepFits (rt : Runtime) (st : Store) (c : Cell) : EncodeStep → Prop
  | .parent _ => ∀ q, c.parent? = some q → CountsFit rt st q
  | .primitive .. => True
  | .count _ list t => (c.list list).length ≤ t.kind.maxCount
  | .reference f _ | .fixedList f _ _ | .variableList f _ =>
      ∀ v, c.value? f = some v → ∀ id ∈ v.ids, CountsFit rt st id

section Fits

variable {rt : Runtime} {st : Store} {emit : Id → Emit Unit} {c : Cell} {p : Plan}

theorem list_of_value? {f : String} {items : List Item} (h : c.value? f = some (.list items)) :
    c.list f = items := by
  simp [Cell.list, h]

/-- A typed list is written item by item. -/
theorem items_writes {f : Field} {items : List Item} (hv : c.value? f.name = some (.list items))
    (htyped : ∀ i ∈ items, ItemTyped rt st f.elem i)
    (hemit : ∀ id ∈ c.children, Writes (emit id) (CountsFit rt st id)) :
    Writes ((c.list f.name).forM (writeItem emit f.elem))
      (∀ v, c.value? f.name = some v → ∀ id ∈ v.ids, CountsFit rt st id) := by
  have hitem : ∀ i ∈ items,
      Writes (writeItem emit f.elem i) (∀ id ∈ i.ids, CountsFit rt st id) := by
    intro i hi
    cases helem : f.elem with
    | primitive t =>
        obtain ⟨n, rfl, hkind⟩ :=
          (helem ▸ htyped i hi : ItemTyped rt st (.primitive t) i).exists_scalar
        intro w
        refine .inl ⟨fun id hid => absurd hid List.not_mem_nil, w.scalar n, ?_⟩
        simp [writeItem, writeScalar, hkind]
    | message type =>
        obtain ⟨id, rfl, -⟩ :=
          (helem ▸ htyped i hi : ItemTyped rt st (.message type) i).exists_message
        have hmem : id ∈ c.children := Cell.ids_subset_children hv
          (List.mem_flatMap.mpr ⟨.message id, hi, List.mem_singleton_self id⟩)
        refine (hemit id hmem).congr ⟨fun h id' hid => ?_,
          fun h => h id (List.mem_singleton_self id)⟩
        rw [List.mem_singleton.mp hid]
        exact h
  rw [list_of_value? hv]
  refine (Writes.forM items hitem).congr ⟨?_, ?_⟩
  · intro h v hv' id hid
    rw [hv] at hv'
    obtain rfl := Option.some.inj hv'
    obtain ⟨i, hi, hid⟩ := List.mem_flatMap.mp hid
    exact h i hi id hid
  · intro h i hi id hid
    exact h _ hv id (List.mem_flatMap.mpr ⟨i, hi, hid⟩)

theorem encodeStep_writes (hp : p.Sound) (hcell : CellTyped rt st p c)
    (hlinked : p.hasParent = true → p.parent?.isSome = true)
    (hemit : ∀ id ∈ c.children, Writes (emit id) (CountsFit rt st id)) {step : EncodeStep}
    (hstep : step ∈ p.encode) : Writes (encodeStep emit c step) (StepFits rt st c step) := by
  rcases (mem_encode hp).mp hstep with ⟨hhas, rfl⟩ | ⟨f, hf, hser, rfl⟩
  · have htyped := hcell.parent
    cases hq : c.parent? with
    | none =>
        rw [hq] at htyped
        have hsome := hlinked hhas
        rw [show p.parent? = none from htyped] at hsome
        cases hsome
    | some q =>
        simp only [encodeStep, hq, StepFits]
        refine (hemit q (Cell.parent_mem_children hq)).congr ⟨?_, fun h => h q rfl⟩
        rintro h q' hq'
        rw [← Option.some.inj hq']
        exact h
  · cases hp.field f hf with
    | number t hshape helem hstored =>
        obtain ⟨v, hv, htyped⟩ := hcell.stored f hf hstored
        obtain ⟨n, rfl, hkind⟩ := htyped.number hshape helem
        simp only [Field.step_number hshape helem hstored, DecodeStep.write]
        intro w
        refine .inl ⟨trivial, w.scalar n, ?_⟩
        simp [encodeStep, hv, writeScalar, hkind]
    | count t l hshape helem hunstored =>
        simp only [Field.step_count hshape helem hunstored, DecodeStep.write]
        intro w
        by_cases hover : t.kind.maxCount < (c.list f.countOf).length
        · refine .inr ⟨Nat.not_le.mpr hover, .at_ (f.countOf ++ " has " ++
            toString (c.list f.countOf).length ++ " elements, " ++ f.name ++ " holds at most " ++
            toString t.kind.maxCount) .countOverflow, w, ?_, rfl⟩
          simp only [encodeStep, if_pos hover]
          rfl
        · refine .inl ⟨Nat.le_of_not_lt hover,
            w.scalar (.ofWord t.kind (UInt64.ofNat (c.list f.countOf).length)), ?_⟩
          simp only [encodeStep, if_neg hover]
          rfl
    | reference type hshape helem hstored =>
        obtain ⟨v, hv, htyped⟩ := hcell.stored f hf hstored
        obtain ⟨id, rfl, -⟩ := htyped.message hshape helem
        simp only [Field.step_reference hshape, helem, DecodeStep.write]
        have hmessage : c.message f.name = .ok id := by simp [Cell.message, hv]
        have hmem := Cell.ids_subset_children hv (List.mem_singleton_self id)
        have hrun : encodeStep emit c (.reference f.name (Element.message type).name) =
            emit id := by
          simp only [encodeStep, hmessage]
          rfl
        rw [hrun]
        refine (hemit id hmem).congr ⟨?_, fun h => h _ hv id (List.mem_singleton_self id)⟩
        rintro h v hv' id' hid
        rw [hv] at hv'
        obtain rfl := Option.some.inj hv'
        rw [List.mem_singleton.mp hid]
        exact h
    | fixedList n hshape _ _ hstored =>
        obtain ⟨v, hv, htyped⟩ := hcell.stored f hf hstored
        obtain ⟨items, rfl, -, -, hall⟩ := htyped.fixedList hshape
        simp only [Field.step_fixedList hshape, DecodeStep.write]
        exact items_writes hv hall hemit
    | variableList k hshape hstored =>
        obtain ⟨v, hv, htyped⟩ := hcell.stored f hf hstored
        obtain ⟨items, rfl, hall⟩ := htyped.variableList hshape
        simp only [Field.step_variableList hshape, DecodeStep.write]
        exact items_writes hv hall hemit

/-- At the step of a field fit its count, if it is one, and the messages that it holds. -/
theorem stepFits_field (hp : p.Sound) (hcell : CellTyped rt st p c) {f : Field} (hf : f ∈ p.fields)
    (discard : Bool) : StepFits rt st c (f.step discard).write ↔
      (∀ t, f.stored = false → f.elem = .primitive t →
        (c.list f.countOf).length ≤ t.kind.maxCount) ∧
      ∀ v, c.value? f.name = some v → ∀ id ∈ v.ids, CountsFit rt st id := by
  -- A field of a single number holds no messages.
  have hsingle : ∀ t, f.shape = .primitive → f.elem = .primitive t →
      ∀ v, c.value? f.name = some v → ∀ id ∈ v.ids, CountsFit rt st id := by
    intro t hshape helem v hv id hid
    obtain ⟨n, rfl, -⟩ := (hcell.value hp hf hv).number hshape helem
    cases hid
  have hnocount : f.stored = true → ∀ t, f.stored = false → f.elem = .primitive t →
      (c.list f.countOf).length ≤ t.kind.maxCount := by
    intro hstored t hunstored
    rw [hstored] at hunstored
    cases hunstored
  cases hp.field f hf with
  | number t hshape helem hstored =>
      rw [Field.step_number hshape helem hstored]
      exact ⟨fun _ => ⟨hnocount hstored, hsingle t hshape helem⟩, fun _ => trivial⟩
  | count t l hshape helem hunstored =>
      rw [Field.step_count hshape helem hunstored]
      refine ⟨fun h => ⟨fun t' _ helem' => ?_, hsingle t hshape helem⟩,
        fun h => h.1 t hunstored helem⟩
      obtain rfl := Element.primitive.inj (helem.symm.trans helem')
      exact h
  | reference type hshape _ hstored =>
      rw [Field.step_reference hshape]
      exact ⟨fun h => ⟨hnocount hstored, h⟩, fun h => h.2⟩
  | fixedList n hshape _ _ hstored =>
      rw [Field.step_fixedList hshape]
      exact ⟨fun h => ⟨hnocount hstored, h⟩, fun h => h.2⟩
  | variableList k hshape hstored =>
      rw [Field.step_variableList hshape]
      exact ⟨fun h => ⟨hnocount hstored, h⟩, fun h => h.2⟩

/-- The counts of a message and of all it holds fit if they do step by step. -/
theorem countsFit_iff (hrt : rt.Sound) {x : Id} (hc : st.cell? x = some c)
    (hcell : CellTyped rt st p c) :
    (∀ step ∈ p.encode, StepFits rt st c step) ↔ CountsFit rt st x := by
  have hp := hrt.plan hcell.plan
  have hsteps : ∀ step, step ∈ p.encode ↔ _ := fun step => mem_encode hp
  constructor
  · intro h
    have hfield : ∀ f ∈ p.fields, f.serialized = true → _ := fun f hf hser =>
      (stepFits_field hp hcell hf _).mp (h _ ((hsteps _).mpr (.inr ⟨f, hf, hser, rfl⟩)))
    intro z hz
    cases hz with
    | self =>
        intro p' c' f t hp' hc' hf hser hunstored helem
        obtain rfl := Option.some.inj (hc.symm.trans hc')
        obtain rfl : p = p' :=
          Option.some.inj ((planOf?_eq.mpr ⟨c, hc, hcell.plan⟩).symm.trans hp')
        exact (hfield f hf hser).1 t hunstored helem
    | parent hc' hq hrest =>
        obtain rfl := Option.some.inj (hc.symm.trans hc')
        have hhas : p.hasParent = true := by
          rw [hcell.hasParent hrt, hq]
          rfl
        exact h _ ((hsteps _).mpr (.inl ⟨hhas, rfl⟩)) _ hq z hrest
    | field hc' hplan hf hser hv hlink hrest =>
        obtain rfl := Option.some.inj (hc.symm.trans hc')
        obtain rfl := Option.some.inj (hcell.plan.symm.trans hplan)
        exact (hfield _ hf hser).2 _ hv _ hlink z hrest
  · intro h step hstep
    rcases (hsteps step).mp hstep with ⟨-, rfl⟩ | ⟨f, hf, hser, rfl⟩
    · exact fun q hq z hz => h z (.parent hc hq hz)
    · refine (stepFits_field hp hcell hf _).mpr ⟨fun t => ?_, fun v hv id hid z hz => ?_⟩
      · exact h x (.self x) p c f t (planOf?_eq.mpr ⟨c, hc, hcell.plan⟩) hc hf hser
      · exact h z (.field hc hcell.plan hf hser hv hid hz)

/-- **A well-typed message is written unless a list is longer than its count can say.** -/
theorem encode_writes (hrt : rt.Sound) (n : Nat) : ∀ x, WellTyped rt st x → Shallow st n x →
    Writes (encodeDepth rt st n x) (CountsFit rt st x) := by
  induction n with
  | zero =>
      intro x _ hshallow
      exact absurd (hshallow [] x rfl) (Nat.not_lt_zero _)
  | succ n ih =>
      intro x hx hshallow
      obtain ⟨p, c, hc, hcell⟩ := hx.cell
      have hp := hrt.plan hcell.plan
      have hlinked : p.hasParent = true → p.parent?.isSome = true := by
        intro hhas
        obtain ⟨j, -, hj, -⟩ := hrt.parent hcell.plan hhas
        simp [hj]
      have hemit : ∀ id ∈ c.children, Writes (encodeDepth rt st n id) (CountsFit rt st id) :=
        fun id hid => ih id (hx.child hc hid) (hshallow.child hc hid)
      have hsteps := Writes.forM p.encode fun step hstep =>
        (encodeStep_writes hp hcell hlinked hemit hstep).within ("encode " ++ p.name)
      have hrun : encodeDepth rt st (n + 1) x = p.encode.forM fun step =>
          within ("encode " ++ p.name) (encodeStep (encodeDepth rt st n) c step) := by
        have hplan : rt.planOf? st x = some p := planOf?_eq.mpr ⟨c, hc, hcell.plan⟩
        funext w
        simp only [encodeDepth, encodeWith, Runtime.planOf, hplan, Store.cell, hc, Action.run_bind,
          Action.run_lift]
      rw [hrun]
      exact hsteps.congr (countsFit_iff hrt hc hcell)

end Fits

/-! ## The bytes of a message -/

section Marshal

variable {rt : Runtime} {st : Store} {x : Id}

theorem shows_of_marshal (hrt : rt.Sound) {d : List UInt8} (h : marshal rt st x = .ok d) :
    ∃ ct, Shows true rt st (st.size + 1) x ct ∧ d = ct.bytes := by
  unfold marshal at h
  rcases hrun : encode rt st x .empty with ⟨e | a, w⟩
  · rw [hrun] at h
    cases h
  · rw [hrun] at h
    cases h
    obtain ⟨ct, hshows, hbytes⟩ := shows_of_encode hrt (st.size + 1) x .empty w hrun
    exact ⟨ct, hshows, hbytes⟩

/-- A message without cycles that shows a content is written as its bytes. -/
theorem marshal_of_shows (hrt : rt.Sound) {n : Nat} {ct : Content} (hx : WellTyped rt st x)
    (hacyclic : Acyclic st x) (h : Shows true rt st n x ct) : marshal rt st x = .ok ct.bytes := by
  have hdeep : Shows true rt st (st.size + 1) x ct :=
    (h.of_shallow (hacyclic.shallow hx.complete)).mono (Nat.le_succ _)
  obtain ⟨w, hrun, hbytes⟩ := encode_of_shows hrt _ x ct hdeep .empty
  rw [marshal, encode, hrun]
  simp only [hbytes]
  rfl

end Marshal

end WireSchema.Message
