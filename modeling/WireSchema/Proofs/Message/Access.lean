import Mathlib
import WireSchema.Message.Access
import WireSchema.Proofs.Message.Construct
import WireSchema.Proofs.Message.Content
import WireSchema.Proofs.Wire.Text

/-!
# Assigning fields

What is assigned from outside is checked before it is stored, so a store whose messages all have
their form keeps them so.  The checks look at the type of an offered message by name only; an offer
is therefore taken to mention messages that exist.

## Main results

* `setField_typed`, `append_typed`, `setText_typed` — assignments keep every message in its form.
-/

namespace WireSchema.Message

open Plan (Field TextAccessor)

mutual

/-- The messages that an offered value mentions. -/
def Offer.ids : Offer → List Id
  | .datum _ => []
  | .message id => [id]
  | .noMessage => []
  | .list items => Offer.allIds items

/-- The messages that some offered values mention. -/
def Offer.allIds : List Offer → List Id
  | [] => []
  | v :: rest => v.ids ++ Offer.allIds rest

end

/-- An offered value mentions messages of the store only. -/
def Offer.Known (st : Store) (v : Offer) : Prop := ∀ id ∈ v.ids, id < st.size

/-- Every message of the store has its form. -/
abbrev AllTyped (rt : Runtime) (st : Store) : Prop := TypedOn rt st fun _ => True

section Accept

variable {rt : Runtime} {st : Store}

theorem exists_cell {id : Id} (h : id < st.size) : ∃ c, st.cell? id = some c := by
  cases hc : st.cell? id with
  | none => exact absurd h (Nat.not_lt.mpr (Store.cell?_eq_none_iff.mp hc))
  | some c => exact ⟨c, rfl⟩

/-- **What is accepted has the storage type of the element.** -/
theorem accept_typed (htyped : AllTyped rt st) {e : Element} {v : Offer} {i : Item}
    (hknown : v.Known st) (h : accept rt st e v = .ok i) : ItemTyped rt st e i := by
  cases e with
  | primitive t =>
      cases v with
      | datum d =>
          cases d with
          | scalar n =>
              simp only [accept] at h
              split at h
              · rename_i hkind
                cases h
                exact hkind
              · cases h
          | _ => cases h
      | message id => cases h
      | noMessage => cases h
      | list items => cases h
  | message type =>
      cases v with
      | message id =>
          simp only [accept] at h
          split at h
          · rename_i hname
            cases h
            obtain ⟨c, hc⟩ := exists_cell (hknown id (by simp [Offer.ids]))
            obtain ⟨p, hp⟩ := (htyped id c trivial hc).1
            rw [typeOf_eq hc hp.plan] at hname
            exact ⟨p, planOf?_eq.mpr ⟨c, hc, hp.plan⟩, hname⟩
          · cases h
      | datum d => cases h
      | noMessage => cases h
      | list items => cases h

theorem acceptAll_typed (htyped : AllTyped rt st) {e : Element} {name : String}
    (vs : List Offer) : ∀ {n : Nat} {items : List Item}, (∀ id ∈ Offer.allIds vs, id < st.size) →
      acceptAll rt st e name n vs = .ok items →
      items.length = vs.length ∧ ∀ i ∈ items, ItemTyped rt st e i := by
  induction vs with
  | nil =>
      intro n items _ h
      cases h
      exact ⟨rfl, fun i hi => absurd hi List.not_mem_nil⟩
  | cons v vs ih =>
      intro n items hknown h
      rw [Offer.allIds, List.forall_mem_append] at hknown
      rw [acceptAll] at h
      cases hv : accept rt st e v with
      | error e =>
          rw [hv] at h
          cases h
      | ok i =>
          cases hvs : acceptAll rt st e name (n + 1) vs with
          | error e =>
              rw [hv, hvs] at h
              cases h
          | ok rest =>
              rw [hv, hvs] at h
              cases h
              obtain ⟨hlen, hall⟩ := ih hknown.2 hvs
              refine ⟨by simp [hlen], List.forall_mem_cons.mpr ⟨?_, hall⟩⟩
              exact accept_typed htyped hknown.1 hv

theorem map_eq_ok {ε α β : Type} {x : Except ε α} {f : α → β} {b : β} (h : x.map f = .ok b) :
    ∃ a, x = .ok a ∧ b = f a := by
  cases x with
  | error e => cases h
  | ok a =>
      cases h
      exact ⟨a, rfl, rfl⟩

theorem mapError_eq_ok {ε ε' α : Type} {x : Except ε α} {f : ε → ε'} {a : α}
    (h : x.mapError f = .ok a) : x = .ok a := by
  cases x with
  | error e => cases h
  | ok b =>
      cases h
      rfl

/-- **What is accepted has the storage type of the field.** -/
theorem acceptField_typed (htyped : AllTyped rt st) {f : Field}
    (hfixed : ∀ n, f.shape = .fixedList n → f.length = n ∧ rt.makes n = true) {name : String}
    {o : Offer} {v : Value} (hknown : o.Known st) (h : acceptField rt st name f o = .ok v) :
    ValueTyped rt st f v := by
  unfold acceptField at h
  split at h
  · cases h
  · unfold ValueTyped
    cases hshape : f.shape with
    | primitive | reference =>
        simp only [Field.isList, Field.isFixedList, Field.isVariableList, hshape] at h
        obtain ⟨i, hi, rfl⟩ := map_eq_ok h
        exact accept_typed htyped hknown (mapError_eq_ok hi)
    | fixedList n =>
        obtain ⟨hlen, hmax⟩ := hfixed n hshape
        simp only [Field.isList, Field.isFixedList, hshape, Bool.true_or, if_true] at h
        cases o with
        | list items =>
            simp only [Bool.true_and, decide_eq_true_eq] at h
            split at h
            · cases h
            · rename_i hsame
              obtain ⟨is, his, rfl⟩ := map_eq_ok h
              obtain ⟨hislen, hall⟩ :=
                acceptAll_typed htyped items (by simpa [Offer.Known, Offer.ids] using hknown) his
              exact ⟨by rw [hislen]; omega, hmax, hall⟩
        | datum d => cases h
        | message id => cases h
        | noMessage => cases h
    | variableList =>
        simp only [Field.isList, Field.isFixedList, Field.isVariableList, hshape] at h
        cases o with
        | list items =>
            obtain ⟨is, his, rfl⟩ := map_eq_ok h
            exact (acceptAll_typed htyped items
              (by simpa [Offer.Known, Offer.ids] using hknown) his).2
        | datum d => cases h
        | message id => cases h
        | noMessage => cases h

end Accept

/-! ## Assignments -/

section Assign

variable {rt : Runtime} {st st' : Store}

theorem field?_mem {p : Plan} {name : String} {f : Field} (h : p.field? name = some f) :
    f ∈ p.fields ∧ f.name = name :=
  ⟨List.mem_of_find?_eq_some h, by simpa using List.find?_some h⟩

/-- A field that is a fixed list. -/
theorem fixedList_sound {p : Plan} {f : Field} (h : f.Sound p) {n : Int}
    (hshape : f.shape = .fixedList n) : f.length = n ∧ 0 < n ∧ f.stored = true := by
  cases h with
  | fixedList n' hshape' hlength hpos hstored =>
      rw [hshape] at hshape'
      cases hshape'
      exact ⟨hlength, hpos, hstored⟩
  | number t hshape' | count t l hshape' | reference type hshape' | variableList k hshape' =>
      rw [hshape] at hshape'
      cases hshape'

/-- Fixed lists in a message of its form have the declared length. -/
theorem CellTyped.fixedLength {p : Plan} {d : Cell} (hp : p.Sound) (h : CellTyped rt st p d)
    {f : Field} (hf : f ∈ p.fields) :
    ∀ n, f.shape = .fixedList n → f.length = n ∧ rt.makes n = true := by
  intro n hshape
  obtain ⟨hlength, -, hstored⟩ := fixedList_sound (hp.field f hf) hshape
  obtain ⟨v, -, htyped⟩ := h.stored f hf hstored
  obtain ⟨items, -, -, hmax, -⟩ := htyped.fixedList hshape
  exact ⟨hlength, hmax⟩

/-- The part that declares a field. -/
theorem owner?_spec (htyped : AllTyped rt st) {id part : Id} {field : String} {f : Field}
    (h : owner? rt st id field = some (part, f)) :
    ∃ p d, st.cell? part = some d ∧ CellTyped rt st p d ∧ f ∈ p.fields ∧ f.name = field := by
  obtain ⟨part', -, hpick⟩ := List.exists_of_findSome?_eq_some h
  rw [Option.map_eq_some_iff] at hpick
  obtain ⟨f', hf', heq⟩ := hpick
  cases heq
  rw [Option.bind_eq_some_iff] at hf'
  obtain ⟨p, hp, hfield⟩ := hf'
  obtain ⟨d, hd, hplan⟩ := planOf?_eq.mp hp
  obtain ⟨p', hcell⟩ := (htyped part d trivial hd).1
  obtain rfl : p' = p := Option.some.inj (hcell.plan.symm.trans hplan)
  exact ⟨p', d, hd, hcell, field?_mem hfield⟩

/-- **Assigning a field keeps every message in its form.** -/
theorem setField_typed (hrt : rt.Sound) (htyped : AllTyped rt st) {id : Id} {field : String}
    {v : Offer} (hknown : v.Known st) (h : setField rt st id field v = .ok st') :
    AllTyped rt st' := by
  unfold setField at h
  cases howner : owner? rt st id field with
  | none =>
      rw [howner] at h
      cases h
  | some r =>
      obtain ⟨part, f⟩ := r
      obtain ⟨p, d, hd, hcell, hf, -⟩ := owner?_spec htyped howner
      have hp := hrt.plan hcell.plan
      simp only [howner, setPart] at h
      cases haccept : acceptField rt st (rt.typeOf st part ++ "." ++ f.name) f v with
      | error e =>
          rw [haccept] at h
          cases h
      | ok w =>
          rw [haccept] at h
          cases h
          exact htyped.put trivial hd hcell hp.nodup hf
            (acceptField_typed htyped (hcell.fixedLength hp hf) hknown haccept)
            fun _ _ => trivial

/-- **Adding to a list keeps every message in its form.** -/
theorem append_typed (hrt : rt.Sound) (htyped : AllTyped rt st) {id : Id} {field : String}
    {v : Offer} {times : Nat} (hknown : v.Known st)
    (h : append rt st id field v times = .ok st') : AllTyped rt st' := by
  unfold append at h
  cases howner : owner? rt st id field with
  | none =>
      rw [howner] at h
      cases h
  | some r =>
      obtain ⟨part, f⟩ := r
      obtain ⟨p, d, hd, hcell, hf, rfl⟩ := owner?_spec htyped howner
      have hp := hrt.plan hcell.plan
      simp only [howner] at h
      split at h
      · cases h
      · rename_i hvar
        have hshape : f.shape = .variableList := by simpa [Field.isVariableList] using hvar
        cases haccept : accept rt st f.elem v with
        | error e =>
            rw [haccept] at h
            cases h
        | ok i =>
            have hdcell : st.cell part = .ok d := by rw [Store.cell, hd]
            rw [haccept, hdcell] at h
            cases h
            have hi := accept_typed htyped hknown haccept
            refine htyped.put trivial hd hcell hp.nodup hf ?_ fun _ _ => trivial
            unfold ValueTyped
            rw [hshape]
            intro j hj
            rcases List.mem_append.mp hj with hj | hj
            · obtain ⟨items, hv, hlist⟩ := Cell.value?_of_mem_list hj
              obtain ⟨items', heq, hall⟩ := (hcell.value hp hf hv).variableList hshape
              cases heq
              exact hall j (hlist ▸ hj)
            · rw [(List.mem_replicate.mp hj).2]
              exact hi

/-- A text accessor belongs to the plan of a part. -/
theorem accessor_found {id part : Id} {field : String} {acc : TextAccessor}
    (h : accessor rt st id field = .ok (part, acc)) :
    part ∈ st.parts id ∧ acc.field = field ∧
      ∃ p, rt.planOf? st part = some p ∧ acc ∈ p.accessors := by
  unfold accessor at h
  cases hfound : (st.parts id).findSome? fun part =>
      ((rt.planOf? st part).bind fun p => p.accessors.find? (·.field == field)).map (part, ·) with
  | none =>
      simp only [hfound] at h
      cases h
  | some r =>
      simp only [hfound] at h
      cases h
      obtain ⟨part', hpart, hpick⟩ := List.exists_of_findSome?_eq_some hfound
      rw [Option.map_eq_some_iff] at hpick
      obtain ⟨acc', hacc, heq⟩ := hpick
      cases heq
      rw [Option.bind_eq_some_iff] at hacc
      obtain ⟨p, hp, hacc⟩ := hacc
      exact ⟨hpart, by simpa using List.find?_some hacc, p, hp, List.mem_of_find?_eq_some hacc⟩

/-- The part that has a text accessor, and the field it is for. -/
theorem accessor_spec (hrt : rt.Sound) (htyped : AllTyped rt st) {id part : Id} {field : String}
    {acc : TextAccessor} (h : accessor rt st id field = .ok (part, acc)) :
    ∃ p d f, st.cell? part = some d ∧ CellTyped rt st p d ∧ f ∈ p.fields ∧ f.name = field ∧
      f.shape = .fixedList acc.length ∧ f.elem = .primitive acc.type := by
  obtain ⟨-, hfield, p, hp, hacc⟩ := accessor_found h
  obtain ⟨d, hd, hplan⟩ := planOf?_eq.mp hp
  obtain ⟨p', hcell⟩ := (htyped part d trivial hd).1
  obtain rfl : p' = p := Option.some.inj (hcell.plan.symm.trans hplan)
  obtain ⟨f, hf, hname, hshape, helem⟩ := (hrt.plan hplan).accessor acc hacc
  exact ⟨p', d, f, hd, hcell, hf, hname.trans hfield, hshape, helem⟩

/-- **Writing text keeps every message in its form.** -/
theorem setText_typed (hrt : rt.Sound) (htyped : AllTyped rt st) {id : Id} {field : String}
    {s : List UInt8} (h : setText rt st id field s = .ok st') : AllTyped rt st' := by
  unfold setText at h
  cases hacc : accessor rt st id field with
  | error e =>
      rw [hacc] at h
      cases h
  | ok r =>
      obtain ⟨part, acc⟩ := r
      rw [hacc] at h
      cases h
      obtain ⟨p, d, f, hd, hcell, hf, rfl, hshape, helem⟩ := accessor_spec hrt htyped hacc
      have hp := hrt.plan hcell.plan
      obtain ⟨-, hpos, -⟩ := fixedList_sound (hp.field f hf) hshape
      refine htyped.put trivial hd hcell hp.nodup hf ?_ fun _ _ => trivial
      unfold ValueTyped
      rw [hshape, helem]
      refine ⟨?_, (hcell.fixedLength hp hf _ hshape).2, fun i hi => ?_⟩
      · rw [List.length_map, Wire.length_copyText, List.length_replicate]
        omega
      · obtain ⟨b, -, rfl⟩ := List.mem_map.mp hi
        exact Wire.kind_ofWord _ _

end Assign

end WireSchema.Message
