import Mathlib
import WireSchema.Proofs.Codec.Fresh
import WireSchema.Proofs.Message.Access

/-!
# Every message that can be reached has its form

A program makes messages, assigns fields, adds to lists, writes text and decodes bytes, in any
order; any of these may fail, and decoding may stop halfway.  None of them leaves a message without
the form that its plan promises.  Writing such a message can then fail in one way only.

Every list has storage of its own.  Where two fields are given one piece of storage with room behind
the list, what is added to one of them shows in the other, whatever the types of the two are, and
nothing here speaks of that.

## Main results

* `Reached.typed` — every message of a store that was reached has its form.
* `Reached.wellTyped_and_marshal` — writing a message that was reached succeeds exactly if its lists
  fit their counts.
-/

namespace WireSchema.Message

/-- Something that is done with the messages of a store. -/
inductive Call where
  | new (type : String)
  | set (id : Id) (field : String) (v : Offer)
  | append (id : Id) (field : String) (v : Offer) (times : Nat)
  | setText (id : Id) (field : String) (text : List UInt8)
  | unmarshal (id : Id) (bytes : List UInt8)

namespace Call

/-- The store after an assignment, which is the old one if it failed. -/
def orElse (st : Store) : Except Failure Store → Store
  | .ok st' => st'
  | .error _ => st

/-- The store after a call, successful or not. -/
def run (rt : Runtime) (st : Store) : Call → Store
  | .new type => (Message.new rt type st).2
  | .set id field v => orElse st (setField rt st id field v)
  | .append id field v times => orElse st (Message.append rt st id field v times)
  | .setText id field text => orElse st (Message.setText rt st id field text)
  | .unmarshal id bytes => (Message.unmarshal rt st id bytes).2

/-- A call mentions messages of the store only. -/
def Known (st : Store) : Call → Prop
  | .new _ => True
  | .set id _ v | .append id _ v _ => id < st.size ∧ v.Known st
  | .setText id _ _ | .unmarshal id _ => id < st.size

end Call

/-- The stores that calls lead to, starting without messages. -/
inductive Reached (rt : Runtime) : Store → Prop where
  | start : Reached rt .empty
  | call {st : Store} (before : Reached rt st) (c : Call) (known : c.Known st) :
      Reached rt (c.run rt st)

section Reached

variable {rt : Runtime} {st : Store}

theorem Call.orElse_typed {r : Except Failure Store} (h : AllTyped rt st)
    (hok : ∀ st', r = .ok st' → AllTyped rt st') : AllTyped rt (Call.orElse st r) := by
  cases r with
  | ok st' => exact hok st' rfl
  | error e => exact h

/-- **A call keeps every message in its form**, also when it fails. -/
theorem Call.run_typed (hrt : rt.Sound) (h : AllTyped rt st) (c : Call) (hknown : c.Known st) :
    AllTyped rt (c.run rt st) := by
  cases c with
  | new type =>
      cases hj : rt.position? type with
      | none =>
          rw [Call.run, Message.new, newWith, hj]
          exact h
      | some j =>
          have hmakes := new_makes hrt hj st
          exact hmakes.extends_.typedOn h hmakes.typed fun _ _ => trivial
  | set id field v => exact orElse_typed h fun st' => setField_typed hrt h hknown.2
  | append id field v times => exact orElse_typed h fun st' => append_typed hrt h hknown.2
  | setText id field text => exact orElse_typed h fun st' => setText_typed hrt h
  | unmarshal id bytes =>
      obtain ⟨c, hc⟩ := exists_cell hknown
      have hready : Ready rt (fun _ => True) ⟨st, .ofBytes bytes⟩ := ⟨fun _ _ => trivial, h, rfl⟩
      exact (decode_settles hrt hready trivial hc).typed

/-- **Every message of a store that was reached has its form.** -/
theorem Reached.typed (hrt : rt.Sound) (h : Reached rt st) : AllTyped rt st := by
  induction h with
  | start =>
      intro z c _ hc
      exact absurd (Store.lt_size hc) (Nat.not_lt_zero _)
  | call _ c hknown ih => exact Call.run_typed hrt ih c hknown

/-- Writing a well-typed message without cycles. -/
theorem marshal_writes (hrt : rt.Sound) {x : Id} (hx : WellTyped rt st x)
    (hacyclic : Acyclic st x) :
    (CountsFit rt st x ∧ ∃ d, marshal rt st x = .ok d) ∨
      (¬ CountsFit rt st x ∧ ∃ e, marshal rt st x = .error e ∧ e.cause = .countOverflow) := by
  have hshallow := hacyclic.shallow hx.complete
  have hdeep : Shallow st (st.size + 1) x := fun path z h => Nat.lt_succ_of_lt (hshallow path z h)
  rcases encode_writes hrt (st.size + 1) x hx hdeep .empty with
    ⟨hfit, w, hrun⟩ | ⟨hfit, e, w, hrun, hcause⟩
  · refine .inl ⟨hfit, w.bytes, ?_⟩
    rw [marshal, encode, hrun]
  · refine .inr ⟨hfit, e, ?_, hcause⟩
    rw [marshal, encode, hrun]

end Reached

/-- **In every store that was reached, every message has its form, and writing one without cycles
succeeds exactly if its lists fit their counts**; otherwise it reports the overflow. -/
theorem Reached.wellTyped_and_marshal {catalog : Catalog} {limit : Int} {raw : Model}
    {sized : Bool} {S : PlanSet} (hresolve : (Resolve.run catalog limit raw).succeeded = true)
    (hderive : PlanSet.derive sized (Resolve.run catalog limit raw).model = .ok S) {st : Store}
    (hreached : Reached (.ofSet S) st) {x : Id} {c : Cell} (hc : st.cell? x = some c) :
    (∃ p, CellTyped (.ofSet S) st p c ∧ c.parent?.isSome = p.hasParent) ∧
      WellTyped (.ofSet S) st x ∧
      (Acyclic st x →
        ((∃ d, marshal (.ofSet S) st x = .ok d) ↔ CountsFit (.ofSet S) st x) ∧
        ∀ e, marshal (.ofSet S) st x = .error e → e.cause = .countOverflow) := by
  have hrt := Runtime.ofSet_sound (Resolve.run_bound hresolve) hderive
  have htyped := hreached.typed hrt
  have hx := htyped.wellTyped trivial hc
  obtain ⟨⟨p, hcell⟩, -⟩ := htyped x c trivial hc
  refine ⟨⟨p, hcell, (hcell.hasParent hrt).symm⟩, hx, fun hacyclic => ?_⟩
  rcases marshal_writes hrt hx hacyclic with ⟨hfit, d, hd⟩ | ⟨hfit, e, he, hcause⟩
  · refine ⟨⟨fun _ => hfit, fun _ => ⟨d, hd⟩⟩, fun e he => ?_⟩
    rw [hd] at he
    cases he
  · refine ⟨⟨fun ⟨d, hd⟩ => ?_, fun h => absurd h hfit⟩, fun e' he' => ?_⟩
    · rw [he] at hd
      cases hd
    · rw [he] at he'
      cases he'
      exact hcause

end WireSchema.Message
