import Mathlib
import WireSchema.Proofs.Codec.Classes
import WireSchema.Proofs.Message.Decode

/-!
# Messages that a program holds

A program gets its messages from `new` and changes them by decoding.  What was made is well-typed
and shares nothing, and decoding into it keeps that, so the hypotheses that theorems about messages
have are met by every message that came about in this way.

The last section has a small schema with one message of it, for applying such theorems.

## Main results

* `new_constructed` — what a new message comes from.
* `new_fresh` — a new message is well-typed, of its type, and shares nothing.
* `decode_fresh` — so is a new message that bytes were decoded into.
-/

namespace WireSchema.Message

open Wire (maxListLength)

section Fresh

variable {rt : Runtime} {st st' : Store} {type : String} {y : Id}

/-- The items of a value. -/
def Value.items : Value → List Item
  | .single i => [i]
  | .list items => items

/-- The message `y` is well-typed, of a type, and shares nothing. -/
structure Fresh (rt : Runtime) (st : Store) (y : Id) (type : String) : Prop where
  typed : WellTyped rt st y
  ofType : OfType rt st y type
  unshared : Unshared st y

/-- What was made when a new message was. -/
theorem new_constructed (hrt : rt.Sound) (h : new rt type st = (.ok y, st')) :
    Extends st st' ∧ TypedOn rt st' (fun w => st.size ≤ w) ∧ Made st st' [y] ∧ IsNew rt st' y ∧
      ∃ c, st'.cell? y = some c ∧ rt.position? type = some c.plan := by
  cases hj : rt.position? type with
  | none =>
      rw [new, newWith, hj] at h
      cases h
  | some j =>
      have hmakes := new_constructs hrt hj st
      rw [h] at hmakes
      have hok : makeable rt (rt.plans.size + 1) j = true := by
        by_contra hno
        obtain ⟨e, he, -⟩ := hmakes.failed (by simpa using hno)
        cases he
      obtain ⟨y', hy', hmade, hnew, c, hc, rfl⟩ := hmakes.done hok
      obtain rfl := Except.ok.inj hy'
      exact ⟨hmakes.extends_, hmakes.typed, hmade, hnew, c, hc, rfl⟩

/-- A new message is made of new messages only. -/
theorem new_region (hrt : rt.Sound) (h : new rt type st = (.ok y, st')) :
    Extends st st' ∧ TypedOn rt st' (fun w => st.size ≤ w) ∧ st.size ≤ y ∧ Made st st' [y] ∧
      ∃ c, st'.cell? y = some c ∧ rt.position? type = some c.plan := by
  obtain ⟨hext, htyped, hmade, -, hcell⟩ := new_constructed hrt h
  have hy := (hmade.below y (List.mem_singleton_self y) y (Reach.refl st' y)).1
  exact ⟨hext, htyped, hy, hmade, hcell⟩

/-- **A new message is well-typed, of its type, and shares nothing.** -/
theorem new_fresh (hrt : rt.Sound) (h : new rt type st = (.ok y, st')) : Fresh rt st' y type := by
  obtain ⟨-, htyped, hy, hmade, c, hc, hpos⟩ := new_region hrt h
  obtain ⟨p, hp, hname⟩ := hrt.position hpos
  refine ⟨htyped.wellTyped hy hc, ⟨p, planOf?_eq.mpr ⟨c, hc, hp⟩, hname⟩, ?_⟩
  exact hmade.forest.1 y (List.mem_singleton_self y)

/-- A state in which bytes are about to be decoded into a new message. -/
theorem new_ready (hrt : rt.Sound) (h : new rt type st = (.ok y, st')) (bytes : List UInt8) :
    Ready rt (fun w => st.size ≤ w) ⟨st', .ofBytes bytes⟩ := by
  obtain ⟨hext, htyped, -⟩ := new_region hrt h
  exact ⟨fun w hw => hext.size_le.trans hw, htyped, rfl⟩

/-- **Decoding into a new message keeps it well-typed, of its type, and unshared.** -/
theorem decode_fresh (hrt : rt.Sound) (hnew : new rt type st = (.ok y, st')) {bytes : List UInt8}
    {st₂ : Store} {r : Wire.Reader}
    (hdecode : decode rt y ⟨st', .ofBytes bytes⟩ = (.ok (), ⟨st₂, r⟩)) : Fresh rt st₂ y type := by
  obtain ⟨-, -, hy, -, c, hc, -⟩ := new_region hrt hnew
  have hsettles := decode_settles hrt (new_ready hrt hnew bytes) hy hc
  rw [hdecode] at hsettles
  obtain ⟨ct, rest, -, -, hread⟩ := hsettles.scanned rfl (hsettles.clean () rfl)
  obtain ⟨c', hc', -⟩ := hsettles.grows.cell y c hc
  have hfresh := new_fresh hrt hnew
  exact ⟨hsettles.typed.wellTyped hy hc', hfresh.ofType.mono hsettles.grows,
    (hread hfresh.unshared).1.unshared⟩

/-- Lists that are short anyway may be read again. -/
theorem listsFit_of_cells
    (h : ∀ c ∈ st.cells.toList, ∀ e ∈ c.fields, e.2.items.length ≤ maxListLength)
    (x : Id) : ListsFit rt st x := by
  intro z p c f _ _ hc _ _ _
  cases hv : c.value? f.name with
  | none => simp [Cell.list, hv]
  | some v =>
      have hmem : c ∈ st.cells.toList := Array.mem_toList_iff.mpr (Array.mem_of_getElem? hc)
      have hshort := h c hmem _ (mem_of_value? hv)
      cases v with
      | single i => simp [Cell.list, hv]
      | list items => simpa [Cell.list, hv, Value.items] using hshort

end Fresh

/-! ## A small schema -/

theorem ok_getD {α β : Type} {x : Except α β} (h : x.toOption.isSome = true) (b : β) :
    x = .ok (x.toOption.getD b) := by
  cases x with
  | ok a => rfl
  | error e => cases h

namespace Sample

/-- Nodes of a tree: each has a number from its parent type and any number of further nodes. -/
def schema : Model where
  classes := [
    { name := "Base"
      attributes := [{ name := "id", shape := some .primitive, type := "unsigned short" }] },
    { name := "Node"
      parent := "Base"
      attributes := [
        { name := "n", shape := some .primitive, type := "unsigned byte", isCount := true,
          counts := "kids" },
        { name := "kids", shape := some .variableList, type := "Node" }] }]

/-- The schema with its names bound. -/
def model : Model := (Resolve.run .standard 3 schema).model

/-- The plans of the schema. -/
def plans : PlanSet := ((PlanSet.derive true model).toOption).getD ⟨[], [], [], .empty⟩

/-- The runtime of the schema. -/
def runtime : Runtime := .ofSet plans

/-- The store with one new node, which has the number 1 after its parent part. -/
def start : Store := (new runtime "Node" .empty).2

/-- Node 7 with one node in it, number 9. -/
def bytes : List UInt8 := [0, 7, 1, 0, 9, 0]

/-- The store after the bytes were decoded into the new node. -/
def store : Store := (unmarshal runtime start 1 bytes).2

/-- The type of nodes. -/
def node : Class := (model.classes[1]?).getD { name := "" }

/-- What the schema comes to: its plans, a new node, and the bytes read into it and written
again. -/
theorem computed :
    (Resolve.run .standard 3 schema).succeeded = true ∧
      (PlanSet.derive true (Resolve.run .standard 3 schema).model).toOption.isSome = true ∧
      (new runtime "Node" .empty).1.toOption = some 1 ∧
      (decode runtime 1 ⟨start, .ofBytes bytes⟩).1.toOption = some () ∧
      (decode runtime 1 ⟨start, .ofBytes bytes⟩).2.reader = ⟨6, [], none⟩ ∧
      (marshal runtime store 1).toOption = some bytes ∧
      (encode runtime store 1 .empty).1.toOption = some () ∧
      (encode runtime store 1 .empty).2 = ⟨bytes.toArray⟩ ∧
      model.classes[1]? = some node ∧ node.name = "Node" := by
  decide +kernel

theorem resolves : (Resolve.run .standard 3 schema).succeeded = true := computed.1

theorem derives : PlanSet.derive true (Resolve.run .standard 3 schema).model = .ok plans :=
  ok_getD computed.2.1 _

theorem makes : new runtime "Node" .empty = (.ok 1, start) := by
  obtain ⟨-, -, hnew, -⟩ := computed
  exact Prod.ext (ok_of_toOption hnew) rfl

theorem decodes : decode runtime 1 ⟨start, .ofBytes bytes⟩ = (.ok (), ⟨store, ⟨6, [], none⟩⟩) := by
  obtain ⟨-, -, -, hok, hreader, -⟩ := computed
  refine Prod.ext (ok_of_toOption hok) ?_
  exact congrArg (Input.mk store) hreader

theorem marshals : marshal runtime store 1 = .ok bytes := by
  obtain ⟨-, -, -, -, -, hbytes, -⟩ := computed
  exact ok_of_toOption hbytes

theorem encodes : encode runtime store 1 .empty = (.ok (), ⟨bytes.toArray⟩) := by
  obtain ⟨-, -, -, -, -, -, hok, hbytes, -⟩ := computed
  exact Prod.ext (ok_of_toOption hok) hbytes

theorem node_at : model.classes[1]? = some node ∧ node.name = "Node" := by
  obtain ⟨-, -, -, -, -, -, -, -, hnode⟩ := computed
  exact hnode

theorem sound : runtime.Sound := Runtime.ofSet_sound (Resolve.run_bound resolves) derives

/-- The decoded node meets what theorems about messages ask for. -/
theorem fresh : Fresh runtime store 1 "Node" := decode_fresh sound makes decodes

end Sample

end WireSchema.Message
