import Mathlib
import WireSchema.Proofs.Codec.Fresh

/-!
# The format is canonical

Bytes that a message was decoded from are the bytes that it is written as.  This fails only where a
count is on the wire and its list is not: such a count is read and forgotten.

## Main results

* `Shows.strict` — where no count is forgotten, decoding leaves nothing unsaid.
* `marshal_of_decode` — a decoded message is written as the bytes that were taken.
-/

namespace WireSchema

/-- Every count of the message type at `i` that is on the wire has its list on the wire. -/
def Model.CountsKept (m : Model) (i : Nat) : Prop :=
  ∀ c, m.classes[i]? = some c → ∀ a ∈ c.attributes, a.isCount = true → a.serialize = true →
    ∀ l, a.countedList?.bind m.attribute? = some l → l.serialize = true

namespace Message

open Plan (Field DecodeStep)
open Resolve (Bound)

section Strict

variable {sized : Bool} {m : Model} {S : PlanSet} {st : Store} {x : Id} {c : Cell} {i : Nat}
  {cls : Class} {p : Plan}

/-- No count step of such a type discards what it reads. -/
theorem OfClass.discard_eq_false (hm : Bound m) (h : OfClass sized m S st x c i cls p)
    (hkept : m.CountsKept i) {f list : String} {t : Primitive} {discard : Bool}
    (hstep : DecodeStep.count f list t discard ∈ p.decode) : discard = false := by
  have hd := (Runtime.derived_of_member hm h.member).1
  have hp := hd.sound hm h.member.cls h.member.checked
  rcases (mem_decode hp).mp hstep with ⟨-, heq⟩ | ⟨g, hg, hser, heq⟩
  · cases heq
  · obtain ⟨k, hk⟩ := List.mem_iff_getElem?.mp hg
    obtain ⟨a, ha, hspec⟩ := hd.exists_attribute hk
    obtain ⟨-, -, hunstored, rfl⟩ := Field.step_eq_count heq.symm
    have hcount : a.isCount = true := by simpa [hspec.stored] using hunstored
    rw [hd.discardsCount_eq hm h.member.cls h.member.checked ha hspec hcount, Plan.discards]
    cases hlist : a.countedList?.bind m.attribute? with
    | none => rfl
    | some l =>
        have hlser := hkept cls h.member.cls a (List.mem_of_getElem? ha) hcount
          (hspec.serialized ▸ hser) l hlist
        simp [hlser]

/-- **Where no count is forgotten, decoding leaves nothing unsaid.** -/
theorem Shows.strict (hm : Bound m) (hderive : PlanSet.derive sized m = .ok S) (n : Nat) :
    ∀ {x : Id} {c : Cell} {i : Nat} {cls : Class} {p : Plan} {ct : Content},
      WellTyped (.ofSet S) st x → OfClass sized m S st x c i cls p →
      (∀ j, Relation.ReflTransGen m.Uses i j → m.CountsKept j) →
      Shows false (.ofSet S) st n x ct → Shows true (.ofSet S) st n x ct := by
  induction n with
  | zero =>
      intro x c i cls p ct _ _ _ h
      exact h.elim
  | succ n ih =>
      intro x c i cls p ct hx hof hkept h
      obtain ⟨n', parts, hn, hct, hsteps⟩ := h.steps hof.cell hof.plan
      obtain rfl := Nat.succ.inj hn
      refine ⟨p, c, parts, planOf?_eq.mpr ⟨c, hof.cell, hof.plan⟩, hof.cell, hct, ?_⟩
      refine ((List.forall₂_and_left _ _).mpr ⟨fun _ h => h, hsteps⟩).imp ?_
      rintro step part ⟨hmem, hstep⟩
      have hinner : StepShows false (Shows true (.ofSet S) st n) c step part := by
        refine hstep.imp fun id ct hid hshow => ?_
        obtain ⟨j, d, cls', p'', huses, hchild⟩ := hof.child hm hderive hx hid
        exact ih (hx.child hof.cell hid) hchild
          (fun k hk => hkept k (Relation.ReflTransGen.head huses hk)) hshow
      cases step with
      | count f list t discard =>
          obtain ⟨s, hs, hcount⟩ := hinner
          refine ⟨s, hs, fun _ => hcount (.inr ?_)⟩
          exact hof.discard_eq_false hm (hkept i .refl) hmem
      | parent name => exact hinner
      | primitive f t => exact hinner
      | reference f type => exact hinner
      | fixedList f k e => exact hinner
      | variableList f e count => exact hinner

end Strict

/-- **Encoding undoes decoding.**  If decoding into a message that shares nothing succeeds, then the
message is written as exactly the bytes that were taken. -/
theorem marshal_of_decode {catalog : Catalog} {limit : Int} {raw : Model} {sized : Bool}
    {S : PlanSet} (hresolve : (Resolve.run catalog limit raw).succeeded = true)
    (hderive : PlanSet.derive sized (Resolve.run catalog limit raw).model = .ok S) {i : Nat}
    {cls : Class} (hcls : (Resolve.run catalog limit raw).model.classes[i]? = some cls)
    (hkept : ∀ j, Relation.ReflTransGen (Resolve.run catalog limit raw).model.Uses i j →
      (Resolve.run catalog limit raw).model.CountsKept j)
    {st st' : Store} {y : Id} (hy : WellTyped (.ofSet S) st y)
    (htype : OfType (.ofSet S) st y cls.name) (hunshared : Unshared st y) {bytes : List UInt8}
    {r : Wire.Reader}
    (hdecode : decode (.ofSet S) y ⟨st, .ofBytes bytes⟩ = (.ok (), ⟨st', r⟩)) :
    marshal (.ofSet S) st' y = .ok (bytes.take r.offset) := by
  have hm := Resolve.run_bound hresolve
  have hrt := Runtime.ofSet_sound hm hderive
  obtain ⟨c, p, hof⟩ := OfClass.of_name hm hderive hy hcls htype
  have hready : Ready (.ofSet S) (fun w => Reach st y w ∨ st.size ≤ w) ⟨st, .ofBytes bytes⟩ :=
    ⟨fun w hw => .inr hw, hy.typedOn, rfl⟩
  have hsettles := decode_settles hrt hready (.inl (Reach.refl st y)) hof.cell
  rw [hdecode] at hsettles
  obtain ⟨ct, rest, hscan, hadv, hread⟩ := hsettles.scanned rfl (hsettles.clean () rfl)
  obtain ⟨hchanged, hreads⟩ := hread hunshared
  obtain ⟨c', hc', hplan, -⟩ := hsettles.grows.cell y c hof.cell
  have hy' : WellTyped (.ofSet S) st' y := hsettles.typed.wellTyped (.inl (Reach.refl st y)) hc'
  have hof' : OfClass sized _ S st' y c' i cls p := .of_plan hy' hc' (hplan ▸ hof.member)
  have hshows := (hreads.shows hrt _).strict hm hderive _ hy' hof' hkept
  rw [marshal_of_shows hrt hy' hchanged.unshared.acyclic hshows]
  -- The bytes that were taken are those before the rest.
  have hbytes : bytes = ct.bytes ++ rest := scan_bytes _ _ _ _ _ _ hscan
  have hoffset : r.offset = ct.bytes.length := by
    have h := hadv.offset
    have hlen := congrArg List.length hbytes
    simp only [Wire.Reader.ofBytes, List.length_append] at h hlen
    omega
  rw [hoffset, hbytes, List.take_left]

/-- The bytes of a node are decoded into a new node and written again. -/
theorem marshal_of_decode_node :
    marshal Sample.runtime Sample.store 1 = .ok (Sample.bytes.take 6) := by
  have hkept : ∀ c ∈ Sample.model.classes, ∀ a ∈ c.attributes, a.isCount = true →
      a.serialize = true →
          (a.countedList?.bind Sample.model.attribute?).all (·.serialize) = true := by
    decide +kernel
  have hstart := new_fresh Sample.sound Sample.makes
  refine marshal_of_decode Sample.resolves Sample.derives Sample.node_at.1 ?_ hstart.typed
    (Sample.node_at.2 ▸ hstart.ofType) hstart.unshared Sample.decodes
  intro j _ c hc a ha hcount hser l hl
  have hall := hkept c (List.mem_of_getElem? hc) a ha hcount hser
  rw [show a.countedList?.bind Sample.model.attribute? = some l from hl] at hall
  exact hall

end Message

end WireSchema
