import Mathlib
import WireSchema.Proofs.Codec.Fresh
import WireSchema.Proofs.Message.Causes
import WireSchema.Proofs.Plan.Total
import WireSchema.Proofs.Plan.Types

/-!
# Plans of a resolved model are closed and decodable

Resolution, the checks of a type and derivation each look at another part of the same conditions.
Together they leave no gap: once a model resolves, its plans can be derived, and what is accepted
can be run without looking at the model again.

## Main result

* `derive_closed` — derivation succeeds, the accepted plans pair counts and lists, mention accepted
  plans only and are linked to their parents, and the decoder over them never misses a count.
-/

namespace WireSchema.Message

/-- **The plans of a resolved model can be derived, are closed and can be decoded.** -/
theorem derive_closed {catalog : Catalog} {limit : Int} {raw : Model} (sized : Bool)
    (hresolve : (Resolve.run catalog limit raw).succeeded = true) :
    (∀ (i : Nat) (c : Class), (Resolve.run catalog limit raw).model.classes[i]? = some c →
      (Plan.check sized (Resolve.run catalog limit raw).model i c).hasErrors = false →
      ∃ p, Plan.derive sized (Resolve.run catalog limit raw).model c = .ok p) ∧
    ∃ S, PlanSet.derive sized (Resolve.run catalog limit raw).model = .ok S ∧
      (∀ p ∈ S.accepted,
        Plan.Paired p.decode ∧
        (∀ type ∈ p.usedTypes, ∃ q ∈ S.accepted, q.name = type ∧ S.plan? type = some q) ∧
        (p.hasParent = true → ∃ j q, p.parent? = some j ∧ S.accepted[j]? = some q ∧
          q.name = p.parentName ∧ S.plan? p.parentName = some q)) ∧
      ∀ y s e t, decode (.ofSet S) y s = (.error e, t) →
        ∀ count field, e.cause ≠ .countMissing count field := by
  have hm := Resolve.run_bound hresolve
  have hdefaults := Resolve.run_defaults hresolve
  obtain ⟨S, hderive⟩ := PlanSet.derive_total hm hdefaults sized
  refine ⟨fun i c hc hcheck => Plan.derive_total hm hdefaults hc hcheck, S, hderive, ?_, ?_⟩
  · intro p hp
    obtain ⟨q, hq⟩ := List.mem_iff_getElem?.mp hp
    obtain ⟨i, c, hmember⟩ := PlanSet.exists_member hderive hq
    have hsound := (Runtime.derived_of_member hm hmember).1.sound hm hmember.cls hmember.checked
    exact ⟨hsound.paired, fun type htype => PlanSet.usedTypes_accepted hm hderive hmember htype,
      hmember.parent_linked hm hderive⟩
  · intro y s e t h
    exact decode_not_countMissing (Runtime.ofSet_sound hm hderive) h

/-- The plan of nodes reads the count of the nodes in a node before these, and mentions the plans of
nodes and of their parent. -/
theorem derive_closed_nodes :
    Sample.plans.accepted.map (·.usedTypes.eraseDups) = [[], ["Base", "Node"]] ∧
      ∀ p ∈ Sample.plans.accepted, Plan.Paired p.decode ∧
        ∀ type ∈ p.usedTypes, ∃ q ∈ Sample.plans.accepted, q.name = type := by
  obtain ⟨-, S, hderive, hplans, -⟩ := derive_closed true Sample.resolves
  obtain rfl : S = Sample.plans := Except.ok.inj (hderive.symm.trans Sample.derives)
  refine ⟨by decide +kernel, fun p hp => ?_⟩
  obtain ⟨hpaired, hused, -⟩ := hplans p hp
  exact ⟨hpaired, fun type htype => by
    obtain ⟨q, hq, hname, -⟩ := hused type htype
    exact ⟨q, hq, hname⟩⟩

end WireSchema.Message
