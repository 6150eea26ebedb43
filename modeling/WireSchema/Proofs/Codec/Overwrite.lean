import Mathlib
import WireSchema.Proofs.Codec.Delimited
import WireSchema.Proofs.Codec.RoundTrip
import WireSchema.Proofs.Message.Alike

/-!
# Decoding replaces what was there

What a message held on the wire before it is decoded does not matter: not for whether decoding
succeeds, not for how many bytes it takes, not for what it reports, and not for what the message
holds afterwards.  A longer list or an older part leaves no trace.  What is not on the wire stays,
and so does a count whose list is not on the wire.

## Main results

* `decode_alike` — two messages of one type are decoded alike.
* `decode_overwrites` — and if they share nothing inside, they agree afterwards.
* `decode_keeps_counts` — except on counts that are read in vain.
-/

namespace WireSchema.Message

/-- **Two messages of one plan are decoded alike**, in whatever stores they are. -/
theorem decode_alike {rt : Runtime} (hrt : rt.Sound) {U U' : Id → Prop} {s s' : Input} {y y' : Id}
    (hs : Abreast rt U U' s s') (hpeers : Peers U U' s.store s'.store y y') :
    Alike SameRead (decode rt y s) (decode rt y' s') := by
  -- The depths in the two stores are different, but one that suffices for both will do.
  have hdepth := decode_eq_of_startDepth_le hrt hs.left hpeers.left
    (Nat.le_add_right (startDepth rt s) (startDepth rt s'))
  have hdepth' := decode_eq_of_startDepth_le hrt hs.right hpeers.right
    (Nat.le_add_left (startDepth rt s') (startDepth rt s))
  rw [hdepth, hdepth']
  exact (decodeDepth_alike hrt U U' _).alike s s' y y' hs hpeers

/-- **Decoding replaces what was there.**  Two well-typed messages of one type, neither of which
shares anything inside, are decoded from the same bytes.  Either both are read and take the same
bytes; then they agree on what is serialized, at every depth, while each keeps what it had in the
fields that are not.  Or both fail, and report the same. -/
theorem decode_overwrites {catalog : Catalog} {limit : Int} {raw : Model} {sized : Bool}
    {S : PlanSet} (hresolve : (Resolve.run catalog limit raw).succeeded = true)
    (hderive : PlanSet.derive sized (Resolve.run catalog limit raw).model = .ok S)
    {st st' : Store} {a b : Id} {type : String} (ha : WellTyped (.ofSet S) st a)
    (hatype : OfType (.ofSet S) st a type) (haunshared : Unshared st a)
    (hb : WellTyped (.ofSet S) st' b) (hbtype : OfType (.ofSet S) st' b type)
    (hbunshared : Unshared st' b) (bytes : List UInt8) :
    (∃ t t' r, decode (.ofSet S) a ⟨st, .ofBytes bytes⟩ = (.ok (), ⟨t, r⟩) ∧
      decode (.ofSet S) b ⟨st', .ofBytes bytes⟩ = (.ok (), ⟨t', r⟩) ∧
      (∀ n, AgreesTo (.ofSet S) t t' n a b) ∧
      (∀ n, KeepsTo (.ofSet S) n st t a) ∧ ∀ n, KeepsTo (.ofSet S) n st' t' b) ∨
    ∃ f s s', decode (.ofSet S) a ⟨st, .ofBytes bytes⟩ = (.error f, s) ∧
      decode (.ofSet S) b ⟨st', .ofBytes bytes⟩ = (.error f, s') := by
  have hrt := Runtime.ofSet_sound (Resolve.run_bound hresolve) hderive
  obtain ⟨p, hp, rfl⟩ := hatype
  obtain ⟨c, hc, hplan⟩ := planOf?_eq.mp hp
  obtain ⟨c', hc', hsame⟩ := hbtype.plan_eq hrt (hrt.named hplan)
  have hin : Reach st a a ∨ st.size ≤ a := .inl (Reach.refl st a)
  have hin' : Reach st' b b ∨ st'.size ≤ b := .inl (Reach.refl st' b)
  have hready : Ready (.ofSet S) (fun w => Reach st a w ∨ st.size ≤ w) ⟨st, .ofBytes bytes⟩ :=
    ⟨fun w hw => .inr hw, ha.typedOn, rfl⟩
  have hready' : Ready (.ofSet S) (fun w => Reach st' b w ∨ st'.size ≤ w) ⟨st', .ofBytes bytes⟩ :=
    ⟨fun w hw => .inr hw, hb.typedOn, rfl⟩
  have halike := decode_alike hrt ⟨hready, hready', rfl⟩ ⟨hin, hin', c, c', hc, hc', hsame⟩
  have hsettles := decode_settles hrt hready hin hc
  have hsettles' := decode_settles hrt hready' hin' hc'
  rw [scan_eq_scanAll hrt] at hsettles hsettles'
  rcases hrun : decode (.ofSet S) a ⟨st, .ofBytes bytes⟩ with ⟨res, t, r⟩
  rcases hrun' : decode (.ofSet S) b ⟨st', .ofBytes bytes⟩ with ⟨res', t', r'⟩
  rw [hrun] at halike hsettles
  rw [hrun'] at halike hsettles'
  cases halike with
  | failed f => exact .inr ⟨f, _, _, rfl, rfl⟩
  | done hread =>
      obtain ⟨-, rfl⟩ : _ ∧ r' = r := hread
      -- The same content was scanned for both messages, so it is what both show.
      obtain ⟨ct, rest, hscan, -, hchange⟩ := hsettles.scanned rfl (hsettles.clean () rfl)
      obtain ⟨ct', rest', hscan', -, hchange'⟩ := hsettles'.scanned rfl (hsettles'.clean () rfl)
      rw [hsame] at hscan'
      obtain ⟨rfl, -⟩ := Prod.mk.inj (Option.some.inj (hscan.symm.trans hscan'))
      obtain ⟨-, hreads⟩ := hchange haunshared
      obtain ⟨-, hreads'⟩ := hchange' hbunshared
      obtain ⟨d, hd, hdplan, -⟩ := hsettles.grows.cell a c hc
      obtain ⟨d', hd', hdplan', -⟩ := hsettles'.grows.cell b c' hc'
      have hafter : WellTyped (.ofSet S) t a := hsettles.typed.wellTyped hin hd
      have hafter' : WellTyped (.ofSet S) t' b := hsettles'.typed.wellTyped hin' hd'
      refine .inl ⟨t, t', r', rfl, rfl, fun n => ?_, fun n => hreads.keepsTo hrt n hafter,
        fun n => hreads'.keepsTo hrt n hafter'⟩
      exact agreesTo_of_shows hrt n (hreads.shows hrt _) (hreads'.shows hrt _) hafter hafter' hd hd'
        (hdplan'.trans (hsame.trans hdplan.symm))

/-- A node that was read before and a new one are decoded from the same bytes. -/
theorem decode_overwrites_node :
    ∃ t t' r, decode Sample.runtime 1 ⟨Sample.store, .ofBytes Sample.bytes⟩ = (.ok (), ⟨t, r⟩) ∧
      decode Sample.runtime 1 ⟨Sample.start, .ofBytes Sample.bytes⟩ = (.ok (), ⟨t', r⟩) ∧
      (∀ n, AgreesTo Sample.runtime t t' n 1 1) ∧
      (∀ n, KeepsTo Sample.runtime n Sample.store t 1) ∧
      ∀ n, KeepsTo Sample.runtime n Sample.start t' 1 := by
  have hold := Sample.fresh
  have hnew := new_fresh Sample.sound Sample.makes
  rcases decode_overwrites Sample.resolves Sample.derives hold.typed hold.ofType hold.unshared
    hnew.typed hnew.ofType hnew.unshared Sample.bytes with hread | ⟨f, s, s', -, hfailed⟩
  · exact hread
  · have hdecodes := Sample.decodes
    rw [show decode Sample.runtime 1 _ = _ from hfailed] at hdecodes
    cases hdecodes

namespace Tally

/-- A new tally is well-typed and shares nothing inside. -/
theorem start_fresh : Fresh runtime start 0 "Tally" := by
  have hrt : runtime.Sound := Runtime.ofSet_sound (Resolve.run_bound resolves) derives
  obtain ⟨-, -, hmade, -⟩ := computed
  exact new_fresh hrt (Prod.ext (ok_of_toOption hmade) rfl)

/-- So is one with a mark. -/
theorem marked_fresh : Fresh runtime marked 0 "Tally" := by
  obtain ⟨-, -, -, -, hleaf⟩ := computed
  obtain ⟨c, hc, hnil⟩ := Option.map_eq_some_iff.mp hleaf
  have hname : (runtime.planOf? marked 0).map (·.name) = some "Tally" := by decide +kernel
  refine ⟨marked_typed.1, Option.map_eq_some_iff.mp hname, (unshared_iff hc).mpr ?_⟩
  rw [hnil]
  exact ⟨⟨fun z hz => absurd hz List.not_mem_nil, .nil⟩, fun z hz => absurd hz List.not_mem_nil⟩

end Tally

/-- **A count whose list is not serialized is not replaced.**  A tally with a mark and a new one are
decoded from the same bytes, and still the first counts one mark and the second none. -/
theorem decode_keeps_counts :
    (Resolve.run .standard 3 Tally.schema).succeeded = true ∧
      PlanSet.derive false Tally.model = .ok Tally.plans ∧
      Fresh Tally.runtime Tally.marked 0 "Tally" ∧ Fresh Tally.runtime Tally.start 0 "Tally" ∧
      ∃ t t', unmarshal Tally.runtime Tally.marked 0 [5] = (.ok (), t) ∧
        unmarshal Tally.runtime Tally.start 0 [5] = (.ok (), t') ∧
        getField Tally.runtime t 0 "n" = .ok (.single (.scalar (.ofWord .uint8 1))) ∧
        getField Tally.runtime t' 0 "n" = .ok (.single (.scalar (.ofWord .uint8 0))) := by
  refine ⟨Tally.resolves, Tally.derives, Tally.marked_fresh, Tally.start_fresh, _, _,
    Prod.ext (ok_of_toOption ?_) rfl, Prod.ext (ok_of_toOption ?_) rfl, ok_of_toOption ?_,
    ok_of_toOption ?_⟩
  all_goals decide +kernel

end WireSchema.Message
