import Mathlib
import WireSchema.Proofs.Codec.Fresh
import WireSchema.Proofs.Message.Access

/-!
# Which messages are read again

A list is written if its count can say how long it is, and the largest counts can say a lot.  It is
read only if it is not longer than lists may announce to be.  So there are messages that are written
and cannot be read again, but no others than these: the bytes of a message are read again exactly if
none of the lists among them is too long.

`Scan` shows that lists which are short enough suffice.  Here the other direction is shown: whatever
is read from the bytes of a message, a list that is too long is not.

## Main results

* `scan_exhausts` — what is read from the bytes of a message takes all of them, and their lists fit.
* `unmarshal_iff_listsFit` — a message that is written is read again exactly if its lists fit.
* `unmarshal_refuses_crowd` — a list of sixteen million and some messages is written but not read.
-/

namespace WireSchema.Message

open Plan (Field DecodeStep)
open Wire (maxListLength)

/-- Whatever is read from the bytes of a content takes all of them, and then `P` holds. -/
def Exhausts {α : Type} (scanner : Scanner α) (ct : Content) (P : Prop) : Prop :=
  ∀ s a rest, scanner (ct.bytes ++ s) = some (a, rest) → rest = s ∧ P

section Exhausts

variable {rt : Runtime} {st : Store} {inner : Nat → Scanner Content} {p : Plan} {c : Cell}
  {shows_ : Id → Content → Prop}

theorem scanNumber_exhausts {k : Kind} {v : Scalar} (hkind : v.kind = k) {P : Prop} (h : P) :
    Exhausts (scanNumber k) (.number v) P := by
  intro s a rest hscan
  rw [scanNumber_recovers hkind s] at hscan
  cases hscan
  exact ⟨rfl, h⟩

theorem scanMany_exhausts {item : Scanner Content} {Q : Item → Prop} {items : List Item}
    {parts : List Content} (h : List.Forall₂ (fun i ct => Exhausts item ct (Q i)) items parts) :
    ∀ {s rest : List UInt8} {as : List Content},
      scanMany item parts.length (Content.allBytes parts ++ s) = some (as, rest) →
      rest = s ∧ ∀ i ∈ items, Q i := by
  induction h with
  | nil =>
      intro s rest as hscan
      rw [List.length_nil, scanMany, Content.allBytes_nil, List.nil_append] at hscan
      cases hscan
      exact ⟨rfl, fun i hi => absurd hi List.not_mem_nil⟩
  | cons hfirst _ ih =>
      intro s rest as hscan
      rw [List.length_cons, scanMany, Content.allBytes_cons, List.append_assoc,
        Option.bind_eq_some_iff] at hscan
      obtain ⟨⟨a, rest₁⟩, hhead, hscan⟩ := hscan
      obtain ⟨rfl, hQ⟩ := hfirst _ a rest₁ hhead
      obtain ⟨⟨as', rest₂⟩, hmany, heq⟩ := Option.map_eq_some_iff.mp hscan
      cases heq
      obtain ⟨rfl, hall⟩ := ih hmany
      exact ⟨rfl, List.forall_mem_cons.mpr ⟨hQ, hall⟩⟩

/-- What is known of the messages that a message holds. -/
def InnerExhausts (rt : Runtime) (st : Store) (inner : Nat → Scanner Content)
    (shows_ : Id → Content → Prop) (id : Id) : Prop :=
  ∀ ct d, shows_ id ct → st.cell? id = some d → Exhausts (inner d.plan) ct (ListsFit rt st id)

theorem InnerExhausts.of_position (hrt : rt.Sound) {id : Id} {type : String} {j : Nat}
    {ct : Content} (h : InnerExhausts rt st inner shows_ id) (htype : OfType rt st id type)
    (hj : rt.position? type = some j) (hshow : shows_ id ct) :
    Exhausts (inner j) ct (ListsFit rt st id) := by
  obtain ⟨d, hd, rfl⟩ := htype.plan_eq hrt hj
  exact h ct d hshow hd

theorem element_exhausts (hrt : rt.Sound) {e : Element} {i : Item} {ct : Content}
    (hpos : ∀ type, e = .message type → ∃ j, rt.position? type = some j)
    (hinner : ∀ id ∈ i.ids, InnerExhausts rt st inner shows_ id)
    (htyped : ItemTyped rt st e i) (hshow : ItemShows shows_ e i ct) :
    Exhausts (scanElement rt inner e) ct (∀ id ∈ i.ids, ListsFit rt st id) ∧
      Exhausts (scanNewElement rt inner e) ct (∀ id ∈ i.ids, ListsFit rt st id) := by
  cases e with
  | primitive t =>
      obtain ⟨n, rfl, hkind⟩ := htyped.exists_scalar
      obtain ⟨rfl, -⟩ := hshow
      have hnone : ∀ id ∈ (Item.scalar n).ids, ListsFit rt st id :=
        fun id hid => absurd hid List.not_mem_nil
      exact ⟨scanNumber_exhausts hkind hnone, scanNumber_exhausts hkind hnone⟩
  | message type =>
      obtain ⟨id, rfl, htype⟩ := htyped.exists_message
      obtain ⟨j, hj⟩ := hpos type rfl
      have hexhausts := (hinner id (List.mem_singleton_self id)).of_position hrt htype hj hshow
      have hscan : ∀ s a rest, inner j (ct.bytes ++ s) = some (a, rest) →
          rest = s ∧ ∀ z ∈ (Item.message id).ids, ListsFit rt st z := by
        intro s a rest h
        obtain ⟨hrest, hfit⟩ := hexhausts s a rest h
        exact ⟨hrest, List.forall_mem_singleton.mpr hfit⟩
      constructor
      · intro s a rest h
        simp only [scanElement, scanType, hj, Option.bind_some] at h
        exact hscan s a rest h
      · intro s a rest h
        simp only [scanNewElement, scanType, hj, Option.bind_some] at h
        split at h
        · exact hscan s a rest h
        · cases h

/-- The items of a list, typed and shown, one by one. -/
theorem items_exhaust (hrt : rt.Sound) {e : Element} {item : Scanner Content} {items : List Item}
    {parts as : List Content} {s rest : List UInt8}
    (hitem : item = scanElement rt inner e ∨ item = scanNewElement rt inner e)
    (hpos : ∀ type, e = .message type → ∃ j, rt.position? type = some j)
    (hinner : ∀ id ∈ (Value.list items).ids, InnerExhausts rt st inner shows_ id)
    (htyped : ∀ i ∈ items, ItemTyped rt st e i)
    (hshown : List.Forall₂ (ItemShows shows_ e) items parts)
    (hscan : scanMany item items.length (Content.allBytes parts ++ s) = some (as, rest)) :
    rest = s ∧ ∀ id ∈ (Value.list items).ids, ListsFit rt st id := by
  have hexhaust : List.Forall₂
      (fun i ct => Exhausts item ct (∀ id ∈ i.ids, ListsFit rt st id)) items parts := by
    refine ((List.forall₂_and_left _ _).mpr ⟨fun _ h => h, hshown⟩).imp ?_
    rintro i ct ⟨hi, hishow⟩
    obtain ⟨hplain, hnew⟩ := element_exhausts hrt hpos
      (fun id hid => hinner id (List.mem_flatMap.mpr ⟨i, hi, hid⟩)) (htyped i hi) hishow
    rcases hitem with rfl | rfl
    · exact hplain
    · exact hnew
  rw [hshown.length_eq] at hscan
  obtain ⟨hrest, hfits⟩ := scanMany_exhausts hexhaust hscan
  refine ⟨hrest, fun id hid => ?_⟩
  obtain ⟨i, hi, hid⟩ := List.mem_flatMap.mp hid
  exact hfits i hi id hid

/-- The lists of a field are short enough, those in the messages that it holds included. -/
structure FieldFits (rt : Runtime) (st : Store) (c : Cell) (f : Field) : Prop where
  list : f.shape = .variableList → (c.list f.name).length ≤ maxListLength
  held : ∀ v, c.value? f.name = some v → ∀ id ∈ v.ids, ListsFit rt st id

/-- The lists fit if those in the one value that is there do. -/
theorem FieldFits.of_value {f : Field} {v : Value} (hv : c.value? f.name = some v)
    (hlist : f.shape = .variableList → (c.list f.name).length ≤ maxListLength)
    (hheld : ∀ id ∈ v.ids, ListsFit rt st id) : FieldFits rt st c f := by
  refine ⟨hlist, fun v' hv' => ?_⟩
  obtain rfl := Option.some.inj (hv.symm.trans hv')
  exact hheld

theorem scanStep_exhausts (hrt : rt.Sound) {i : Nat} (hplan : rt.plans[i]? = some p)
    (hcell : CellTyped rt st p c) {pre post : List Field} {f : Field}
    (hsplit : p.fields = pre ++ f :: post) (hser : f.serialized = true)
    (hinner : ∀ v, c.value? f.name = some v → ∀ id ∈ v.ids, InnerExhausts rt st inner shows_ id)
    {counts : Counts} (hcounts : Counting p c pre counts) {ct : Content}
    (hshow : StepShows true shows_ c (f.step (p.discardsCount f)) ct) {s rest : List UInt8}
    {a : Content} {counts' : Counts}
    (hscan : scanStep rt inner p counts (f.step (p.discardsCount f)) (ct.bytes ++ s) =
      some ((a, counts'), rest)) :
    rest = s ∧ Counting p c (pre ++ [f]) counts' ∧ FieldFits rt st c f := by
  have hp := hrt.plan hplan
  have hf : f ∈ p.fields := hsplit ▸ List.mem_append_right _ List.mem_cons_self
  have hpos : ∀ type, f.elem = .message type → ∃ j, rt.position? type = some j :=
    fun type helem => hrt.elem hplan hf helem
  cases hp.field f hf with
  | number t hshape helem hstored =>
      rw [Field.step_number hshape helem hstored] at hshow hscan
      obtain ⟨v, hv, hvshow⟩ := hshow
      cases v with
      | message id => exact hvshow.elim
      | scalar n =>
          obtain ⟨rfl, hkind⟩ := hvshow
          simp only [scanStep, scanNumber_recovers hkind s, Option.map_some] at hscan
          cases hscan
          exact ⟨rfl, hcounts.skip (.inr hstored),
            .of_value hv (by simp [hshape]) fun id hid => absurd hid List.not_mem_nil⟩
  | count t l hshape helem hunstored hint hl hname =>
      rw [Field.step_count hshape helem hunstored] at hshow hscan
      obtain ⟨n, rfl, hcount⟩ := hshow
      obtain ⟨rfl, hfits⟩ := hcount (.inl rfl)
      have hread : ∀ rest, scanScalar t.kind (Wire.scalarBytes _ ++ rest) = some (_, rest) :=
        fun rest => scanScalar_eq_some.mpr
          ⟨rfl, Wire.kind_ofWord t.kind (UInt64.ofNat (c.list f.countOf).length)⟩
      simp only [scanStep, Content.bytes_number, hread, Option.map_some] at hscan
      cases hscan
      refine ⟨rfl, hcounts.read hp hsplit (Wire.toWord_ofWord hint hfits), by simp [hshape], ?_⟩
      intro v hv id hid
      obtain ⟨n, rfl, -⟩ := (hcell.value hp hf hv).number hshape helem
      cases hid
  | reference type hshape helem hstored =>
      rw [Field.step_reference hshape, helem] at hshow hscan
      obtain ⟨id, hv, hshown⟩ := hshow
      obtain ⟨id', heq, htype⟩ := (hcell.value hp hf hv).message hshape helem
      cases heq
      obtain ⟨j, hj⟩ := hpos type helem
      simp only [scanStep, scanType, Element.name, hj, Option.bind_some,
        Option.map_eq_some_iff] at hscan
      obtain ⟨⟨a', rest'⟩, hread, heq⟩ := hscan
      cases heq
      have hexhausts :=
        (hinner _ hv id (List.mem_singleton_self id)).of_position hrt htype hj hshown
      obtain ⟨rfl, hfit⟩ := hexhausts s a' rest' hread
      exact ⟨rfl, hcounts.skip (.inr hstored),
        .of_value hv (by simp [hshape]) (List.forall_mem_singleton.mpr hfit)⟩
  | fixedList n hshape hlength hpos' hstored =>
      rw [Field.step_fixedList hshape] at hshow hscan
      obtain ⟨parts, rfl, hshown⟩ := hshow
      obtain ⟨v, hv, htyped⟩ := hcell.stored f hf hstored
      obtain ⟨items, rfl, hlen, -, hall⟩ := htyped.fixedList hshape
      rw [list_of_value? hv] at hshown
      rw [scanStep, show n.toNat = items.length by omega, Content.bytes_group,
        Option.map_eq_some_iff] at hscan
      obtain ⟨⟨as, rest'⟩, hmany, heq⟩ := hscan
      cases heq
      obtain ⟨rfl, hheld⟩ := items_exhaust hrt (.inl rfl) hpos (hinner _ hv) hall hshown hmany
      exact ⟨rfl, hcounts.skip (.inr hstored), .of_value hv (by simp [hshape]) hheld⟩
  | variableList k hshape hstored =>
      obtain ⟨w, hw, hlen⟩ := hcounts.length_list hp hsplit hser hshape
      rw [Field.step_variableList hshape] at hshow hscan
      obtain ⟨parts, rfl, hshown⟩ := hshow
      obtain ⟨v, hv, htyped⟩ := hcell.stored f hf hstored
      obtain ⟨items, rfl, hall⟩ := htyped.variableList hshape
      rw [list_of_value? hv] at hshown
      rw [scanStep, hw, Option.bind_some] at hscan
      split at hscan
      · rename_i hmax
        rw [show w.toNat = items.length by rw [hlen, list_of_value? hv], Content.bytes_group,
          Option.map_eq_some_iff] at hscan
        obtain ⟨⟨as, rest'⟩, hmany, heq⟩ := hscan
        cases heq
        obtain ⟨rfl, hheld⟩ := items_exhaust hrt (.inr rfl) hpos (hinner _ hv) hall hshown hmany
        exact ⟨rfl, hcounts.skip (.inr hstored), .of_value hv (fun _ => hlen ▸ hmax) hheld⟩
      · cases hscan

/-- The fields after `pre`, from the front to the back. -/
theorem scanSteps_exhausts (hrt : rt.Sound) {i : Nat} (hplan : rt.plans[i]? = some p)
    (hcell : CellTyped rt st p c)
    (hinner : ∀ f ∈ p.fields, f.serialized = true → ∀ v, c.value? f.name = some v →
      ∀ id ∈ v.ids, InnerExhausts rt st inner shows_ id) (post : List Field) :
    ∀ {pre : List Field} {counts : Counts} {parts as : List Content} {s rest : List UInt8},
      p.fields = pre ++ post → Counting p c pre counts →
      List.Forall₂ (StepShows true shows_ c)
        ((post.filter (·.serialized)).map fun f => f.step (p.discardsCount f)) parts →
      scanSteps rt inner p counts
          ((post.filter (·.serialized)).map fun f => f.step (p.discardsCount f))
          (Content.allBytes parts ++ s) = some (as, rest) →
      rest = s ∧ ∀ f ∈ post, f.serialized = true → FieldFits rt st c f := by
  induction post with
  | nil =>
      intro pre counts parts as s rest _ _ hshows hscan
      cases hshows
      simp only [List.filter_nil, List.map_nil, scanSteps, Content.allBytes_nil,
        List.nil_append] at hscan
      cases hscan
      exact ⟨rfl, fun f hf => absurd hf List.not_mem_nil⟩
  | cons f post ih =>
      intro pre counts parts as s rest hsplit hcounts hshows hscan
      have hnext : p.fields = (pre ++ [f]) ++ post := by rw [hsplit, List.append_assoc]; rfl
      have hf : f ∈ p.fields := hsplit ▸ List.mem_append_right _ List.mem_cons_self
      cases hser : f.serialized with
      | false =>
          rw [List.filter_cons_of_neg (by simp [hser])] at hshows hscan
          obtain ⟨hrest, hfits⟩ := ih hnext (hcounts.skip (.inl hser)) hshows hscan
          refine ⟨hrest, List.forall_mem_cons.mpr ⟨fun h => ?_, hfits⟩⟩
          rw [hser] at h
          cases h
      | true =>
          rw [List.filter_cons_of_pos hser, List.map_cons] at hshows hscan
          cases hshows with
          | cons hshow hrest =>
              rw [scanSteps, Content.allBytes_cons, List.append_assoc,
                Option.bind_eq_some_iff] at hscan
              obtain ⟨⟨⟨a, counts'⟩, rest₁⟩, hfirst, hscan⟩ := hscan
              obtain ⟨rfl, hcounts', hfit⟩ := scanStep_exhausts hrt hplan hcell hsplit hser
                (hinner f hf hser) hcounts hshow hfirst
              obtain ⟨⟨as', rest₂⟩, hsteps, heq⟩ := Option.map_eq_some_iff.mp hscan
              cases heq
              obtain ⟨rfl, hfits⟩ := ih hnext hcounts' hrest hsteps
              exact ⟨rfl, List.forall_mem_cons.mpr ⟨fun _ => hfit, hfits⟩⟩

/-- The whole layout of a message: the parent's comes first, then the fields. -/
theorem scanPlan_exhausts (hrt : rt.Sound) (hcell : CellTyped rt st p c)
    (hinner : ∀ id ∈ c.children, InnerExhausts rt st inner shows_ id) {parts as : List Content}
    {s rest : List UInt8} (hshows : List.Forall₂ (StepShows true shows_ c) p.decode parts)
    (hscan : scanSteps rt inner p [] p.decode (Content.allBytes parts ++ s) = some (as, rest)) :
    rest = s ∧ (∀ q, c.parent? = some q → ListsFit rt st q) ∧
      ∀ f ∈ p.fields, f.serialized = true → FieldFits rt st c f := by
  have hfields : ∀ f ∈ p.fields, f.serialized = true → ∀ v, c.value? f.name = some v →
      ∀ id ∈ v.ids, InnerExhausts rt st inner shows_ id :=
    fun f _ _ v hv id hid => hinner id (Cell.ids_subset_children hv hid)
  have hstart : Counting p c [] [] := fun k hk => absurd hk List.not_mem_nil
  have hhas := hcell.hasParent hrt
  rw [(hrt.plan hcell.plan).decode, Plan.parentSteps, hhas] at hshows hscan
  cases hparent : c.parent? with
  | none =>
      rw [hparent] at hshows hscan
      obtain ⟨hrest, hfits⟩ := scanSteps_exhausts hrt hcell.plan hcell hfields p.fields rfl hstart
        hshows hscan
      exact ⟨hrest, fun q hq => (by cases hq), hfits⟩
  | some q =>
      rw [hparent] at hshows hscan
      cases hshows with
      | cons hshow hrest =>
          obtain ⟨q', hq', hqshow⟩ := hshow
          obtain rfl := Option.some.inj (hparent.symm.trans hq')
          have hlink := hcell.parent
          rw [hparent] at hlink
          obtain ⟨d, hd, hlink⟩ := hlink
          rw [Option.isSome_some, if_pos rfl, List.singleton_append, scanSteps,
            Content.allBytes_cons, List.append_assoc, Option.bind_eq_some_iff] at hscan
          obtain ⟨⟨⟨a, counts⟩, rest₁⟩, hfirst, hscan⟩ := hscan
          rw [scanStep, hlink, Option.bind_some, Option.map_eq_some_iff] at hfirst
          obtain ⟨⟨a', rest₂⟩, hread, heq⟩ := hfirst
          cases heq
          obtain ⟨rfl, hfit⟩ :=
            hinner q (Cell.parent_mem_children hparent) _ d hqshow hd _ a' rest₂ hread
          obtain ⟨⟨as', rest₃⟩, hsteps, heq⟩ := Option.map_eq_some_iff.mp hscan
          cases heq
          obtain ⟨rfl, hfits⟩ := scanSteps_exhausts hrt hcell.plan hcell hfields p.fields rfl hstart
            hrest hsteps
          refine ⟨rfl, fun q' hq' => ?_, hfits⟩
          obtain rfl := Option.some.inj hq'
          exact hfit

end Exhausts

/-- **What is read from the bytes of a message takes all of them, and then their lists fit.** -/
theorem scan_exhausts {rt : Runtime} {st : Store} (hrt : rt.Sound) (n : Nat) :
    ∀ {x : Id} {c : Cell} {ct : Content} (m : Nat), Shows true rt st n x ct → WellTyped rt st x →
      st.cell? x = some c → Exhausts (scan rt m c.plan) ct (ListsFit rt st x) := by
  induction n with
  | zero =>
      intro x c ct m h
      exact h.elim
  | succ n ih =>
      intro x c ct m h hx hc s a rest hscan
      obtain ⟨p, c', hc', hcell⟩ := hx.cell
      obtain rfl := Option.some.inj (hc.symm.trans hc')
      obtain ⟨n', parts, hn, rfl, hshows⟩ := h.steps hc hcell.plan
      obtain rfl := Nat.succ.inj hn
      cases m with
      | zero => cases hscan
      | succ m =>
          rw [scan, hcell.plan, Option.bind_some, Content.bytes_group,
            Option.map_eq_some_iff] at hscan
          obtain ⟨⟨as, rest'⟩, hsteps, heq⟩ := hscan
          cases heq
          obtain ⟨rfl, hparent, hfields⟩ := scanPlan_exhausts hrt hcell
            (fun id hid ct d hshow hd => ih m hshow (hx.child hc hid) hd) hshows hsteps
          refine ⟨rfl, fun z q e f hz hq he hf hser hshape => ?_⟩
          cases hz with
          | self =>
              obtain ⟨d, hd, hplan⟩ := planOf?_eq.mp hq
              obtain rfl := Option.some.inj (hc.symm.trans hd)
              obtain rfl := Option.some.inj (hc.symm.trans he)
              obtain rfl := Option.some.inj (hcell.plan.symm.trans hplan)
              exact (hfields f hf hser).list hshape
          | parent cell link hrest =>
              obtain rfl := Option.some.inj (hc.symm.trans cell)
              exact hparent _ link z q e f hrest hq he hf hser hshape
          | field cell plan mem serialized value link hrest =>
              obtain rfl := Option.some.inj (hc.symm.trans cell)
              obtain rfl := Option.some.inj (hcell.plan.symm.trans plan)
              have hfit := (hfields _ mem serialized).held _ value _ link
              exact hfit z q e f hrest hq he hf hser hshape

section Reading

variable {rt : Runtime}

/-- A new message of the type of one that is there can be made. -/
theorem WellTyped.exists_new (hrt : rt.Sound) {st : Store} {x : Id} {type : String} {c : Cell}
    (hx : WellTyped rt st x) (htype : OfType rt st x type) (hc : st.cell? x = some c)
    (st₀ : Store) :
    rt.position? type = some c.plan ∧ ∃ y st₁, new rt type st₀ = (.ok y, st₁) := by
  obtain ⟨rank, hrank⟩ := hrt.ranked
  obtain ⟨p, hp, rfl⟩ := htype
  obtain ⟨c', hc', hplan⟩ := planOf?_eq.mp hp
  obtain rfl := Option.some.inj (hc.symm.trans hc')
  have hsmall := (hrank c.plan p hplan).1
  have hmakes := new_makes hrt (hrt.named hplan) st₀
  obtain ⟨y, hy, -⟩ := hmakes.done (hx.makeable hrt hrank _ hc (Nat.lt_succ_of_lt hsmall))
  exact ⟨hrt.named hplan, y, _, Prod.ext hy rfl⟩

/-- Bytes are read into a new message exactly if something can be scanned. -/
theorem unmarshal_iff_scan (hrt : rt.Sound) {type : String} {j : Nat}
    (hj : rt.position? type = some j) {st₀ st₁ : Store} {y : Id}
    (hnew : new rt type st₀ = (.ok y, st₁)) (bytes : List UInt8) :
    (∃ st₂, unmarshal rt st₁ y bytes = (.ok (), st₂)) ↔ ∃ n r, scan rt n j bytes = some r := by
  obtain ⟨-, -, hy, -, c, hc, hpos⟩ := new_region hrt hnew
  obtain rfl : c.plan = j := Option.some.inj (hpos.symm.trans hj)
  have hsettles := decode_settles hrt (new_ready hrt hnew bytes) hy hc
  constructor
  · rintro ⟨st₂, hrun⟩
    have hok : (decode rt y ⟨st₁, .ofBytes bytes⟩).1 = .ok () := congrArg Prod.fst hrun
    obtain ⟨ct, rest, hscan, -⟩ := hsettles.scanned hok (hsettles.clean () hok)
    exact ⟨_, _, hscan⟩
  · rintro ⟨n, ⟨ct, rest⟩, hscan⟩
    obtain ⟨u, hok, -⟩ := hsettles.done ct rest (scan_startDepth hrt hscan)
    exact ⟨_, Prod.ext hok rfl⟩

end Reading

/-- **A message that is written is read again exactly if its lists fit.**  The bytes of a well-typed
message are decoded into a new message of its type if and only if every serialized variable list, in
every message that was written, has at most as many elements as a list may announce. -/
theorem unmarshal_iff_listsFit {catalog : Catalog} {limit : Int} {raw : Model} {sized : Bool}
    {S : PlanSet} (hresolve : (Resolve.run catalog limit raw).succeeded = true)
    (hderive : PlanSet.derive sized (Resolve.run catalog limit raw).model = .ok S) {st : Store}
    {x : Id} {type : String} (hx : WellTyped (.ofSet S) st x) (htype : OfType (.ofSet S) st x type)
    {d : List UInt8} (hd : marshal (.ofSet S) st x = .ok d) (st₀ : Store) :
    ∃ y st₁, new (.ofSet S) type st₀ = (.ok y, st₁) ∧
      ((∃ st₂, unmarshal (.ofSet S) st₁ y d = (.ok (), st₂)) ↔ ListsFit (.ofSet S) st x) := by
  have hrt := Runtime.ofSet_sound (Resolve.run_bound hresolve) hderive
  obtain ⟨p, c, hc, -⟩ := hx.cell
  obtain ⟨hpos, y, st₁, hnew⟩ := hx.exists_new hrt htype hc st₀
  obtain ⟨ct, hshows, rfl⟩ := shows_of_marshal hrt hd
  refine ⟨y, st₁, hnew, (unmarshal_iff_scan hrt hpos hnew ct.bytes).trans ⟨?_, fun hfit => ?_⟩⟩
  · rintro ⟨n, ⟨a, rest⟩, hscan⟩
    rw [← List.append_nil ct.bytes] at hscan
    exact (scan_exhausts hrt _ n hshows hx hc [] a rest hscan).2
  · have hscan := scan_of_shows hrt _ hshows hx hfit hc []
    rw [List.append_nil] at hscan
    exact ⟨_, _, hscan⟩

/-- The node with one node in it is read again. -/
theorem unmarshal_iff_listsFit_node : ∃ y st₁, new Sample.runtime "Node" .empty = (.ok y, st₁) ∧
    ∃ st₂, unmarshal Sample.runtime st₁ y Sample.bytes = (.ok (), st₂) := by
  obtain ⟨y, st₁, hnew, hiff⟩ := unmarshal_iff_listsFit Sample.resolves Sample.derives
    Sample.fresh.typed Sample.fresh.ofType Sample.marshals .empty
  exact ⟨y, st₁, hnew, hiff.mpr (listsFit_of_cells (by decide +kernel) 1)⟩

/-! ## A list that is too long -/

namespace Crowd

/-- Lists of messages without bytes, with a count that can say four thousand million. -/
def schema : Model where
  classes := [
    { name := "Empty" },
    { name := "Crowd"
      attributes := [
        { name := "n", shape := some .primitive, type := "unsigned int", isCount := true,
          counts := "all" },
        { name := "all", shape := some .variableList, type := "Empty" }] }]

/-- The plans of the schema. -/
def plans : PlanSet :=
  ((PlanSet.derive false (Resolve.run .standard 3 schema).model).toOption).getD ⟨[], [], [], .empty⟩

/-- The runtime of the schema. -/
def runtime : Runtime := .ofSet plans

/-- A crowd that holds the message with the number 0 `n` times. -/
def cell (n : Nat) : Cell := ⟨1, none, [("all", .list (List.replicate n (.message 0)))]⟩

/-- The store with one empty message, number 0, and the crowd that holds it `n` times, number 1. -/
def crowd (n : Nat) : Store := ⟨#[⟨0, none, []⟩, cell n]⟩

/-- The store with a new crowd, which has the number 0. -/
def start : Store := (new runtime "Crowd" .empty).2

/-- What the schema comes to: its plans, new messages of its types, and a crowd that is refused. -/
theorem computed :
    (Resolve.run .standard 3 schema).succeeded = true ∧
      (PlanSet.derive false (Resolve.run .standard 3 schema).model).toOption.isSome = true ∧
      (runtime.plans[0]?).map Plan.decode = some [] ∧
      (runtime.plans[1]?).map (fun p : Plan => (p.name, p.decode)) = some ("Crowd",
        [.count "n" "all" ⟨"unsigned int", .uint32⟩ false,
          .variableList "all" (.message "Empty") "n"]) ∧
      (new runtime "Empty" .empty).1 = .ok 0 ∧
      (new runtime "Crowd" (new runtime "Empty" .empty).2).1 = .ok 1 ∧
      (new runtime "Crowd" (new runtime "Empty" .empty).2).2 = crowd 0 ∧
      (owner? runtime (crowd 0) 1 "all").map (fun (part, f) => (part, f.isVariableList, f.elem)) =
        some (1, true, .message "Empty") ∧
      accept runtime (crowd 0) (.message "Empty") (.message 0) = .ok (.message 0) ∧
      (new runtime "Crowd" .empty).1 = .ok 0 ∧
      (unmarshal runtime start 0 [1, 0, 0, 1]).1 =
        .error (.at_ "decode Crowd.all" (.read (.shortList 0x1000001 0 4 0))) := by
  decide +kernel

theorem resolves : (Resolve.run .standard 3 schema).succeeded = true := computed.1

theorem derives : PlanSet.derive false (Resolve.run .standard 3 schema).model = .ok plans :=
  ok_getD computed.2.1 _

theorem sound : runtime.Sound := Runtime.ofSet_sound (Resolve.run_bound resolves) derives

/-- A crowd is made by adding a message to a new one. -/
theorem appends (n : Nat) : append runtime (crowd 0) 1 "all" (.message 0) n = .ok (crowd n) := by
  obtain ⟨-, -, -, -, -, -, -, howner, haccept, -⟩ := computed
  obtain ⟨⟨part, f⟩, hf, heq⟩ := Option.map_eq_some_iff.mp howner
  obtain ⟨rfl, hlist, helem⟩ : part = 1 ∧ f.isVariableList = true ∧ f.elem = .message "Empty" := by
    simpa using heq
  simp only [append, hf, hlist, helem, haccept]
  rfl

theorem crowd_typed (n : Nat) : AllTyped runtime (crowd n) := by
  have hempty : AllTyped runtime .empty :=
    fun z c _ hc => absurd (Store.lt_size hc) (Nat.not_lt_zero _)
  obtain ⟨-, -, -, -, hnew, hnew', hcrowd, -⟩ := computed
  obtain ⟨hext, htyped, -⟩ := new_region sound (Prod.ext hnew rfl)
  obtain ⟨hext', htyped', -⟩ := new_region sound (Prod.ext hnew' hcrowd)
  have hall₀ := hext.typedOn hempty htyped fun _ _ => trivial
  have hall := hext'.typedOn hall₀ htyped' fun _ _ => trivial
  refine append_typed sound hall (fun id hid => ?_) (appends n)
  obtain rfl := List.mem_singleton.mp hid
  decide

theorem crowd_acyclic (n : Nat) : Acyclic (crowd n) 1 := by
  have hempty : (crowd n).cell? 0 = some ⟨0, none, []⟩ := rfl
  have hcrowd : (crowd n).cell? 1 = some (cell n) := rfl
  refine .of_children hcrowd fun z hz => ?_
  have hzero : z = 0 := by
    simp only [cell, Cell.children, Value.ids, Option.toList_none, List.nil_append,
      List.flatMap_cons, List.flatMap_nil, List.append_nil, List.mem_flatMap] at hz
    obtain ⟨i, hi, hz⟩ := hz
    rw [List.eq_of_mem_replicate hi] at hz
    exact List.mem_singleton.mp hz
  subst hzero
  refine ⟨.of_children hempty fun w hw => absurd hw List.not_mem_nil, fun hback => ?_⟩
  rcases hback.cases with heq | ⟨c, w, hc, hw, -⟩
  · cases heq
  · obtain rfl := Option.some.inj (hempty.symm.trans hc)
    exact absurd hw List.not_mem_nil

theorem forall₂_replicate {α β : Type} {R : α → β → Prop} {a : α} {b : β} (h : R a b) (n : Nat) :
    List.Forall₂ R (List.replicate n a) (List.replicate n b) := by
  induction n with
  | zero => exact .nil
  | succ n ih => exact .cons h ih

/-- A crowd shows its size, and nothing for each of its members. -/
theorem crowd_shows {n : Nat} (hn : n ≤ Kind.uint32.maxCount) :
    Shows true runtime (crowd n) 2 1 (.group [.number (.ofWord .uint32 (UInt64.ofNat n)),
      .group (List.replicate n (.group []))]) := by
  obtain ⟨-, -, hempty, hcrowd, -⟩ := computed
  obtain ⟨p, hp, hpsteps⟩ := Option.map_eq_some_iff.mp hempty
  obtain ⟨q, hq, hqplan⟩ := Option.map_eq_some_iff.mp hcrowd
  obtain ⟨-, hqsteps⟩ := Prod.mk.inj hqplan
  have hcell : (crowd n).cell? 1 = some (cell n) := rfl
  have hmember : ItemShows (Shows true runtime (crowd n) 1) (.message "Empty") (.message 0)
      (.group []) :=
    ⟨p, ⟨0, none, []⟩, [], planOf?_eq.mpr ⟨_, rfl, hp⟩, rfl, rfl, by rw [hpsteps]; exact .nil⟩
  have hlist : (cell n).list "all" = List.replicate n (.message 0) := rfl
  refine ⟨q, cell n, _, planOf?_eq.mpr ⟨_, hcell, hq⟩, hcell, rfl, ?_⟩
  rw [hqsteps]
  refine .cons ⟨_, rfl, fun _ => ?_⟩ (.cons ⟨_, rfl, ?_⟩ .nil)
  · rw [hlist, List.length_replicate]
    exact ⟨rfl, hn⟩
  · rw [hlist]
    exact forall₂_replicate hmember n

/-- A crowd is written as its size alone. -/
theorem crowd_marshals {n : Nat} (hn : n ≤ Kind.uint32.maxCount) :
    marshal runtime (crowd n) 1 =
      .ok (Wire.scalarBytes (.ofWord .uint32 (UInt64.ofNat n))) := by
  have hnothing : ∀ k, Content.allBytes (List.replicate k (.group [])) = [] := by
    intro k
    induction k with
    | zero => rfl
    | succ k ih => simpa [List.replicate_succ] using ih
  have htyped : WellTyped runtime (crowd n) 1 :=
    (crowd_typed n).wellTyped trivial (show (crowd n).cell? 1 = some (cell n) from rfl)
  rw [marshal_of_shows sound htyped (crowd_acyclic n) (crowd_shows hn)]
  simp [hnothing]

end Crowd

/-- **A message that is written but not read again.**  A crowd of 2²⁴ + 1 empty messages is written
as four bytes; a new crowd refuses them, as no list may announce so many elements. -/
theorem unmarshal_refuses_crowd :
    (Resolve.run .standard 3 Crowd.schema).succeeded = true ∧
      PlanSet.derive false (Resolve.run .standard 3 Crowd.schema).model = .ok Crowd.plans ∧
      WellTyped Crowd.runtime (Crowd.crowd 0x1000001) 1 ∧
      Acyclic (Crowd.crowd 0x1000001) 1 ∧
      OfType Crowd.runtime (Crowd.crowd 0x1000001) 1 "Crowd" ∧
      marshal Crowd.runtime (Crowd.crowd 0x1000001) 1 = .ok [1, 0, 0, 1] ∧
      new Crowd.runtime "Crowd" .empty = (.ok 0, Crowd.start) ∧
      (unmarshal Crowd.runtime Crowd.start 0 [1, 0, 0, 1]).1 =
        .error (.at_ "decode Crowd.all" (.read (.shortList 0x1000001 0 4 0))) := by
  obtain ⟨-, -, -, hplan, -, -, -, -, -, hnew, hrefused⟩ := Crowd.computed
  have hcell : (Crowd.crowd 0x1000001).cell? 1 = some (Crowd.cell 0x1000001) := rfl
  obtain ⟨p, hp, heq⟩ := Option.map_eq_some_iff.mp hplan
  refine ⟨Crowd.resolves, Crowd.derives, (Crowd.crowd_typed _).wellTyped trivial hcell,
    Crowd.crowd_acyclic _, ⟨p, planOf?_eq.mpr ⟨_, hcell, hp⟩, (Prod.mk.inj heq).1⟩, ?_,
    Prod.ext hnew rfl, hrefused⟩
  rw [Crowd.crowd_marshals (by decide)]
  decide +kernel

end WireSchema.Message
