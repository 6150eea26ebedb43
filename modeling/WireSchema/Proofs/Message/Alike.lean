import Mathlib
import WireSchema.Proofs.Message.Descent

/-!
# The same bytes twice

Two messages of one type are read from the same bytes, each in a store of its own.  What they held
before may differ in everything but their form, and reading goes into what they held: into parent
parts, references and the slots of fixed lists.  Still both readings take the same course.  They are
followed side by side; at every place the readers are the same and the two messages at hand have the
same plan, and nothing else decides what is read next or why reading stops.

## Main results

* `Alike.bind` — one action after another, in both runs.
* `decodeStep_alike` — one step, on two messages of one plan.
* `decodeDepth_alike` — whole messages, at any depth.
-/

namespace WireSchema.Message

open Plan (Field DecodeStep)

/-! ## Two runs -/

/-- Two runs end alike: both are done, with results and states that `R` relates, or both fail for
the same reason. -/
inductive Alike {α β : Type} (R : α → Input → β → Input → Prop) :
    Except Failure α × Input → Except Failure β × Input → Prop where
  | done {a : α} {b : β} {t t' : Input} (h : R a t b t') : Alike R (.ok a, t) (.ok b, t')
  | failed (f : Failure) (t t' : Input) : Alike R (.error f, t) (.error f, t')

/-- Both runs give the same result and leave the reader in the same place. -/
def SameRead {α : Type} (a : α) (t : Input) (b : α) (t' : Input) : Prop :=
  b = a ∧ t'.reader = t.reader

/-- An action that does not look at the store. -/
def Oblivious {α : Type} (act : Fill α) : Prop :=
  ∀ s s' : Input, s'.reader = s.reader → Alike SameRead (act s) (act s')

section Runs

variable {α β γ δ : Type}

/-- One action after another, in both runs. -/
theorem Alike.bind {act : Fill α} {act' : Fill β} {next : α → Fill γ} {next' : β → Fill δ}
    {R : α → Input → β → Input → Prop} {R' : γ → Input → δ → Input → Prop} {s s' : Input}
    (h : Alike R (act s) (act' s'))
    (hnext : ∀ a t b t', R a t b t' → Alike R' (next a t) (next' b t')) :
    Alike R' ((act >>= next) s) ((act' >>= next') s') := by
  rcases hact : act s with ⟨res, t⟩
  rcases hact' : act' s' with ⟨res', t'⟩
  rw [hact, hact'] at h
  cases h with
  | done h =>
      rw [Action.run_bind_ok hact, Action.run_bind_ok hact']
      exact hnext _ _ _ _ h
  | failed f =>
      rw [Action.run_bind_error hact, Action.run_bind_error hact']
      exact .failed f t t'

theorem Alike.within {act act' : Fill α} {R : α → Input → α → Input → Prop} {s s' : Input}
    (place : String) (h : Alike R (act s) (act' s')) :
    Alike R (within place act s) (within place act' s') := by
  rcases hact : act s with ⟨res, t⟩
  rcases hact' : act' s' with ⟨res', t'⟩
  rw [hact, hact'] at h
  cases h with
  | done h =>
      rw [Action.within_eq_ok.mpr hact, Action.within_eq_ok.mpr hact']
      exact .done h
  | failed f =>
      rw [Action.within_eq_error hact, Action.within_eq_error hact']
      exact .failed _ t t'

theorem oblivious_pure (a : α) : Oblivious (pure a : Fill α) :=
  fun _ _ hreader => .done ⟨rfl, hreader⟩

theorem Oblivious.bind {act : Fill α} {next : α → Fill β} (h : Oblivious act)
    (hnext : ∀ a, Oblivious (next a)) : Oblivious (act >>= next) := by
  intro s s' hreader
  refine (h s s' hreader).bind fun a t b t' hsame => ?_
  obtain ⟨rfl, hreader'⟩ := hsame
  exact hnext b t t' hreader'

theorem readScalar_oblivious (k : Kind) : Oblivious (readScalar k) := by
  intro s s' hreader
  have hrun : ∀ s, readScalar k s =
      (.ok (s.reader.scalar k).1, ⟨s.store, (s.reader.scalar k).2⟩) := fun _ => rfl
  rw [hrun, hrun, hreader]
  exact .done ⟨rfl, rfl⟩

theorem readFailed_oblivious : Oblivious readFailed := by
  intro s s' hreader
  rw [readFailed_run, readFailed_run, hreader]
  exact .done ⟨rfl, hreader⟩

theorem readScalars_oblivious (k : Kind) (n : Nat) : Oblivious (readScalars k n) := by
  induction n with
  | zero => exact oblivious_pure []
  | succ n ih =>
      exact (readScalar_oblivious k).bind fun v => ih.bind fun items => oblivious_pure _

theorem readElements_oblivious (k : Kind) (n : Nat) : Oblivious (readElements k n) := by
  induction n with
  | zero => exact oblivious_pure []
  | succ n ih =>
      refine (readScalar_oblivious k).bind fun v => readFailed_oblivious.bind fun failed => ?_
      cases failed with
      | true => exact oblivious_pure _
      | false => exact ih.bind fun items => oblivious_pure _

theorem checkReader_oblivious (place : String) : Oblivious (checkReader place) := by
  intro s s' hreader
  rw [checkReader, Action.run_bind_ok (Action.run_get s), Action.run_bind_ok (Action.run_get s'),
    hreader]
  cases s.reader.error? with
  | none => exact .done ⟨rfl, hreader⟩
  | some e => exact .failed _ s s'

/-- Fields are written in both runs, each to its own store. -/
theorem keep_alike {s s' : Input} (hreader : s'.reader = s.reader) (y y' : Id) (field : String)
    (v v' : Value) : Alike SameRead (keep y field v s) (keep y' field v' s') :=
  .done ⟨rfl, hreader⟩

/-- Nothing is left to do. -/
theorem Alike.bind_pure {act act' : Fill α} {R : α → Input → α → Input → Prop} {s s' : Input}
    (h : Alike R (act s) (act' s')) (hreader : ∀ a t b t', R a t b t' → t'.reader = t.reader)
    (c : β) : Alike SameRead ((act >>= fun _ => (pure c : Fill β)) s)
      ((act' >>= fun _ => (pure c : Fill β)) s') :=
  h.bind fun a t b t' hsame => oblivious_pure c t t' (hreader a t b t' hsame)

end Runs

/-! ## Two messages -/

/-- Two states to go on from, with the same bytes ahead. -/
structure Abreast (rt : Runtime) (U U' : Id → Prop) (s s' : Input) : Prop where
  left : Ready rt U s
  right : Ready rt U' s'
  reader : s'.reader = s.reader

/-- Both runs gave the same result and can go on.  No message left its plan. -/
structure Onward (rt : Runtime) (U U' : Id → Prop) (s s' : Input) {α : Type} (a : α) (t : Input)
    (b : α) (t' : Input) : Prop where
  result : b = a
  abreast : Abreast rt U U' t t'
  grows : Grows s.store t.store
  grows' : Grows s'.store t'.store

/-- Two messages of one plan, each in the region of its store. -/
structure Peers (U U' : Id → Prop) (s s' : Store) (y y' : Id) : Prop where
  left : U y
  right : U' y'
  plan : ∃ c c', s.cell? y = some c ∧ s'.cell? y' = some c' ∧ c'.plan = c.plan

/-- A reader of messages that follows a scanner in both stores, and takes the same course in
messages of one plan. -/
structure FillsAlike (rt : Runtime) (U U' : Id → Prop) (fill : Id → Fill Unit)
    (inner : Nat → Scanner Content) (reads : Store → Store → Id → Content → Prop) : Prop where
  left : Filling rt U fill inner reads
  right : Filling rt U' fill inner reads
  alike : ∀ s s' y y', Abreast rt U U' s s' → Peers U U' s.store s'.store y y' →
    Alike SameRead (fill y s) (fill y' s')

section Messages

variable {rt : Runtime} {U U' : Id → Prop} {fill : Id → Fill Unit} {inner : Nat → Scanner Content}
  {reads : Store → Store → Id → Content → Prop} {s s' : Input} {type : String} {j : Nat}

theorem Peers.grows {t t' : Store} {st st' : Store} {y y' : Id} (h : Peers U U' st st' y y')
    (hgrow : Grows st t) (hgrow' : Grows st' t') : Peers U U' t t' y y' := by
  obtain ⟨c, c', hc, hc', hplan⟩ := h.plan
  obtain ⟨d, hd, hsame, -⟩ := hgrow.cell y c hc
  obtain ⟨d', hd', hsame', -⟩ := hgrow'.cell y' c' hc'
  exact ⟨h.left, h.right, d, d', hd, hd', by rw [hsame, hsame', hplan]⟩

/-- Messages of one type are peers. -/
theorem Peers.of_type (hrt : rt.Sound) (hj : rt.position? type = some j) {st st' : Store}
    {y y' : Id} (hy : U y) (hy' : U' y') (htype : OfType rt st y type)
    (htype' : OfType rt st' y' type) : Peers U U' st st' y y' := by
  obtain ⟨c, hc, hplan⟩ := htype.plan_eq hrt hj
  obtain ⟨c', hc', hplan'⟩ := htype'.plan_eq hrt hj
  exact ⟨hy, hy', c, c', hc, hc', hplan'.trans hplan.symm⟩

/-- After actions that settle, both runs can go on. -/
theorem Abreast.settled {α β β' : Type} (h : Abreast rt U U' s s')
    {res res' : Except Failure α × Input} {scanned : Option (β × List UInt8)}
    {scanned' : Option (β' × List UInt8)}
    {Q : α → β → Store → Prop} {Q' : α → β' → Store → Prop} (halike : Alike SameRead res res')
    (hleft : Settles rt U s res scanned Q) (hright : Settles rt U' s' res' scanned' Q') :
    Alike (Onward rt U U' s s') res res' := by
  cases halike with
  | failed f t t' => exact .failed f t t'
  | done hsame =>
      refine .done ⟨hsame.1, ⟨?_, ?_, hsame.2⟩, hleft.grows, hright.grows⟩
      · exact hleft.ready h.left (hleft.clean _ rfl)
      · exact hright.ready h.right (hright.clean _ rfl)

/-- Messages of one plan are read, and both runs can go on. -/
theorem FillsAlike.settled (hfill : FillsAlike rt U U' fill inner reads) (hs : Abreast rt U U' s s')
    {y y' : Id} (hpeers : Peers U U' s.store s'.store y y') :
    Alike (Onward rt U U' s s') (fill y s) (fill y' s') := by
  obtain ⟨c, c', hc, hc', -⟩ := hpeers.plan
  exact hs.settled (hfill.alike s s' y y' hs hpeers) (hfill.left s y c hs.left hpeers.left hc)
    (hfill.right s' y' c' hs.right hpeers.right hc')

/-- Lists of equally many messages are read in place. -/
theorem fillItems_alike (hrt : rt.Sound) (hfill : FillsAlike rt U U' fill inner reads)
    (hj : rt.position? type = some j) (items : List Item) :
    ∀ {items' : List Item} {s s' : Input}, items'.length = items.length → Abreast rt U U' s s' →
      (∀ i ∈ items, ItemTyped rt s.store (.message type) i) →
      (∀ i ∈ items', ItemTyped rt s'.store (.message type) i) →
      (∀ id ∈ items.flatMap Item.ids, U id) → (∀ id ∈ items'.flatMap Item.ids, U' id) →
      Alike SameRead (fillItems fill items s) (fillItems fill items' s') := by
  induction items with
  | nil =>
      intro items' s s' hlen hs _ _ _ _
      obtain rfl := List.length_eq_zero_iff.mp hlen
      exact oblivious_pure () s s' hs.reader
  | cons i items ih =>
      intro items' s s' hlen hs htyped htyped' hregion hregion'
      obtain ⟨i', items', rfl⟩ : ∃ i' rest, items' = i' :: rest := by
        cases items' with
        | nil => cases hlen
        | cons i' rest => exact ⟨i', rest, rfl⟩
      rw [List.forall_mem_cons] at htyped htyped'
      obtain ⟨id, rfl, htype⟩ := htyped.1.exists_message
      obtain ⟨id', rfl, htype'⟩ := htyped'.1.exists_message
      rw [List.flatMap_cons, List.forall_mem_append] at hregion hregion'
      have hid : U id := hregion.1 id (List.mem_singleton_self id)
      have hid' : U' id' := hregion'.1 id' (List.mem_singleton_self id')
      have hpeers := Peers.of_type hrt hj hid hid' htype htype'
      have hrun : ∀ (id : Id) (items : List Item), fillItems fill (.message id :: items) =
          fill id >>= fun _ => fillItems fill items := fun _ _ => rfl
      rw [hrun, hrun]
      refine (hfill.settled hs hpeers).bind fun _ t _ t' hon => ?_
      exact ih (Nat.succ.inj hlen) hon.abreast (fun i hi => (htyped.2 i hi).mono hon.grows)
        (fun i hi => (htyped'.2 i hi).mono hon.grows') hregion.2 hregion'.2

/-- New messages of a type are made in both stores, or in neither. -/
theorem build_new_alike (hrt : rt.Sound) (hj : rt.position? type = some j)
    (hs : Abreast rt U U' s s') : Alike (fun y t y' t' => Abreast rt U U' t t' ∧
      Peers U U' t.store t'.store y y') (build (new rt type) s) (build (new rt type) s') := by
  have hmakes := new_makes hrt hj s.store
  have hmakes' := new_makes hrt hj s'.store
  have hrun : ∀ s : Input, build (new rt type) s =
      ((new rt type s.store).1, ⟨(new rt type s.store).2, s.reader⟩) := fun _ => rfl
  cases hok : makeable rt (rt.plans.size + 1) j with
  | false =>
      rw [hrun, hrun, hmakes.refused hok, hmakes'.refused hok]
      exact .failed _ _ _
  | true =>
      have hsettles := build_new_settles hrt hj hs.left
      have hsettles' := build_new_settles hrt hj hs.right
      obtain ⟨y, hy, hmade, c, hc, hplan⟩ := hmakes.done hok
      obtain ⟨y', hy', hmade', c', hc', hplan'⟩ := hmakes'.done hok
      have hready := hsettles.ready hs.left hs.left.clean
      have hready' := hsettles'.ready hs.right hs.right.clean
      rw [hrun, hrun, hy, hy']
      refine .done ⟨⟨hready, hready', hs.reader⟩, ?_, ?_, c, c', hc, hc', hplan'.trans hplan.symm⟩
      · exact hs.left.free y
          (hmade.below y (List.mem_singleton_self y) y (Reach.refl _ y)).1
      · exact hs.right.free y'
          (hmade'.below y' (List.mem_singleton_self y') y' (Reach.refl _ y')).1

/-- Lists of new messages are read. -/
theorem readMessages_alike (hrt : rt.Sound) (hfill : FillsAlike rt U U' fill inner reads)
    (hj : rt.position? type = some j) (n : Nat) : ∀ {s s' : Input}, Abreast rt U U' s s' →
      Alike (fun _ t _ t' => t'.reader = t.reader) (readMessages rt fill type n s)
        (readMessages rt fill type n s') := by
  induction n with
  | zero => exact fun hs => .done hs.reader
  | succ n ih =>
      intro s s' hs
      rw [readMessages]
      refine (build_new_alike hrt hj hs).bind fun y t y' t' hmade => ?_
      obtain ⟨ht, hpeers⟩ := hmade
      refine (hfill.settled ht hpeers).bind fun _ u _ u' hon => ?_
      exact (ih hon.abreast).bind fun items v items' v' hreader => .done hreader

end Messages

/-! ## One step -/

/-- Two messages of the plan `p`, with what they hold before a step is read. -/
structure Twins (rt : Runtime) (U U' : Id → Prop) (p : Plan) (s s' : Input) (y y' : Id)
    (c c' : Cell) : Prop where
  abreast : Abreast rt U U' s s'
  left : U y
  right : U' y'
  cell : s.store.cell? y = some c
  cell' : s'.store.cell? y' = some c'
  typed : CellTyped rt s.store p c
  typed' : CellTyped rt s'.store p c'

section Step

variable {rt : Runtime} {U U' : Id → Prop} {fill : Id → Fill Unit} {inner : Nat → Scanner Content}
  {reads : Store → Store → Id → Content → Prop} {s s' : Input} {y y' : Id} {c c' : Cell} {p : Plan}
  {f : Field}

/-- Peers have the same form. -/
theorem Peers.twins (hpeers : Peers U U' s.store s'.store y y') (hs : Abreast rt U U' s s')
    (hplan : rt.planOf? s.store y = some p) : ∃ c c', Twins rt U U' p s s' y y' c c' := by
  obtain ⟨c, c', hc, hc', hsame⟩ := hpeers.plan
  obtain ⟨d, hd, hp⟩ := planOf?_eq.mp hplan
  obtain rfl := Option.some.inj (hc.symm.trans hd)
  obtain ⟨q, hcell⟩ := (hs.left.typed y c hpeers.left hc).1
  obtain ⟨q', hcell'⟩ := (hs.right.typed y' c' hpeers.right hc').1
  obtain rfl : q = p := Option.some.inj (hcell.plan.symm.trans hp)
  obtain rfl : q' = q := Option.some.inj (hcell'.plan.symm.trans (hsame ▸ hp))
  exact ⟨c, c', hs, hpeers.left, hpeers.right, hc, hc', hcell, hcell'⟩

/-- The parent parts are peers. -/
theorem Twins.parent (hrt : rt.Sound) (h : Twins rt U U' p s s' y y' c c')
    (hhas : p.hasParent = true) : ∃ q q', c.parent? = some q ∧ c'.parent? = some q' ∧
      Peers U U' s.store s'.store q q' := by
  have hparent := h.typed.parent
  have hparent' := h.typed'.parent
  obtain ⟨q, hq⟩ : ∃ q, c.parent? = some q :=
    Option.isSome_iff_exists.mp ((h.typed.hasParent hrt).symm.trans hhas)
  obtain ⟨q', hq'⟩ : ∃ q, c'.parent? = some q :=
    Option.isSome_iff_exists.mp ((h.typed'.hasParent hrt).symm.trans hhas)
  rw [hq] at hparent
  rw [hq'] at hparent'
  obtain ⟨d, hd, hlink⟩ := hparent
  obtain ⟨d', hd', hlink'⟩ := hparent'
  refine ⟨q, q', hq, hq', ?_, ?_, d, d', hd, hd', Option.some.inj (hlink'.symm.trans hlink)⟩
  · exact (h.abreast.left.typed y c h.left h.cell).2 q (Cell.parent_mem_children hq)
  · exact (h.abreast.right.typed y' c' h.right h.cell').2 q' (Cell.parent_mem_children hq')

/-- What a stored field holds in the two messages. -/
theorem Twins.values (h : Twins rt U U' p s s' y y' c c') (hf : f ∈ p.fields)
    (hstored : f.stored = true) : ∃ v v', (c.value? f.name = some v ∧ ValueTyped rt s.store f v ∧
      ∀ id ∈ v.ids, U id) ∧ c'.value? f.name = some v' ∧ ValueTyped rt s'.store f v' ∧
        ∀ id ∈ v'.ids, U' id := by
  obtain ⟨v, hv, htyped⟩ := h.typed.stored f hf hstored
  obtain ⟨v', hv', htyped'⟩ := h.typed'.stored f hf hstored
  refine ⟨v, v', ⟨hv, htyped, fun id hid => ?_⟩, hv', htyped', fun id hid => ?_⟩
  · exact (h.abreast.left.typed y c h.left h.cell).2 id (Cell.ids_subset_children hv hid)
  · exact (h.abreast.right.typed y' c' h.right h.cell').2 id (Cell.ids_subset_children hv' hid)

/-- An embedded message is read in place. -/
theorem reference_alike (hrt : rt.Sound) (hfill : FillsAlike rt U U' fill inner reads)
    (h : Twins rt U U' p s s' y y' c c') (hf : f ∈ p.fields) (hstored : f.stored = true)
    {type : String} (hshape : f.shape = .reference) (helem : f.elem = .message type)
    (counts : Counts) : Alike SameRead (decodeStep rt fill y counts (.reference f.name type) s)
      (decodeStep rt fill y' counts (.reference f.name type) s') := by
  obtain ⟨v, v', ⟨hv, htyped, hregion⟩, hv', htyped', hregion'⟩ := h.values hf hstored
  obtain ⟨id, rfl, htype⟩ := htyped.message hshape helem
  obtain ⟨id', rfl, htype'⟩ := htyped'.message hshape helem
  obtain ⟨j, hj⟩ := hrt.elem h.typed.plan hf helem
  have hpeers : Peers U U' s.store s'.store id id' :=
    .of_type hrt hj (hregion id (List.mem_singleton_self id))
      (hregion' id' (List.mem_singleton_self id')) htype htype'
  have hmessage : (liftM (c.message f.name) : Fill Id) s = (.ok id, s) := by
    rw [Action.run_lift, Cell.message, hv]
  have hmessage' : (liftM (c'.message f.name) : Fill Id) s' = (.ok id', s') := by
    rw [Action.run_lift, Cell.message, hv']
  rw [decodeStep, decodeStep, Action.run_bind_ok (cellOf_run h.cell),
    Action.run_bind_ok (cellOf_run h.cell'), Action.run_bind_ok hmessage,
    Action.run_bind_ok hmessage']
  exact (hfill.alike s s' id id' h.abreast hpeers).bind_pure (fun _ _ _ _ hsame => hsame.2) counts

/-- A fixed list has the same length in both messages, whatever is in it. -/
theorem fixedList_alike (hrt : rt.Sound) (hfill : FillsAlike rt U U' fill inner reads)
    (h : Twins rt U U' p s s' y y' c c') (hf : f ∈ p.fields) (hstored : f.stored = true) {n : Int}
    (hshape : f.shape = .fixedList n) (counts : Counts) :
    Alike SameRead (decodeStep rt fill y counts (.fixedList f.name n f.elem) s)
      (decodeStep rt fill y' counts (.fixedList f.name n f.elem) s') := by
  cases helem : f.elem with
  | primitive t =>
      refine (readScalars_oblivious t.kind n.toNat s s' h.abreast.reader).bind ?_
      intro _ _ _ _ hsame
      exact (keep_alike hsame.2 _ _ _ _ _).bind_pure (fun _ _ _ _ hsame => hsame.2) counts
  | message type =>
      obtain ⟨v, v', ⟨hv, htyped, hregion⟩, hv', htyped', hregion'⟩ := h.values hf hstored
      obtain ⟨items, rfl, hlen, -, hall⟩ := htyped.fixedList hshape
      obtain ⟨items', rfl, hlen', -, hall'⟩ := htyped'.fixedList hshape
      obtain ⟨j, hj⟩ := hrt.elem h.typed.plan hf helem
      rw [helem] at hall hall'
      have hitems := fillItems_alike hrt hfill hj items (Int.ofNat.inj (hlen'.trans hlen.symm))
        h.abreast hall hall' hregion hregion'
      have hrun : decodeStep rt fill y counts (.fixedList f.name n (.message type)) s =
          (fillItems fill items >>= fun _ => (pure counts : Fill Counts)) s := by
        rw [← list_of_value? hv]
        exact Action.run_bind_ok (cellOf_run h.cell)
      have hrun' : decodeStep rt fill y' counts (.fixedList f.name n (.message type)) s' =
          (fillItems fill items' >>= fun _ => (pure counts : Fill Counts)) s' := by
        rw [← list_of_value? hv']
        exact Action.run_bind_ok (cellOf_run h.cell')
      rw [hrun, hrun']
      exact hitems.bind_pure (fun _ _ _ _ hsame => hsame.2) counts

/-- **A list is read alike**, whatever it held before. -/
theorem readList_alike (hrt : rt.Sound) (hfill : FillsAlike rt U U' fill inner reads)
    (hs : Abreast rt U U' s s') {e : Element}
    (hknown : ∀ type, e = .message type → ∃ j, rt.position? type = some j) (field : String)
    (n : UInt64) : Alike SameRead (readList rt fill y field e n s)
      (readList rt fill y' field e n s') := by
  have hcount : ∀ s : Input, readCount n (listWidth e) s =
      (.ok (s.reader.count n (listWidth e)).1, ⟨s.store, (s.reader.count n (listWidth e)).2⟩) :=
    fun _ => rfl
  rw [readList_eq, readList_eq, Action.run_bind_ok (hcount s), Action.run_bind_ok (hcount s'),
    hs.reader, Action.run_bind_ok (readFailed_run _), Action.run_bind_ok (readFailed_run _)]
  cases herr : (s.reader.count n (listWidth e)).2.error? with
  | some err => exact .done ⟨rfl, rfl⟩
  | none =>
      -- The count was accepted, and the elements are read from where the reader is then.
      have hnext : Abreast rt U U' ⟨s.store, (s.reader.count n (listWidth e)).2⟩
          ⟨s'.store, (s.reader.count n (listWidth e)).2⟩ :=
        ⟨⟨hs.left.free, hs.left.typed, herr⟩, ⟨hs.right.free, hs.right.typed, herr⟩, rfl⟩
      simp only [Option.isSome_none, Bool.false_eq_true, if_false]
      cases e with
      | primitive t =>
          refine (readElements_oblivious t.kind _ _ _ hnext.reader).bind ?_
          exact fun _ _ _ _ hsame => keep_alike hsame.2 _ _ _ _ _
      | message type =>
          obtain ⟨j, hj⟩ := hknown type rfl
          refine (readMessages_alike hrt hfill hj _ hnext).bind ?_
          exact fun _ _ _ _ hreader => keep_alike hreader _ _ _ _ _

/-- A count is read from the wire, so both runs keep the same number for its list. -/
theorem count_alike (hreader : s'.reader = s.reader) (field list : String) (t : Primitive)
    (discard : Bool) (counts : Counts) :
    Alike SameRead (decodeStep rt fill y counts (.count field list t discard) s)
      (decodeStep rt fill y' counts (.count field list t discard) s') := by
  rw [decodeStep, decodeStep]
  refine (readScalar_oblivious t.kind s s' hreader).bind fun _ u v u' hsame => ?_
  obtain ⟨rfl, hreader'⟩ := hsame
  cases discard with
  | true => exact oblivious_pure counts u u' hreader'
  | false =>
      simp only [Bool.false_eq_true, if_false]
      cases (Datum.scalar v).toWord with
      | ok n => exact oblivious_pure _ u u' hreader'
      | error e => exact .failed _ u u'

/-- **One step, on two messages of one plan.** -/
theorem decodeStep_alike (hrt : rt.Sound) (hfill : FillsAlike rt U U' fill inner reads)
    (h : Twins rt U U' p s s' y y' c c') {step : DecodeStep} (hstep : step ∈ p.decode)
    (counts : Counts) : Alike SameRead (decodeStep rt fill y counts step s)
      (decodeStep rt fill y' counts step s') := by
  have hp := hrt.plan h.typed.plan
  rcases (mem_decode hp).mp hstep with ⟨hhas, rfl⟩ | ⟨f, hf, -, rfl⟩
  · obtain ⟨q, q', hq, hq', hpeers⟩ := h.parent hrt hhas
    rw [decodeStep, decodeStep, Action.run_bind_ok (cellOf_run h.cell),
      Action.run_bind_ok (cellOf_run h.cell'), hq, hq']
    exact (hfill.alike s s' q q' h.abreast hpeers).bind_pure (fun _ _ _ _ hsame => hsame.2) counts
  · cases hp.field f hf with
    | number t hshape helem hstored =>
        simp only [Field.step_number hshape helem hstored, decodeStep]
        refine (readScalar_oblivious t.kind s s' h.abreast.reader).bind fun _ _ _ _ hsame => ?_
        exact (keep_alike hsame.2 _ _ _ _ _).bind_pure (fun _ _ _ _ hsame => hsame.2) counts
    | count t l hshape helem hstored =>
        rw [Field.step_count hshape helem hstored]
        exact count_alike h.abreast.reader _ _ _ _ counts
    | reference type hshape helem hstored =>
        simp only [Field.step_reference hshape, helem]
        exact reference_alike hrt hfill h hf hstored hshape helem counts
    | fixedList n hshape _ _ hstored =>
        rw [Field.step_fixedList hshape]
        exact fixedList_alike hrt hfill h hf hstored hshape counts
    | variableList k hshape hstored =>
        simp only [Field.step_variableList hshape, decodeStep]
        cases counts.lookup f.countField with
        | none => exact .failed _ s s'
        | some n =>
            have hlist : Alike SameRead (readList rt fill y f.name f.elem n s)
                (readList rt fill y' f.name f.elem n s') :=
              readList_alike hrt hfill h.abreast
                (fun type helem => hrt.elem h.typed.plan hf helem) f.name n
            exact hlist.bind_pure (fun _ _ _ _ hsame => hsame.2) counts

end Step

/-! ## Whole messages -/

section Whole

variable {rt : Runtime} {U U' : Id → Prop} {fill : Id → Fill Unit} {inner : Nat → Scanner Content}
  {reads : Store → Store → Id → Content → Prop} {p : Plan} {y y' : Id}

/-- A step and a look at the reader: the runs go on together, or stop together. -/
theorem runStep_alike {s s' : Input} {c c' : Cell} (hrt : rt.Sound)
    (hfill : FillsAlike rt U U' fill inner reads) (hlocal : Local reads)
    (h : Twins rt U U' p s s' y y' c c') {step : DecodeStep} (hstep : step ∈ p.decode)
    (counts : Counts) : Alike (Onward rt U U' s s') (runStep rt fill p y counts step s)
      (runStep rt fill p y' counts step s') := by
  have hsettles : Settles rt U s (runStep rt fill p y counts step s) _ _ :=
    checked_settles (decodeStep_fills hrt hfill.left hlocal h.abreast.left h.left h.cell h.typed
      hstep counts) _ _
  have hsettles' : Settles rt U' s' (runStep rt fill p y' counts step s') _ _ :=
    checked_settles (decodeStep_fills hrt hfill.right hlocal h.abreast.right h.right h.cell'
      h.typed' hstep counts) _ _
  have hsame : Alike SameRead (runStep rt fill p y counts step s)
      (runStep rt fill p y' counts step s') := by
    refine ((decodeStep_alike hrt hfill h hstep counts).within _).bind fun _ t b t' hread => ?_
    obtain ⟨rfl, hreader⟩ := hread
    exact (checkReader_oblivious _ t t' hreader).bind_pure (fun _ _ _ _ hsame => hsame.2) b
  exact h.abreast.settled hsame hsettles hsettles'

/-- The steps of a plan, one after the other: no step takes the messages out of their plan. -/
theorem runSteps_alike (hrt : rt.Sound) (hfill : FillsAlike rt U U' fill inner reads)
    (hlocal : Local reads) (steps : List DecodeStep) : ∀ {s s' : Input} (counts : Counts),
      steps ⊆ p.decode → Abreast rt U U' s s' → Peers U U' s.store s'.store y y' →
      rt.planOf? s.store y = some p → Alike SameRead (runSteps rt fill p y counts steps s)
        (runSteps rt fill p y' counts steps s') := by
  induction steps with
  | nil => exact fun counts _ hs _ _ => oblivious_pure counts _ _ hs.reader
  | cons step steps ih =>
      intro s s' counts hsub hs hpeers hplan
      obtain ⟨c, c', htwins⟩ := hpeers.twins hs hplan
      rw [runSteps, runSteps, List.foldlM_cons, List.foldlM_cons]
      refine (runStep_alike hrt hfill hlocal htwins (hsub List.mem_cons_self) counts).bind ?_
      intro a t b t' hon
      obtain ⟨rfl, ht, hgrow, hgrow'⟩ := hon
      exact ih b (fun _ h => hsub (List.mem_cons_of_mem _ h)) ht (hpeers.grows hgrow hgrow')
        (planOf?_of_grows hgrow hplan)

/-- **Messages of one plan are read alike**, at any depth. -/
theorem decodeDepth_alike (hrt : rt.Sound) (U U' : Id → Prop) (n : Nat) :
    FillsAlike rt U U' (decodeDepth rt n) (scan rt n) (Reads rt n) := by
  refine ⟨decodeDepth_settles hrt n, decodeDepth_settles hrt n, ?_⟩
  induction n with
  | zero => exact fun s s' y y' _ _ => .failed _ s s'
  | succ n ih =>
      intro s s' y y' hs hpeers
      obtain ⟨c, c', hc, hc', hsame⟩ := hpeers.plan
      obtain ⟨p, hcell⟩ := (hs.left.typed y c hpeers.left hc).1
      have hplan : rt.planOf? s.store y = some p := planOf?_eq.mpr ⟨c, hc, hcell.plan⟩
      have hplan' : rt.planOf? s'.store y' = some p :=
        planOf?_eq.mpr ⟨c', hc', hsame ▸ hcell.plan⟩
      have hlocal : Local (Reads rt n) := ⟨fun h => Reads.later n h, fun h => Reads.earlier n h⟩
      have hfill : FillsAlike rt U U' (decodeDepth rt n) (scan rt n) (Reads rt n) :=
        ⟨decodeDepth_settles hrt n, decodeDepth_settles hrt n, ih⟩
      rw [decodeDepth, decodeDepth, decodeWith_run hplan, decodeWith_run hplan']
      exact (runSteps_alike hrt hfill hlocal p.decode [] (fun _ h => h) hs hpeers hplan).bind_pure
        (fun _ _ _ _ h => h.2) ()

end Whole

end WireSchema.Message
