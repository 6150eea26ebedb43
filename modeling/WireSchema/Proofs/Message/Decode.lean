import Mathlib
import WireSchema.Proofs.Message.Fills

/-!
# Decoding

Each step of a plan is followed by itself: what it writes to its slot, and that it leaves the others
alone.  The steps of a plan have different slots, so a message that was decoded holds what all of
them read.

## Main results

* `decodeStep_fills` — what one step does.
* `steps_settles` — what the steps of a plan do together.
* `decodeDepth_settles` — decoding and scanning agree, and typed regions stay typed.
* `decode_settles`, `scan_startDepth` — the depth that decoding starts with suffices.
-/

namespace WireSchema.Message

open Plan (Field DecodeStep)
open Wire (Reader maxListLength)

/-! ## One step -/

/-- What a step left in the message `y`, which was `c` before. -/
def StepDone (rt : Runtime) (reads : Store → Store → Id → Content → Prop) (s : Store) (y : Id)
    (c : Cell) (step : DecodeStep) (counts : Counts) (b : Content × Counts) (t : Store) : Prop :=
  counts = b.2 ∧ ∃ c', t.cell? y = some c' ∧ (Unshared s y → Changed s t y ∧
    StepReads rt reads s t c c' step b.1 ∧ ∀ σ, σ ≠ slot step → Untouched s t c c' σ)

section Step

variable {rt : Runtime} {U : Id → Prop} {fill : Id → Fill Unit} {inner : Nat → Scanner Content}
  {reads : Store → Store → Id → Content → Prop} {s : Input} {y : Id} {c : Cell} {p : Plan}
  {counts : Counts} {f : Field}

/-- New messages do not hold older ones. -/
theorem Replaced.sameFrom_put {s t : Store} {x : Id} {new : List Id} (h : Replaced s t x [] new)
    (hx : x < s.size) (field : String) (v : Value) : ∀ z ∈ new, SameFrom t (t.put x field v) z := by
  intro z hz w hw
  refine Store.cell?_put_ne t ?_ field v
  rintro rfl
  rcases h.below z hz w hw with ⟨b, hb, -⟩ | hfresh
  · exact absurd hb List.not_mem_nil
  · exact absurd hx (Nat.not_lt.mpr hfresh)

/-- A write to the message itself, in the place of whatever the field held. -/
theorem Replaced.put {s t : Store} {x : Id} {new : List Id} (h : Replaced s t x [] new)
    (hx : x < s.size) (old : List Id) (field : String) (v : Value) :
    Replaced s (t.put x field v) x old new := by
  have hsame := h.sameFrom_put hx field v
  refine ⟨h.size_le.trans (Store.size_put t x field v).ge, ?_, ?_, h.forest.sameFrom hsame⟩
  · intro w hw hne _
    rw [Store.cell?_put_ne t hne]
    exact h.frame w hw hne fun z hz => absurd hz List.not_mem_nil
  · intro z hz w hw
    rcases h.below z hz w ((hsame z hz).reach_iff.mp hw) with ⟨b, hb, -⟩ | hfresh
    · exact absurd hb List.not_mem_nil
    · exact .inr hfresh

/-- **A field is written**, after messages for it may have been made. -/
theorem put_spec (hrt : rt.Sound) (hs : Ready rt U s) (hy : U y) (hc : s.store.cell? y = some c)
    (hcell : CellTyped rt s.store p c) (hf : f ∈ p.fields) (hstored : f.stored = true) {t : Store}
    (hext : Extends s.store t) (htyped : TypedOn rt t U) {v : Value} (hv : ValueTyped rt t f v)
    (hids : ∀ id ∈ v.ids, U id) (hreplaced : Replaced s.store t y [] v.ids) :
    Grows s.store (t.put y f.name v) ∧ TypedOn rt (t.put y f.name v) U ∧
      (t.put y f.name v).cell? y = some (c.put f.name v) ∧
      (Unshared s.store y → Changed s.store (t.put y f.name v) y ∧
        ∀ σ, σ ≠ some f.name → Untouched s.store (t.put y f.name v) c (c.put f.name v) σ) := by
  have hlt := Store.lt_size hc
  have hc' : t.cell? y = some c := (hext.cell y hlt).trans hc
  have hput := Store.cell?_put_self hc' f.name v
  refine ⟨hext.grows.trans (.put t y f.name v), ?_, hput, fun hunshared => ?_⟩
  · exact htyped.put hy hc' (hcell.mono hext.grows) (hrt.plan hcell.plan).nodup hf hv hids
  · obtain ⟨w, hw, -⟩ := hcell.stored f hf hstored
    exact (hreplaced.put hlt w.ids f.name v).field hunshared (hs.complete hy hc) hc hput hw

/-- A step that reads numbers and writes them to a field. -/
theorem takes_put_fills {α β : Type} (hrt : rt.Sound) (hs : Ready rt U s) (hy : U y)
    (hc : s.store.cell? y = some c) (hcell : CellTyped rt s.store p c) (hf : f ∈ p.fields)
    (hstored : f.stored = true) {act : Fill α} {good : α → Prop}
    {scanned : Option (β × List UInt8)} {Q : α → β → Prop} (mk : α → Value)
    (h : Takes s (act s) good scanned Q)
    (hgood : ∀ a, good a → ValueTyped rt s.store f (mk a) ∧ (mk a).ids = []) {step : DecodeStep}
    (hslot : slot step = some f.name) (g : β → Content)
    (hread : ∀ a b t, Q a b → StepReads rt reads s.store t c (c.put f.name (mk a)) step (g b)) :
    Fills rt U s
      ((act >>= fun a => keep y f.name (mk a) >>= fun _ => (pure counts : Fill Counts)) s)
      (scanned.map fun r => ((g r.1, counts), r.2)) (StepDone rt reads s.store y c step) := by
  obtain ⟨a, r, hrun, hgood', -, hok⟩ := h
  obtain ⟨hv, hids⟩ := hgood a hgood'
  obtain ⟨hgrow, htyped, hput, hdone⟩ :=
    put_spec hrt hs hy hc hcell hf hstored (.refl _) hs.typed hv
    (by simp [hids]) (by rw [hids]; exact Replaced.nil _ y)
  have hfinal : (act >>= fun a => keep y f.name (mk a) >>= fun _ => (pure counts : Fill Counts)) s =
      (.ok counts, ⟨s.store.put y f.name (mk a), r⟩) := by
    rw [Action.run_bind_ok hrun]
    rfl
  rw [hfinal]
  obtain ⟨hnone, hsome⟩ := hok hs.clean
  refine ⟨hgrow, htyped, fun h _ _ => hnone (Option.map_eq_none_iff.mp h), fun b rest hscan => ?_⟩
  obtain ⟨⟨b', rest'⟩, hscan', heq⟩ := Option.map_eq_some_iff.mp hscan
  cases heq
  obtain ⟨hadv, hQ⟩ := hsome b' rest' hscan'
  refine ⟨counts, rfl, hadv, rfl, _, hput, fun hunshared => ?_⟩
  obtain ⟨hchanged, hothers⟩ := hdone hunshared
  exact ⟨hchanged, hread a b' _ hQ, hslot ▸ hothers⟩

theorem cellOf_run (hc : s.store.cell? y = some c) : cellOf y s = (.ok c, s) := by
  have hrun : cellOf y s = (s.store.cell y, s) := Action.run_lift _ s
  rw [hrun, Store.cell, hc]

/-- A change below one of the messages that `y` holds leaves `y` itself alone. -/
theorem Changed.holder {s t : Store} {q : Id} (h : Changed s t q) (hy : Unshared s y)
    (hc : s.cell? y = some c) (hq : q ∈ c.children) : t.cell? y = some c :=
  (h.frame y (Store.lt_size hc) (((unshared_iff hc).mp hy).2 q hq)).trans hc

theorem parent_fills (hrt : rt.Sound) (hfill : Filling rt U fill inner reads) (hs : Ready rt U s)
    (hy : U y) (hc : s.store.cell? y = some c) (hcell : CellTyped rt s.store p c)
    (hhas : p.hasParent = true) (name : String) :
    Fills rt U s (decodeStep rt fill y counts (.parent name) s)
      (scanStep rt inner p counts (.parent name) s.reader.rest)
      (StepDone rt reads s.store y c (.parent name)) := by
  obtain ⟨q, d, hq, hd, hlink⟩ : ∃ q d, c.parent? = some q ∧ s.store.cell? q = some d ∧
      p.parent? = some d.plan := by
    have htyped := hcell.parent
    cases hq : c.parent? with
    | none =>
        rw [hq] at htyped
        obtain ⟨j, -, hj, -⟩ := hrt.parent hcell.plan hhas
        rw [show p.parent? = none from htyped] at hj
        cases hj
    | some q =>
        rw [hq] at htyped
        obtain ⟨d, hd, hlink⟩ := htyped
        exact ⟨q, d, rfl, hd, hlink⟩
  have hmem := Cell.parent_mem_children hq
  have hrun : decodeStep rt fill y counts (.parent name) s =
      (fill q >>= fun _ => (pure counts : Fill Counts)) s := by
    rw [decodeStep, Action.run_bind_ok (cellOf_run hc), hq]
  have hfirst := hfill s q d hs ((hs.typed y c hy hc).2 q hmem) hd
  rw [hrun, scanStep, hlink, Option.bind_some]
  refine (hfirst.bind_pure (fun _ => counts) (fun ct => (ct, counts)) fun _ ct hQ => ?_).toFills
  set t := (fill q s).2.store
  obtain ⟨c', hc', -⟩ := hfirst.grows.cell y c hc
  refine ⟨rfl, c', hc', fun hunshared => ?_⟩
  obtain ⟨hchanged, hread⟩ := hQ (hunshared.child hc hmem)
  have hsame := hchanged.holder hunshared hc hmem
  rw [hc'] at hsame
  obtain rfl := Option.some.inj hsame
  obtain ⟨hall, hothers⟩ :=
    hchanged.replaced.parent hunshared (hs.complete hy hc) hc hc' hq
  exact ⟨hall, ⟨rfl, q, hq, hread⟩, hothers⟩

/-- Messages in a field are changed in place. -/
theorem inPlace_done {v : Value} (hs : Ready rt U s) (hy : U y) (hc : s.store.cell? y = some c)
    (hv : c.value? f.name = some v) {t : Store} (hgrow : Grows s.store t) {step : DecodeStep}
    (hslot : slot step = some f.name) {ct : Content}
    (h : Unshared s.store y → Replaced s.store t y v.ids v.ids ∧ t.cell? y = some c ∧
      StepReads rt reads s.store t c c step ct) :
    StepDone rt reads s.store y c step counts (ct, counts) t := by
  obtain ⟨c', hc', -⟩ := hgrow.cell y c hc
  refine ⟨rfl, c', hc', fun hunshared => ?_⟩
  obtain ⟨hreplaced, hsame, hread⟩ := h hunshared
  rw [hc'] at hsame
  obtain rfl := Option.some.inj hsame
  have hput := Cell.put_self hv
  obtain ⟨hchanged, hothers⟩ :=
    hreplaced.field hunshared (hs.complete hy hc) hc (by rw [hput, hc']) hv
  rw [hput] at hothers
  exact ⟨hchanged, hread, hslot ▸ hothers⟩

theorem reference_fills (hrt : rt.Sound) (hfill : Filling rt U fill inner reads)
    (hs : Ready rt U s) (hy : U y) (hc : s.store.cell? y = some c)
    (hcell : CellTyped rt s.store p c) (hf : f ∈ p.fields) (hstored : f.stored = true)
    {type : String} (hshape : f.shape = .reference) (helem : f.elem = .message type) :
    Fills rt U s (decodeStep rt fill y counts (.reference f.name type) s)
      (scanStep rt inner p counts (.reference f.name type) s.reader.rest)
      (StepDone rt reads s.store y c (.reference f.name type)) := by
  obtain ⟨v, hv, htyped⟩ := hcell.stored f hf hstored
  obtain ⟨id, rfl, htype⟩ := htyped.message hshape helem
  obtain ⟨j, hj⟩ := hrt.elem hcell.plan hf helem
  obtain ⟨d, hd, rfl⟩ := htype.plan_eq hrt hj
  have hmem := Cell.ids_subset_children hv (List.mem_singleton_self id)
  have hmessage : c.message f.name = .ok id := by rw [Cell.message, hv]
  have hlift : (liftM (c.message f.name) : Fill Id) s = (.ok id, s) := by
    rw [Action.run_lift, hmessage]
  have hrun : decodeStep rt fill y counts (.reference f.name type) s =
      (fill id >>= fun _ => (pure counts : Fill Counts)) s := by
    rw [decodeStep, Action.run_bind_ok (cellOf_run hc), Action.run_bind_ok hlift]
  have hfirst := hfill s id d hs ((hs.typed y c hy hc).2 id hmem) hd
  rw [hrun, scanStep, scanType, hj, Option.bind_some]
  refine (hfirst.bind_pure (fun _ => counts) (fun ct => (ct, counts)) fun _ ct hQ => ?_).toFills
  refine inPlace_done hs hy hc hv hfirst.grows rfl fun hunshared => ?_
  obtain ⟨hchanged, hread⟩ := hQ (hunshared.child hc hmem)
  exact ⟨hchanged.replaced, hchanged.holder hunshared hc hmem, rfl, id, hv, hread⟩

theorem Numbers.ids {t : Primitive} {items : List Item} (h : Numbers t items) :
    (Value.list items).ids = [] := by
  refine List.flatMap_eq_nil_iff.mpr fun i hi => ?_
  obtain ⟨n, rfl, -⟩ := h i hi
  rfl

theorem Numbers.typed {t : Primitive} {items : List Item} (h : Numbers t items) (st : Store) :
    ∀ i ∈ items, ItemTyped rt st (.primitive t) i := by
  intro i hi
  obtain ⟨n, rfl, hkind⟩ := h i hi
  exact hkind

/-- Numbers show themselves, whatever messages show. -/
theorem forall₂_itemShows_numbers {t : Primitive} {inner₁ inner₂ : Id → Content → Prop}
    {items : List Item} {parts : List Content}
    (h : List.Forall₂ (ItemShows inner₁ (.primitive t)) items parts) :
    List.Forall₂ (ItemShows inner₂ (.primitive t)) items parts := by
  refine h.imp fun i ct hi => ?_
  cases i with
  | scalar n => exact hi
  | message id => exact hi.elim

theorem list_put_self (field : String) (items : List Item) :
    (c.put field (.list items)).list field = items :=
  list_of_value? (Cell.value?_put_self c field (.list items))

theorem fixedList_fills (hrt : rt.Sound) (hfill : Filling rt U fill inner reads)
    (hlocal : Local reads) (hs : Ready rt U s) (hy : U y) (hc : s.store.cell? y = some c)
    (hcell : CellTyped rt s.store p c) (hf : f ∈ p.fields) (hstored : f.stored = true) {n : Int}
    (hshape : f.shape = .fixedList n) :
    Fills rt U s (decodeStep rt fill y counts (.fixedList f.name n f.elem) s)
      (scanStep rt inner p counts (.fixedList f.name n f.elem) s.reader.rest)
      (StepDone rt reads s.store y c (.fixedList f.name n f.elem)) := by
  obtain ⟨v, hv, htyped⟩ := hcell.stored f hf hstored
  obtain ⟨items, rfl, hlen, hmax, hall⟩ := htyped.fixedList hshape
  cases helem : f.elem with
  | primitive t =>
      have htakes := readScalars_takes (fun _ _ => False) t n.toNat s
      refine takes_put_fills hrt hs hy hc hcell hf hstored Value.list htakes
        (fun items' hgood => ⟨?_, ?_⟩) rfl Content.group
        fun items' parts t' hshown => ⟨fun type he => ?_, parts, rfl, ?_⟩
      · unfold ValueTyped
        rw [hshape, helem]
        exact ⟨by rw [hgood.1]; omega, hmax, hgood.2.typed _⟩
      · exact hgood.2.ids
      · cases he
      · rw [list_put_self]
        exact forall₂_itemShows_numbers hshown
  | message type =>
      rw [helem] at hall
      obtain ⟨j, hj⟩ := hrt.elem hcell.plan hf helem
      have hmem : ∀ id ∈ items.flatMap Item.ids, id ∈ c.children :=
        fun id hid => Cell.ids_subset_children hv hid
      have hfirst := fillItems_settles hrt hfill hlocal hj items s hs hall
        fun id hid => (hs.typed y c hy hc).2 id (hmem id hid)
      have hrun : decodeStep rt fill y counts (.fixedList f.name n (.message type)) s =
          (fillItems fill items >>= fun _ => (pure counts : Fill Counts)) s := by
        rw [← list_of_value? hv]
        exact Action.run_bind_ok (cellOf_run hc)
      have hlength : items.length = n.toNat := by omega
      rw [hlength] at hfirst
      rw [hrun, scanStep]
      refine (hfirst.bind_pure (fun _ => counts) (fun parts => (Content.group parts, counts))
        fun _ parts hQ => ?_).toFills
      refine inPlace_done hs hy hc hv hfirst.grows rfl fun hunshared => ?_
      obtain ⟨hforest, hout⟩ := (unshared_iff hc).mp hunshared
      obtain ⟨hsame, hreplaced, hreads⟩ := hQ y (Store.lt_size hc)
        (hforest.sublist (Cell.ids_sublist_children hv)) fun id hid => hout id (hmem id hid)
      refine ⟨hreplaced, hsame.trans hc, fun _ _ => rfl, parts, rfl, ?_⟩
      rw [list_of_value? hv]
      exact hreads

/-- What a list's elements are read by. -/
def readItems (rt : Runtime) (fill : Id → Fill Unit) (n : Nat) : Element → Fill (List Item)
  | .primitive t => readElements t.kind n
  | .message type => readMessages rt fill type n

theorem readList_eq (y : Id) (field : String) (e : Element) (n : UInt64) :
    readList rt fill y field e n = readCount n (listWidth e) >>= fun count =>
      readFailed >>= fun failed => if failed then pure () else
        readItems rt fill count e >>= fun items => keep y field (.list items) := by
  cases e <;> rfl

theorem readFailed_run (s : Input) : readFailed s = (.ok s.reader.error?.isSome, s) := rfl

/-- A list whose count the reader accepts is read and written; otherwise the reader fails. -/
theorem readList_run (inner : Nat → Scanner Content) {e : Element} (field : String) (n : UInt64)
    (hclean : s.reader.error? = none) :
    (n.toNat ≤ maxListLength ∧ readList rt fill y field e n s =
      (readItems rt fill n.toNat e >>= fun items => keep y field (.list items)) s) ∨
    ∃ r err, r.error? = some err ∧ err.isShort = true ∧
      readList rt fill y field e n s = (.ok (), ⟨s.store, r⟩) ∧
      (n.toNat ≤ maxListLength →
        scanMany (scanNewElement rt inner e) n.toNat s.reader.rest = none) := by
  rw [readList_eq]
  rcases count_spec rt inner n e hclean with ⟨hcount, hmax⟩ | ⟨⟨err, herr, hshort⟩, hnone⟩
  · refine .inl ⟨hmax, ?_⟩
    have hread : readCount n (listWidth e) s = (.ok n.toNat, s) := by
      simp only [readCount, hcount]
    rw [Action.run_bind_ok hread, Action.run_bind_ok (readFailed_run s), hclean]
    rfl
  · refine .inr ⟨_, err, herr, hshort, ?_, hnone⟩
    have hread : readCount n (listWidth e) s = (.ok (s.reader.count n (listWidth e)).1,
        ⟨s.store, (s.reader.count n (listWidth e)).2⟩) := rfl
    rw [Action.run_bind_ok hread, Action.run_bind_ok (readFailed_run _), herr]
    rfl

theorem variableList_fills (hrt : rt.Sound) (hfill : Filling rt U fill inner reads)
    (hlocal : Local reads) (hs : Ready rt U s) (hy : U y) (hc : s.store.cell? y = some c)
    (hcell : CellTyped rt s.store p c) (hf : f ∈ p.fields) (hstored : f.stored = true)
    (hshape : f.shape = .variableList) (count : String) :
    Fills rt U s (decodeStep rt fill y counts (.variableList f.name f.elem count) s)
      (scanStep rt inner p counts (.variableList f.name f.elem count) s.reader.rest)
      (StepDone rt reads s.store y c (.variableList f.name f.elem count)) := by
  cases hlookup : counts.lookup count with
  | none =>
      simp only [decodeStep, scanStep, hlookup, Option.bind_none]
      exact ⟨.refl _, hs.typed, fun _ a ha => (by cases ha), fun b rest hscan => (by cases hscan)⟩
  | some n =>
      have hrun : decodeStep rt fill y counts (.variableList f.name f.elem count) s =
          (readList rt fill y f.name f.elem n >>= fun _ => (pure counts : Fill Counts)) s := by
        simp only [decodeStep, hlookup]
      rw [hrun, scanStep, hlookup, Option.bind_some]
      rcases readList_run inner f.name n hs.clean with
        ⟨hmax, hlist⟩ | ⟨r, err, herr, -, hlist, hnone⟩
      · rw [if_pos hmax, Action.run_bind, hlist, ← Action.run_bind, bind_assoc]
        cases helem : f.elem with
        | primitive t =>
            refine takes_put_fills hrt hs hy hc hcell hf hstored Value.list
              (readElements_takes (fun _ _ => False) t n.toNat s) (fun items hnumbers => ⟨?_, ?_⟩)
              rfl Content.group fun items parts t' hshown => ⟨parts, rfl, ?_⟩
            · unfold ValueTyped
              rw [hshape, helem]
              exact hnumbers.typed _
            · exact hnumbers.ids
            · rw [list_put_self]
              exact forall₂_itemShows_numbers hshown
        | message type =>
            obtain ⟨j, hj⟩ := hrt.elem hcell.plan hf helem
            have hfirst := readMessages_settles hrt hfill hlocal hj n.toNat s hs
            rw [Option.map_eq_bind]
            refine (hfirst.bind hs fun items parts rest s' _ hs' _ hrest hQ => ?_).toFills
            obtain ⟨hext, hitems, hfresh, hreplaced⟩ := hQ
            have hvalue : ValueTyped rt s'.store f (.list items) := by
              unfold ValueTyped
              rw [hshape, helem]
              exact hitems
            obtain ⟨hreplaced, hreads⟩ := hreplaced y (Store.lt_size hc)
            obtain ⟨-, htyped, hput, hdone⟩ := put_spec hrt hs hy hc hcell hf hstored hext hs'.typed
              hvalue (fun id hid => hs.free id (hfresh id hid)) hreplaced
            refine ⟨⟨.put s'.store y f.name _, htyped, fun hnone => (by cases hnone),
              fun b rest' hscan => ?_⟩, fun _ _ => hs'.clean⟩
            cases hscan
            refine ⟨counts, rfl, hrest ▸ .refl hs'.clean, rfl, _, hput, fun hunshared => ?_⟩
            obtain ⟨hchanged, hothers⟩ := hdone hunshared
            refine ⟨hchanged, ⟨parts, rfl, ?_⟩, hothers⟩
            rw [list_put_self]
            refine forall₂_itemShows_imp (fun id ct hid hmade => ?_) hreads
            obtain ⟨type, s₁, s₂, hnew, hread⟩ := hmade
            have hsame := hreplaced.sameFrom_put (Store.lt_size hc) f.name (.list items) id
              (List.mem_flatMap.mpr ⟨_, hid, List.mem_singleton_self id⟩)
            exact ⟨type, s₁, s₂, hnew, hlocal.later hsame hread⟩
      · rw [Action.run_bind_ok hlist]
        have hscan : (if n.toNat ≤ maxListLength then
            (scanMany (scanNewElement rt inner f.elem) n.toNat s.reader.rest).map fun r =>
              ((Content.group r.1, counts), r.2) else none) = none := by
          split
          · rename_i hmax
            rw [hnone hmax]
            rfl
          · rfl
        rw [hscan]
        refine ⟨.refl _, hs.typed, fun _ _ _ => ?_, fun b rest hscan => (by cases hscan)⟩
        exact Option.ne_none_iff_exists'.mpr ⟨err, herr⟩

theorem count_fills (hs : Ready rt U s) (hc : s.store.cell? y = some c) {t : Primitive}
    (hint : t.kind.isInteger = true) (field list : String) (discard : Bool) :
    Fills rt U s (decodeStep rt fill y counts (.count field list t discard) s)
      (scanStep rt inner p counts (.count field list t discard) s.reader.rest)
      (StepDone rt reads s.store y c (.count field list t discard)) := by
  obtain ⟨v, r, hrun, hkind, -, hok⟩ := readScalar_takes t.kind s
  obtain ⟨hnone, hsome⟩ := hok hs.clean
  have hword : (Datum.scalar v).toWord = .ok v.toWord := by
    rw [Datum.toWord, if_pos (hkind ▸ hint)]
  have hfinal : decodeStep rt fill y counts (.count field list t discard) s =
      (.ok (if discard then counts else (field, v.toWord) :: counts), ⟨s.store, r⟩) := by
    rw [decodeStep, Action.run_bind_ok hrun, hword]
    cases discard <;> rfl
  rw [hfinal, scanStep]
  refine ⟨.refl _, hs.typed, fun h _ _ => hnone (Option.map_eq_none_iff.mp h),
    fun b rest hscan => ?_⟩
  obtain ⟨⟨n, rest'⟩, hscan', heq⟩ := Option.map_eq_some_iff.mp hscan
  cases heq
  obtain ⟨hadv, rfl⟩ := hsome n rest' hscan'
  exact ⟨_, rfl, hadv, rfl, c, hc, fun hunshared =>
    ⟨.refl hunshared, ⟨v, rfl, hkind⟩, fun σ _ => .refl _ c σ⟩⟩

theorem number_fills (hrt : rt.Sound) (hs : Ready rt U s) (hy : U y)
    (hc : s.store.cell? y = some c) (hcell : CellTyped rt s.store p c) (hf : f ∈ p.fields)
    (hstored : f.stored = true) {t : Primitive} (hshape : f.shape = .primitive)
    (helem : f.elem = .primitive t) :
    Fills rt U s (decodeStep rt fill y counts (.primitive f.name t) s)
      (scanStep rt inner p counts (.primitive f.name t) s.reader.rest)
      (StepDone rt reads s.store y c (.primitive f.name t)) := by
  have hscan : scanStep rt inner p counts (.primitive f.name t) s.reader.rest =
      (scanScalar t.kind s.reader.rest).map fun r => ((Content.number r.1, counts), r.2) := by
    rw [scanStep, scanNumber, Option.map_map]
    rfl
  have htakes : Takes s (readScalar t.kind s) (fun n => n.kind = t.kind)
      (scanScalar t.kind s.reader.rest) fun n b => n = b ∧ n.kind = t.kind := by
    obtain ⟨v, r, hrun, hkind, hfail, hok⟩ := readScalar_takes t.kind s
    refine ⟨v, r, hrun, hkind, hfail, fun hclean => ⟨(hok hclean).1, fun b rest h => ?_⟩⟩
    obtain ⟨hadv, hb⟩ := (hok hclean).2 b rest h
    exact ⟨hadv, hb, hkind⟩
  rw [hscan]
  refine takes_put_fills hrt hs hy hc hcell hf hstored (fun v => .single (.scalar v)) htakes
    (fun v hkind => ⟨?_, rfl⟩) rfl Content.number fun v b t' hv => ?_
  · unfold ValueTyped
    rw [hshape, helem]
    exact hkind
  · exact ⟨v, Cell.value?_put_self c _ _, by rw [hv.1], hv.2⟩

/-- **What one step does**, whatever it reads. -/
theorem decodeStep_fills (hrt : rt.Sound) (hfill : Filling rt U fill inner reads)
    (hlocal : Local reads) (hs : Ready rt U s) (hy : U y) (hc : s.store.cell? y = some c)
    (hcell : CellTyped rt s.store p c) {step : DecodeStep} (hstep : step ∈ p.decode)
    (counts : Counts) :
    Fills rt U s (decodeStep rt fill y counts step s)
        (scanStep rt inner p counts step s.reader.rest)
      (StepDone rt reads s.store y c step) := by
  have hp := hrt.plan hcell.plan
  rcases (mem_decode hp).mp hstep with ⟨hhas, rfl⟩ | ⟨f, hf, -, rfl⟩
  · exact parent_fills hrt hfill hs hy hc hcell hhas _
  · cases hp.field f hf with
    | number t hshape helem hstored =>
        rw [Field.step_number hshape helem hstored]
        exact number_fills hrt hs hy hc hcell hf hstored hshape helem
    | count t l hshape helem hstored hint =>
        rw [Field.step_count hshape helem hstored]
        exact count_fills hs hc hint _ _ _
    | reference type hshape helem hstored =>
        simp only [Field.step_reference hshape, helem]
        exact reference_fills hrt hfill hs hy hc hcell hf hstored hshape helem
    | fixedList n hshape _ _ hstored =>
        rw [Field.step_fixedList hshape]
        exact fixedList_fills hrt hfill hlocal hs hy hc hcell hf hstored hshape
    | variableList k hshape hstored =>
        rw [Field.step_variableList hshape]
        exact variableList_fills hrt hfill hlocal hs hy hc hcell hf hstored hshape _

/-! ## All steps -/

/-- A step followed by a look at the reader. -/
theorem checked_settles {α β : Type} {act : Fill α} {scanned : Option (β × List UInt8)}
    {Q : α → β → Store → Prop} (h : Fills rt U s (act s) scanned Q) (place place' : String) :
    Settles rt U s ((within place act >>= fun a =>
      checkReader place' >>= fun _ => (pure a : Fill α)) s) scanned Q := by
  rcases hact : act s with ⟨e | a, s'⟩
  · rw [hact] at h
    rw [Action.run_bind_error (Action.within_eq_error hact)]
    refine ⟨⟨h.grows, h.typed, fun _ a ha => (by cases ha), fun b rest hscan => ?_⟩,
      fun a ha => (by cases ha)⟩
    obtain ⟨a, ha, -⟩ := h.done b rest hscan
    cases ha
  · rw [hact] at h
    rw [Action.run_bind_ok (Action.within_eq_ok.mpr hact)]
    cases herr : s'.reader.error? with
    | none =>
        have hcheck : checkReader place' s' = (.ok (), s') := by
          rw [checkReader, Action.run_bind_ok (Action.run_get s'), herr]
          rfl
        rw [Action.run_bind_ok hcheck, Action.run_pure]
        exact ⟨h, fun _ _ => herr⟩
    | some e =>
        have hcheck : checkReader place' s' = (.error (.at_ place' (.read e)), s') := by
          rw [checkReader, Action.run_bind_ok (Action.run_get s'), herr]
          rfl
        rw [Action.run_bind_error hcheck]
        refine ⟨⟨h.grows, h.typed, fun _ a ha => (by cases ha), fun b rest hscan => ?_⟩,
          fun a ha => (by cases ha)⟩
        obtain ⟨-, -, hadv, -⟩ := h.done b rest hscan
        rw [hadv.clean] at herr
        cases herr

/-- **Steps on different slots, one after the other.**  Later steps leave the slots of earlier ones
alone, and a step finds its own slot as it was before the first. -/
theorem steps_settles (hrt : rt.Sound) (hfill : Filling rt U fill inner reads)
    (hlocal : Local reads) (hy : U y) (place : String) (place' : DecodeStep → String)
    (steps : List DecodeStep) :
    ∀ {s : Input} {c : Cell} (counts : Counts), steps ⊆ p.decode → (steps.map slot).Nodup →
      Ready rt U s → s.store.cell? y = some c → CellTyped rt s.store p c →
      Settles rt U s
        (steps.foldlM (fun counts step => within place (decodeStep rt fill y counts step) >>=
          fun counts =>
            checkReader (place' step) >>= fun _ => (pure counts : Fill Counts)) counts s)
        (scanSteps rt inner p counts steps s.reader.rest)
        fun _ parts t => ∃ c', t.cell? y = some c' ∧ (Unshared s.store y → Changed s.store t y ∧
          List.Forall₂ (StepReads rt reads s.store t c c') steps parts ∧
          ∀ σ, σ ∉ steps.map slot → Untouched s.store t c c' σ) := by
  induction steps with
  | nil =>
      intro s c counts _ _ hs hc _
      exact Settles.pure hs rfl ⟨c, hc, fun hunshared =>
        ⟨.refl hunshared, .nil, fun σ _ => .refl _ c σ⟩⟩
  | cons step steps ih =>
      intro s c counts hsub hnodup hs hc hcell
      rw [List.map_cons, List.nodup_cons] at hnodup
      have hfirst := checked_settles (decodeStep_fills hrt hfill hlocal hs hy hc hcell
        (hsub List.mem_cons_self) counts) place (place' step)
      rw [List.foldlM_cons, scanSteps]
      refine hfirst.bind hs fun counts' b rest s' _ hs' hgrow hrest hdone => ?_
      obtain ⟨rfl, c₁, hc₁, hstep⟩ := hdone
      obtain ⟨c₁', hc₁', hplan, -⟩ := hgrow.cell y c hc
      obtain rfl : c₁' = c₁ := by
        rw [hc₁] at hc₁'
        exact (Option.some.inj hc₁').symm
      obtain ⟨p', hcell₁⟩ := (hs'.typed y c₁' hy hc₁).1
      obtain rfl : p' = p := by
        have hp' := hcell₁.plan
        rw [hplan, hcell.plan] at hp'
        exact (Option.some.inj hp').symm
      have hnext := ih b.2 (fun _ h => hsub (List.mem_cons_of_mem _ h)) hnodup.2 hs' hc₁
        hcell₁
      rw [hrest] at hnext
      refine hnext.map (b.1 :: ·) ?_
      rintro _ parts ⟨c', hc', hrestDone⟩
      refine ⟨c', hc', fun hunshared => ?_⟩
      obtain ⟨hchanged, hread, hothers⟩ := hstep hunshared
      obtain ⟨hchanged', hreads, hothers'⟩ := hrestDone hchanged.unshared
      refine ⟨hchanged.trans hchanged', .cons ?_ ?_, fun σ hσ => ?_⟩
      · exact hread.later (fun s id ct => hlocal.later) (hothers' _ hnodup.1)
      · refine ((List.forall₂_and_left _ _).mpr ⟨fun _ h => h, hreads⟩).imp ?_
        rintro step' ct ⟨hmem, hstep'⟩
        refine hstep'.earlier (fun id ct => hlocal.earlier) (hothers _ fun heq => hnodup.1 ?_)
        exact heq ▸ List.mem_map_of_mem hmem
      · rw [List.map_cons, List.mem_cons, not_or] at hσ
        exact (hothers σ hσ.1).trans (hothers' σ hσ.2)

end Step

/-- **Decoding follows the scanner**, and what was scanned is what was read into the message. -/
theorem decodeDepth_settles {rt : Runtime} {U : Id → Prop} (hrt : rt.Sound) (n : Nat) :
    Filling rt U (decodeDepth rt n) (scan rt n) (Reads rt n) := by
  induction n with
  | zero =>
      intro s y c hs _ _
      exact ⟨⟨.refl _, hs.typed, fun _ a ha => (by cases ha), fun b rest h => (by cases h)⟩,
        fun a ha => (by cases ha)⟩
  | succ n ih =>
      intro s y c hs hy hc
      have hlocal : Local (Reads rt n) := ⟨fun h => Reads.later n h, fun h => Reads.earlier n h⟩
      obtain ⟨p, hcell⟩ := (hs.typed y c hy hc).1
      have hp := hrt.plan hcell.plan
      have hplan : (liftM (rt.planOf s.store y) : Fill Plan) s = (.ok p, s) := by
        rw [Action.run_lift, Runtime.planOf, planOf?_eq.mpr ⟨c, hc, hcell.plan⟩]
      have hsteps := steps_settles hrt ih hlocal hy ("decode " ++ p.name)
        (fun step => "decode " ++ p.name ++ "." ++ step.field) p.decode []
        (fun _ h => h) (nodup_slots hp) hs hc hcell
      rw [decodeDepth, decodeWith, Action.run_bind_ok (Action.run_get s),
        Action.run_bind_ok hplan, scan,
        hcell.plan, Option.bind_some]
      refine hsteps.remember.bind_pure (fun _ => ()) Content.group ?_
      rintro _ parts ⟨⟨c', hc', hdone⟩, rest, hscan⟩ hunshared
      obtain ⟨hchanged, hreads, hothers⟩ := hdone hunshared
      obtain ⟨c'', hc'', hsame, -⟩ := hsteps.grows.cell y c hc
      have hcoherent : Coherent p.decode parts := by
        intro l e f ct hmem
        obtain ⟨xs, hxs, hmax, hcount⟩ := scanSteps_counted p.decode hscan l e f ct hmem
        refine ⟨xs, hxs, hmax, hcount.resolve_left ?_⟩
        rintro ⟨w, hw, -⟩
        cases hw
      refine ⟨hchanged, p, c, c', parts, hcell.plan, hc, hc', ?_, rfl, hcoherent, hreads, ?_⟩
      · rw [hc'] at hc''
        rw [Option.some.inj hc'', hsame]
      · exact fun f hf hser => hothers _ (slot_not_mem hp hf hser)

/-! ## Deep enough -/

/-- The depth that decoding starts with. -/
def startDepth (rt : Runtime) (s : Input) : Nat :=
  s.store.size + (s.reader.remaining + 1) * (rt.plans.size + 1)

theorem decode_run (rt : Runtime) (y : Id) (s : Input) :
    decode rt y s = decodeDepth rt (startDepth rt s) y s := by
  rw [decode, Action.run_bind_ok (Action.run_get s), startDepth]

theorem decode_settles {rt : Runtime} {U : Id → Prop} (hrt : rt.Sound) {s : Input} {y : Id}
    {c : Cell} (hs : Ready rt U s) (hy : U y) (hc : s.store.cell? y = some c) :
    Settles rt U s (decode rt y s) (scan rt (startDepth rt s) c.plan s.reader.rest) fun _ ct t =>
      Unshared s.store y → Changed s.store t y ∧ Reads rt (startDepth rt s) s.store t y ct := by
  rw [decode_run]
  exact decodeDepth_settles hrt _ s y c hs hy hc

/-- **What can be scanned at any depth is scanned at the one that decoding starts with.** -/
theorem scan_startDepth {rt : Runtime} (hrt : rt.Sound) {s : Input} {n i : Nat} {ct : Content}
    {rest : List UInt8} (h : scan rt n i s.reader.rest = some (ct, rest)) :
    scan rt (startDepth rt s) i s.reader.rest = some (ct, rest) := by
  obtain ⟨rank, hrank⟩ := hrt.ranked
  obtain ⟨p, hp⟩ : ∃ p, rt.plans[i]? = some p := by
    cases n with
    | zero => cases h
    | succ n =>
        rw [scan, Option.bind_eq_some_iff] at h
        exact ⟨h.choose, h.choose_spec.1⟩
  have hsmall := (hrank i p hp).1
  refine scan_depth hrt hrank n ?_ _ _ (Nat.lt_succ_self _) h
  rw [startDepth, Reader.remaining, Nat.succ_mul]
  omega

end WireSchema.Message
