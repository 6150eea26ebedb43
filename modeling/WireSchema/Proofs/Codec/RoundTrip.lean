import Mathlib
import WireSchema.Proofs.Codec.Fresh
import WireSchema.Proofs.Message.Access

/-!
# Decoding undoes encoding

The bytes of a message, with anything after them, are decoded into a new message that agrees with it
on everything that is on the wire; the rest of the new message is as it was made.

Both are said at every depth.  `AgreesTo` compares two messages field by field, and `KeepsTo` one
message before and after it was decoded.  An element of a variable list is made while decoding, so
it is compared with what it was when it was made.

## Main results

* `agreesTo_of_shows` — messages that show the same content agree.
* `Reads.keepsTo` — decoding leaves alone what is not serialized.
* `decode_of_marshal` — the round trip.
-/

namespace WireSchema.Message

open Plan (Field DecodeStep)

/-! ## Agreement -/

/-- Two items are the same number, or messages that agree as `inner` says. -/
def ItemAgrees (inner : Id → Id → Prop) : Item → Item → Prop
  | .scalar a, .scalar b => a = b
  | .message x, .message y => inner x y
  | _, _ => False

/-- Two values agree item by item. -/
def ValueAgrees (inner : Id → Id → Prop) : Value → Value → Prop
  | .single i, .single j => ItemAgrees inner i j
  | .list is, .list js => List.Forall₂ (ItemAgrees inner) is js
  | _, _ => False

/-- The parts of two messages that belong to their parents agree. -/
def ParentAgrees (inner : Id → Id → Prop) : Option Id → Option Id → Prop
  | some x, some y => inner x y
  | none, none => True
  | _, _ => False

/-- Two messages, each in its store, agree on every serialized field down to a depth: on the values
of stored fields, and on the length of the list for a count.  Nothing is said of a count whose list
is not serialized. -/
def AgreesTo (rt : Runtime) (st st' : Store) : (depth : Nat) → Id → Id → Prop
  | 0, _, _ => True
  | depth + 1, x, y => ∃ p c c', rt.plans[c.plan]? = some p ∧ st.cell? x = some c ∧
      st'.cell? y = some c' ∧ c'.plan = c.plan ∧
      ParentAgrees (AgreesTo rt st st' depth) c.parent? c'.parent? ∧
      (∀ f ∈ p.fields, f.serialized = true → f.stored = true →
        ∃ v v', c.value? f.name = some v ∧ c'.value? f.name = some v' ∧
          ValueAgrees (AgreesTo rt st st' depth) v v') ∧
      ∀ f ∈ p.fields, f.serialized = true → f.stored = false → p.discardsCount f = false →
        (c'.list f.countOf).length = (c.list f.countOf).length

section Agrees

variable {rt : Runtime} {st st' : Store} {inner inner' : Id → Content → Prop}
  {agrees : Id → Id → Prop}

/-- Messages of one type that show the same content agree. -/
def ShownAgree (rt : Runtime) (st st' : Store) (inner inner' : Id → Content → Prop)
    (agrees : Id → Id → Prop) (c c' : Cell) : Prop :=
  ∀ x y type ct, x ∈ c.children → y ∈ c'.children → OfType rt st x type → OfType rt st' y type →
    inner x ct → inner' y ct → agrees x y

theorem item_agrees {e : Element} {i j : Item} {ct : Content}
    (hinner : ∀ x y type, e = .message type → i = .message x → j = .message y → inner x ct →
      inner' y ct → agrees x y)
    (hi : ItemShows inner e i ct) (hj : ItemShows inner' e j ct) : ItemAgrees agrees i j := by
  cases e with
  | primitive t =>
      cases i with
      | message x => exact hi.elim
      | scalar a =>
          cases j with
          | message y => exact hj.elim
          | scalar b => exact Content.number.inj (hi.1.symm.trans hj.1)
  | message type =>
      cases i with
      | scalar a => exact hi.elim
      | message x =>
          cases j with
          | scalar b => exact hj.elim
          | message y => exact hinner x y type rfl rfl rfl hi hj

/-- Lists whose items show the same contents agree. -/
theorem items_agree {e : Element} {parts : List Content} {is js : List Item}
    (hinner : ∀ x y type ct, e = .message type → Item.message x ∈ is → Item.message y ∈ js →
      inner x ct → inner' y ct → agrees x y)
    (h : List.Forall₂ (ItemShows inner e) is parts)
    (h' : List.Forall₂ (ItemShows inner' e) js parts) :
    List.Forall₂ (ItemAgrees agrees) is js := by
  induction h generalizing js with
  | nil =>
      cases h'
      exact .nil
  | cons hi _ ih =>
      cases h' with
      | cons hj hrest =>
          refine .cons (item_agrees ?_ hi hj) (ih ?_ hrest)
          · rintro x y type rfl rfl rfl
            exact hinner x y type _ rfl List.mem_cons_self List.mem_cons_self
          · exact fun x y type ct he hx hy =>
              hinner x y type ct he (List.mem_cons_of_mem _ hx) (List.mem_cons_of_mem _ hy)

/-- A stored field that shows the same content in two messages. -/
theorem field_agrees {strict strict' : Bool} {p : Plan} {c c' : Cell} {f : Field}
    (hp : p.Sound) (hf : f ∈ p.fields) (hstored : f.stored = true) (hc : CellTyped rt st p c)
    (hc' : CellTyped rt st' p c') (hinner : ShownAgree rt st st' inner inner' agrees c c')
    {d : Bool} {ct : Content} (h : StepShows strict inner c (f.step d) ct)
    (h' : StepShows strict' inner' c' (f.step d) ct) :
    ∃ v v', c.value? f.name = some v ∧ c'.value? f.name = some v' ∧ ValueAgrees agrees v v' := by
  obtain ⟨v, hv, htyped⟩ := hc.stored f hf hstored
  obtain ⟨v', hv', htyped'⟩ := hc'.stored f hf hstored
  refine ⟨v, v', hv, hv', ?_⟩
  -- Messages in the two values are of the same type.
  have hmessages : ∀ x y type ct, f.elem = .message type → x ∈ v.ids → y ∈ v'.ids → inner x ct →
      inner' y ct → agrees x y := by
    intro x y type ct helem hx hy
    have hxtype := htyped.item hx
    have hytype := htyped'.item hy
    rw [helem] at hxtype hytype
    exact hinner x y type ct (Cell.ids_subset_children hv hx) (Cell.ids_subset_children hv' hy)
      hxtype hytype
  have hlists : ∀ items items' parts, v = .list items → v' = .list items' →
      List.Forall₂ (ItemShows inner f.elem) (c.list f.name) parts →
      List.Forall₂ (ItemShows inner' f.elem) (c'.list f.name) parts → ValueAgrees agrees v v' := by
    rintro items items' parts rfl rfl hshow hshow'
    rw [list_of_value? hv] at hshow
    rw [list_of_value? hv'] at hshow'
    refine items_agree (fun x y type ct he hx hy => hmessages x y type ct he ?_ ?_) hshow hshow'
    · exact List.mem_flatMap.mpr ⟨_, hx, List.mem_singleton_self x⟩
    · exact List.mem_flatMap.mpr ⟨_, hy, List.mem_singleton_self y⟩
  cases hp.field f hf with
  | count t l _ _ hunstored =>
      rw [hstored] at hunstored
      cases hunstored
  | number t hshape helem =>
      rw [Field.step_number hshape helem hstored] at h h'
      obtain ⟨i, hi, hshow⟩ := h
      obtain ⟨j, hj, hshow'⟩ := h'
      rw [hv] at hi
      rw [hv'] at hj
      cases hi
      cases hj
      exact item_agrees (fun x y type he => by cases he) hshow hshow'
  | reference type hshape helem =>
      simp only [Field.step_reference hshape, helem] at h h'
      obtain ⟨x, hx, hshow⟩ := h
      obtain ⟨y, hy, hshow'⟩ := h'
      rw [hv] at hx
      rw [hv'] at hy
      cases hx
      cases hy
      exact hmessages x y type ct helem (List.mem_singleton_self x) (List.mem_singleton_self y)
        hshow hshow'
  | fixedList n hshape =>
      rw [Field.step_fixedList hshape] at h h'
      obtain ⟨parts, rfl, hshow⟩ := h
      obtain ⟨parts', heq, hshow'⟩ := h'
      cases heq
      obtain ⟨items, hitems, -⟩ := htyped.fixedList hshape
      obtain ⟨items', hitems', -⟩ := htyped'.fixedList hshape
      exact hlists items items' parts hitems hitems' hshow hshow'
  | variableList k hshape =>
      rw [Field.step_variableList hshape] at h h'
      obtain ⟨parts, rfl, hshow⟩ := h
      obtain ⟨parts', heq, hshow'⟩ := h'
      cases heq
      obtain ⟨items, hitems, -⟩ := htyped.variableList hshape
      obtain ⟨items', hitems', -⟩ := htyped'.variableList hshape
      exact hlists items items' parts hitems hitems' hshow hshow'

/-- The parent parts of two messages of one plan. -/
theorem parent_agrees (hrt : rt.Sound) {strict strict' : Bool} {p : Plan} {c c' : Cell}
    (hc : CellTyped rt st p c) (hc' : CellTyped rt st' p c')
    (hboth : ∀ step ∈ p.decode, ∃ ct, StepShows strict inner c step ct ∧
      StepShows strict' inner' c' step ct)
    (hinner : ∀ q q' d d' ct, c.parent? = some q → c'.parent? = some q' → st.cell? q = some d →
      st'.cell? q' = some d' → d'.plan = d.plan → inner q ct → inner' q' ct → agrees q q') :
    ParentAgrees agrees c.parent? c'.parent? := by
  have hparent := hc.parent
  have hparent' := hc'.parent
  cases hhas : p.hasParent with
  | false =>
      have hnone : c.parent? = none := by simpa [hhas] using (hc.hasParent hrt).symm
      have hnone' : c'.parent? = none := by simpa [hhas] using (hc'.hasParent hrt).symm
      rw [hnone, hnone']
      trivial
  | true =>
      obtain ⟨ct, ⟨q, hq, hshow⟩, q', hq', hshow'⟩ :=
        hboth (.parent p.parentName) ((mem_decode (hrt.plan hc.plan)).mpr (.inl ⟨hhas, rfl⟩))
      rw [hq] at hparent
      rw [hq'] at hparent'
      obtain ⟨d, hd, hlink⟩ := hparent
      obtain ⟨d', hd', hlink'⟩ := hparent'
      have hsame := Option.some.inj (hlink'.symm.trans hlink)
      rw [hq, hq']
      exact hinner q q' d d' ct hq hq' hd hd' hsame hshow hshow'

/-- The list of a count that is not discarded. -/
theorem counted_list {p : Plan} (hp : p.Sound) {f : Field} (hf : f ∈ p.fields)
    (hunstored : f.stored = false) (hkept : p.discardsCount f = false) :
    ∃ l ∈ p.fields, l.name = f.countOf ∧ l.serialized = true ∧ l.stored = true ∧
      l.shape = .variableList := by
  cases hp.field f hf with
  | count t l _ _ _ _ hl hname hshape =>
      have hser := List.any_eq_false.mp hkept l hl
      refine ⟨l, hl, hname, by simpa [hname] using hser, ?_, hshape⟩
      cases hp.field l hl with
      | count t' l' hshape' =>
          rw [hshape] at hshape'
          cases hshape'
      | number t _ _ hstored => exact hstored
      | reference type _ _ hstored => exact hstored
      | fixedList n _ _ _ hstored => exact hstored
      | variableList k _ hstored => exact hstored
  | number t _ _ hstored | reference type _ _ hstored | fixedList n _ _ _ hstored
  | variableList k _ hstored =>
      rw [hunstored] at hstored
      cases hstored

/-- **Messages that show the same content agree**, down to any depth. -/
theorem agreesTo_of_shows (hrt : rt.Sound) {strict strict' : Bool} (k : Nat) :
    ∀ {n n' : Nat} {x y : Id} {c c' : Cell} {ct : Content}, Shows strict rt st n x ct →
      Shows strict' rt st' n' y ct → WellTyped rt st x → WellTyped rt st' y →
      st.cell? x = some c → st'.cell? y = some c' → c'.plan = c.plan →
      AgreesTo rt st st' k x y := by
  induction k with
  | zero => intros; trivial
  | succ k ih =>
      intro n n' x y c c' ct h h' hx hy hc hc' hplan
      obtain ⟨p, d, hd, hcell⟩ := hx.cell
      obtain rfl := Option.some.inj (hc.symm.trans hd)
      obtain ⟨p', d', hd', hcell'⟩ := hy.cell
      obtain rfl := Option.some.inj (hc'.symm.trans hd')
      obtain rfl : p = p' := by
        have hsame := hcell'.plan
        rw [hplan, hcell.plan] at hsame
        exact Option.some.inj hsame
      have hp := hrt.plan hcell.plan
      obtain ⟨n, parts, -, rfl, hsteps⟩ := h.steps hc hcell.plan
      obtain ⟨n', parts', -, heq, hsteps'⟩ := h'.steps hc' hcell'.plan
      cases heq
      have hboth : ∀ step ∈ p.decode, ∃ ct, StepShows strict (Shows strict rt st n) c step ct ∧
          StepShows strict' (Shows strict' rt st' n') c' step ct := by
        intro step hstep
        obtain ⟨l, hl⟩ := List.mem_iff_getElem?.mp hstep
        obtain ⟨ct, hct, hshow⟩ := Plan.forall₂_getElem? hsteps hl
        obtain ⟨ct', hct', hshow'⟩ := Plan.forall₂_getElem? hsteps' hl
        obtain rfl := Option.some.inj (hct.symm.trans hct')
        exact ⟨ct, hshow, hshow'⟩
      have hinner : ShownAgree rt st st' (Shows strict rt st n) (Shows strict' rt st' n')
          (AgreesTo rt st st' k) c c' := by
        rintro a b type ct ha hb ⟨q, hq, rfl⟩ htype' hshow hshow'
        obtain ⟨d, hd, hdplan⟩ := planOf?_eq.mp hq
        obtain ⟨d', hd', hsame⟩ := htype'.plan_eq hrt (hrt.named hdplan)
        exact ih hshow hshow' (hx.child hc ha) (hy.child hc' hb) hd hd' hsame
      have hfields : ∀ f ∈ p.fields, f.serialized = true → f.stored = true →
          ∃ v v', c.value? f.name = some v ∧ c'.value? f.name = some v' ∧
            ValueAgrees (AgreesTo rt st st' k) v v' := by
        intro f hf hser hstored
        obtain ⟨ct, hshow, hshow'⟩ := hboth _ ((mem_decode hp).mpr (.inr ⟨f, hf, hser, rfl⟩))
        exact field_agrees hp hf hstored hcell hcell' hinner hshow hshow'
      refine ⟨p, c, c', hcell.plan, hc, hc', hplan, ?_, hfields, ?_⟩
      · exact parent_agrees hrt hcell hcell' hboth
          fun q q' d d' ct hq hq' hd hd' hsame hshow hshow' =>
          ih hshow hshow' (hx.child hc (Cell.parent_mem_children hq))
            (hy.child hc' (Cell.parent_mem_children hq')) hd hd' hsame
      · intro f hf _ hunstored hkept
        obtain ⟨l, hl, hname, hlser, hlstored, hshape⟩ := counted_list hp hf hunstored hkept
        obtain ⟨v, v', hv, hv', hagree⟩ := hfields l hl hlser hlstored
        rw [hname] at hv hv'
        rw [Cell.list, Cell.list, hv, hv']
        cases v with
        | single i =>
            cases v' with
            | single j => rfl
            | list js => exact hagree.elim
        | list is =>
            cases v' with
            | single j => exact hagree.elim
            | list js => exact hagree.length_eq.symm

end Agrees

/-! ## What is not serialized -/

/-- Between two stores a message was decoded, and down to a depth it still holds in every field that
is not serialized what it held before, with everything below it.  Parent parts, references and the
slots of fixed lists are the same messages as before; the elements of variable lists are compared
with what they were right after they were made. -/
def KeepsTo (rt : Runtime) : (depth : Nat) → Store → Store → Id → Prop
  | 0, _, _, _ => True
  | depth + 1, s, t, y => ∃ p c c', rt.plans[c.plan]? = some p ∧ s.cell? y = some c ∧
      t.cell? y = some c' ∧ c'.plan = c.plan ∧
      (∀ q, c'.parent? = some q → c.parent? = some q ∧ KeepsTo rt depth s t q) ∧
      (∀ f ∈ p.fields, f.serialized = false → Untouched s t c c' (some f.name)) ∧
      (∀ f ∈ p.fields, f.serialized = true → f.shape ≠ .variableList →
        ∀ v, c'.value? f.name = some v → ∀ id ∈ v.ids, KeepsTo rt depth s t id ∧
          ∃ v₀, c.value? f.name = some v₀ ∧ id ∈ v₀.ids) ∧
      ∀ f ∈ p.fields, f.serialized = true → f.shape = .variableList →
        ∀ v, c'.value? f.name = some v → ∀ id ∈ v.ids,
          ∃ type s₁ s₂, new rt type s₁ = (.ok id, s₂) ∧ KeepsTo rt depth s₂ t id

section Keeps

variable {rt : Runtime} {t : Store}

/-- Every message in a list was shown. -/
theorem shown_of_mem {inner : Id → Content → Prop} {e : Element} {items : List Item}
    {parts : List Content} (h : List.Forall₂ (ItemShows inner e) items parts) {id : Id}
    (hid : id ∈ (Value.list items).ids) : ∃ ct, inner id ct := by
  obtain ⟨i, hi, hid⟩ := List.mem_flatMap.mp hid
  obtain ⟨k, hk⟩ := List.mem_iff_getElem?.mp hi
  obtain ⟨ct, -, hshow⟩ := Plan.forall₂_getElem? h hk
  cases i with
  | scalar n => cases hid
  | message id' =>
      obtain rfl := List.mem_singleton.mp hid
      cases e with
      | primitive k => exact hshow.elim
      | message type => exact ⟨ct, hshow⟩

section Steps

variable {inner : Store → Store → Id → Content → Prop} {s : Store} {p : Plan} {c c' : Cell}
  {f : Field} {v : Value} {id : Id} {d : Bool} {ct : Content}

/-- A message in a field other than a variable list was there before, and was read into. -/
theorem StepReads.held (hp : p.Sound) (hf : f ∈ p.fields) (hshape : f.shape ≠ .variableList)
    (htyped : ValueTyped rt t f v) (hv : c'.value? f.name = some v) (hid : id ∈ v.ids)
    (h : StepReads rt inner s t c c' (f.step d) ct) :
    (∃ ct, inner s t id ct) ∧ ∃ v₀, c.value? f.name = some v₀ ∧ id ∈ v₀.ids := by
  have hitem := htyped.item hid
  cases hp.field f hf with
  | number k _ helem | count k l _ helem =>
      rw [helem] at hitem
      exact hitem.elim
  | variableList k hshape' => exact absurd hshape' hshape
  | reference type hshape' =>
      rw [Field.step_reference hshape'] at h
      obtain ⟨hsame, id', hv', hread⟩ := h
      obtain rfl := Option.some.inj (hv.symm.trans (hsame.trans hv'))
      obtain rfl := List.mem_singleton.mp hid
      exact ⟨⟨ct, hread⟩, _, hv', List.mem_singleton_self id⟩
  | fixedList n hshape' =>
      rw [Field.step_fixedList hshape'] at h
      obtain ⟨hsame, parts, -, hitems⟩ := h
      obtain ⟨items, rfl, -⟩ := htyped.fixedList hshape'
      rw [list_of_value? hv] at hitems
      cases helem : f.elem with
      | primitive k =>
          rw [helem] at hitem
          exact hitem.elim
      | message type =>
          exact ⟨shown_of_mem hitems hid, _, (hsame type helem).symm.trans hv, hid⟩

/-- A message in a variable list was made and then read into. -/
theorem StepReads.made (hshape : f.shape = .variableList) (htyped : ValueTyped rt t f v)
    (hv : c'.value? f.name = some v) (hid : id ∈ v.ids)
    (h : StepReads rt inner s t c c' (f.step d) ct) :
    ∃ ct type s₁ s₂, new rt type s₁ = (.ok id, s₂) ∧ inner s₂ t id ct := by
  obtain ⟨items, rfl, -⟩ := htyped.variableList hshape
  rw [Field.step_variableList hshape] at h
  obtain ⟨parts, -, hitems⟩ := h
  rw [list_of_value? hv] at hitems
  exact shown_of_mem hitems hid

end Steps

/-- Decoding leaves alone what is not serialized. -/
theorem Reads.keepsTo (hrt : rt.Sound) (k : Nat) :
    ∀ {n : Nat} {s : Store} {y : Id} {ct : Content}, Reads rt n s t y ct → WellTyped rt t y →
      KeepsTo rt k s t y := by
  induction k with
  | zero => intros; trivial
  | succ k ih =>
      intro n s y ct h hy
      cases n with
      | zero => exact h.elim
      | succ n =>
          obtain ⟨p, c, c', parts, hp, hc, hc', hplan, -, -, hsteps, hrest⟩ := h
          obtain ⟨p', d, hd, hcell⟩ := hy.cell
          obtain rfl := Option.some.inj (hc'.symm.trans hd)
          obtain rfl : p' = p := by
            have hsame := hcell.plan
            rw [hplan, hp] at hsame
            exact (Option.some.inj hsame).symm
          have hsound := hrt.plan hp
          have hstep : ∀ step ∈ p'.decode, ∃ ct, StepReads rt (Reads rt n) s t c c' step ct := by
            intro step hstep
            obtain ⟨l, hl⟩ := List.mem_iff_getElem?.mp hstep
            obtain ⟨ct, -, hread⟩ := Plan.forall₂_getElem? hsteps hl
            exact ⟨ct, hread⟩
          have hfield : ∀ f ∈ p'.fields, f.serialized = true → _ := fun f hf hser =>
            hstep _ ((mem_decode hsound).mpr (.inr ⟨f, hf, hser, rfl⟩))
          refine ⟨p', c, c', hp, hc, hc', hplan, ?_, hrest, ?_, ?_⟩
          · intro q hq
            have hhas : p'.hasParent = true := by
              rw [hcell.hasParent hrt, hq]
              rfl
            obtain ⟨ct, hsame, q', hq', hread⟩ :=
              hstep _ ((mem_decode hsound).mpr (.inl ⟨hhas, rfl⟩))
            rw [hsame] at hq
            obtain rfl := Option.some.inj (hq'.symm.trans hq)
            refine ⟨hq, ih hread (hy.child hc' ?_)⟩
            exact Cell.parent_mem_children (hsame.trans hq)
          · intro f hf hser hshape v hv id hid
            obtain ⟨ct, hread⟩ := hfield f hf hser
            obtain ⟨⟨ct, hread⟩, hbefore⟩ :=
              hread.held hsound hf hshape (hcell.value hsound hf hv) hv hid
            exact ⟨ih hread (hy.child hc' (Cell.ids_subset_children hv hid)), hbefore⟩
          · intro f hf hser hshape v hv id hid
            obtain ⟨ct, hread⟩ := hfield f hf hser
            obtain ⟨ct, type, s₁, s₂, hnew, hread⟩ :=
              hread.made hshape (hcell.value hsound hf hv) hv hid
            exact ⟨type, s₁, s₂, hnew, ih hread (hy.child hc' (Cell.ids_subset_children hv hid))⟩

end Keeps

/-- **Decoding undoes encoding.**  The bytes of a well-typed message whose lists are not too long
are decoded into a new message of its type, whatever follows them; exactly these bytes are taken.
The new message agrees with the old one on what is serialized, at every depth, and what is not
serialized is as it was made. -/
theorem decode_of_marshal {catalog : Catalog} {limit : Int} {raw : Model} {sized : Bool}
    {S : PlanSet} (hresolve : (Resolve.run catalog limit raw).succeeded = true)
    (hderive : PlanSet.derive sized (Resolve.run catalog limit raw).model = .ok S) {st : Store}
    {x : Id} {type : String} (hx : WellTyped (.ofSet S) st x) (htype : OfType (.ofSet S) st x type)
    (hlists : ListsFit (.ofSet S) st x) {d : List UInt8} (hd : marshal (.ofSet S) st x = .ok d)
    (st₀ : Store) (s : List UInt8) :
    ∃ y st₁ st₂ r, new (.ofSet S) type st₀ = (.ok y, st₁) ∧
      decode (.ofSet S) y ⟨st₁, .ofBytes (d ++ s)⟩ = (.ok (), ⟨st₂, r⟩) ∧
      r.offset = d.length ∧ r.rest = s ∧
      (∀ n, AgreesTo (.ofSet S) st st₂ n x y) ∧ ∀ n, KeepsTo (.ofSet S) n st₁ st₂ y := by
  have hrt := Runtime.ofSet_sound (Resolve.run_bound hresolve) hderive
  obtain ⟨rank, hrank⟩ := hrt.ranked
  obtain ⟨p, c, hc, hcell⟩ := hx.cell
  -- What the message shows is what can be scanned.
  obtain ⟨ct, hshows, rfl⟩ := shows_of_marshal hrt hd
  have hscan := scan_of_shows hrt _ hshows hx hlists hc s
  -- A new message of its type can be made.
  have hpos : (Runtime.ofSet S).position? type = some c.plan := by
    obtain ⟨q, hq, rfl⟩ := htype
    obtain ⟨c', hc', hplan⟩ := planOf?_eq.mp hq
    obtain rfl := Option.some.inj (hc.symm.trans hc')
    exact hrt.named hplan
  have hsmall := (hrank c.plan p hcell.plan).1
  have hmakeable := hx.makeable hrt hrank _ hc (Nat.lt_succ_of_lt hsmall)
  have hmakes := new_makes hrt hpos st₀
  obtain ⟨y, hy, hmade, c₁, hc₁, hplan⟩ := hmakes.done hmakeable
  set st₁ := (new (.ofSet S) type st₀).2
  have hfresh : st₀.size ≤ y :=
    (hmade.below y (List.mem_singleton_self y) y (Reach.refl _ y)).1
  -- It is decoded into.
  have hready : Ready (.ofSet S) (fun w => st₀.size ≤ w) ⟨st₁, .ofBytes (ct.bytes ++ s)⟩ :=
    ⟨fun w hw => hmakes.extends_.size_le.trans hw, hmakes.typed, rfl⟩
  have hsettles := decode_settles hrt hready hfresh hc₁
  rw [← hplan] at hscan
  obtain ⟨u, hok, hadv, hread⟩ := hsettles.done ct s (scan_startDepth hrt hscan)
  obtain ⟨hchanged, hreads⟩ := hread (hmade.forest.1 y (List.mem_singleton_self y))
  rcases hdecode : decode (.ofSet S) y ⟨st₁, .ofBytes (ct.bytes ++ s)⟩ with ⟨res, st₂, r⟩
  rw [hdecode] at hsettles hok hadv hreads
  obtain rfl : res = .ok () := hok
  obtain ⟨c₂, hc₂, hplan₂, -⟩ := hsettles.grows.cell y c₁ hc₁
  have hy₂ : WellTyped (.ofSet S) st₂ y := hsettles.typed.wellTyped hfresh hc₂
  refine ⟨y, st₁, st₂, r, Prod.ext hy rfl, hdecode, ?_, hadv.rest, fun n => ?_, fun n => ?_⟩
  · have hoffset := hadv.offset
    simp only [Wire.Reader.ofBytes, List.length_append] at hoffset
    omega
  · exact agreesTo_of_shows hrt n hshows (hreads.shows hrt _) hx hy₂ hc hc₂ (hplan₂.trans hplan)
  · exact hreads.keepsTo hrt n hy₂

/-- The node with one node in it, read back from its bytes with one more byte after them. -/
theorem decode_of_marshal_node : ∃ y st₁ st₂ r, new Sample.runtime "Node" .empty = (.ok y, st₁) ∧
    decode Sample.runtime y ⟨st₁, .ofBytes (Sample.bytes ++ [255])⟩ = (.ok (), ⟨st₂, r⟩) ∧
    r.offset = 6 ∧ r.rest = [255] ∧
    (∀ n, AgreesTo Sample.runtime Sample.store st₂ n 1 y) ∧
      ∀ n, KeepsTo Sample.runtime n st₁ st₂ y :=
  decode_of_marshal Sample.resolves Sample.derives Sample.fresh.typed Sample.fresh.ofType
    (listsFit_of_cells (by decide +kernel) 1) Sample.marshals .empty [255]

/-! ## Counts that are read in vain -/

namespace Tally

/-- A count that is serialized without its list. -/
def schema : Model where
  classes := [
    { name := "Tally"
      attributes := [
        { name := "n", shape := some .primitive, type := "unsigned byte", isCount := true,
          counts := "marks" },
        { name := "marks", shape := some .variableList, type := "unsigned byte",
          serialize := false }] }]

/-- The schema with its names bound. -/
def model : Model := (Resolve.run .standard 3 schema).model

/-- The plans of the schema. -/
def plans : PlanSet := ((PlanSet.derive false model).toOption).getD ⟨[], [], [], .empty⟩

/-- The runtime of the schema. -/
def runtime : Runtime := .ofSet plans

/-- The store with a new tally, which has the number 0. -/
def start : Store := (new runtime "Tally" .empty).2

/-- The store after a mark was added. -/
def marked : Store :=
  ((append runtime start 0 "marks" (.datum (.scalar (.zero .uint8))) 1).toOption).getD .empty

/-- The store with a second tally, which has the number 1. -/
def second : Store := (new runtime "Tally" marked).2

/-- The store after the bytes of the first tally were decoded into the second. -/
def copied : Store := (unmarshal runtime second 1 [1]).2

/-- What the schema comes to: its plans, a new tally, and a mark in it. -/
theorem computed :
    (Resolve.run .standard 3 schema).succeeded = true ∧
      (PlanSet.derive false model).toOption.isSome = true ∧
      (new runtime "Tally" .empty).1.toOption = some 0 ∧
      (append runtime start 0 "marks" (.datum (.scalar (.zero .uint8))) 1).toOption.isSome = true ∧
      (marked.cell? 0).map Cell.children = some [] := by
  decide +kernel

theorem resolves : (Resolve.run .standard 3 schema).succeeded = true := computed.1

theorem derives : PlanSet.derive false model = .ok plans := ok_getD computed.2.1 _

/-- The first tally is well-typed and holds no messages. -/
theorem marked_typed : WellTyped runtime marked 0 ∧ Acyclic marked 0 := by
  have hrt : runtime.Sound := Runtime.ofSet_sound (Resolve.run_bound resolves) derives
  obtain ⟨-, -, hmade, hgrown, hleaf⟩ := computed
  have hnew : new runtime "Tally" .empty = (.ok 0, start) := Prod.ext (ok_of_toOption hmade) rfl
  have happend : append runtime start 0 "marks" (.datum (.scalar (.zero .uint8))) 1 = .ok marked :=
    ok_getD hgrown _
  obtain ⟨-, htyped, -⟩ := new_region hrt hnew
  have hall : AllTyped runtime start := fun z c _ hc => by
    obtain ⟨hp, -⟩ := htyped z c (Nat.zero_le z) hc
    exact ⟨hp, fun _ _ => trivial⟩
  have hmarked := append_typed hrt hall (fun id hid => absurd hid List.not_mem_nil) happend
  obtain ⟨c, hc, hnil⟩ := Option.map_eq_some_iff.mp hleaf
  refine ⟨hmarked.wellTyped trivial hc, .of_children hc fun z hz => ?_⟩
  rw [hnil] at hz
  cases hz

end Tally

/-- **A count whose list is not serialized does not come back.**  The first tally is written as the
count of its mark; a new tally is decoded from that and still counts none. -/
theorem decode_forgets_count :
    (Resolve.run .standard 3 Tally.schema).succeeded = true ∧
      PlanSet.derive false Tally.model = .ok Tally.plans ∧
      (WellTyped Tally.runtime Tally.marked 0 ∧ Acyclic Tally.marked 0) ∧
      marshal Tally.runtime Tally.marked 0 = .ok [1] ∧
      new Tally.runtime "Tally" Tally.marked = (.ok 1, Tally.second) ∧
      unmarshal Tally.runtime Tally.second 1 [1] = (.ok (), Tally.copied) ∧
      getField Tally.runtime Tally.marked 0 "n" = .ok (.single (.scalar (.ofWord .uint8 1))) ∧
      getField Tally.runtime Tally.copied 1 "n" = .ok (.single (.scalar (.ofWord .uint8 0))) := by
  refine ⟨Tally.resolves, Tally.derives, Tally.marked_typed, ok_of_toOption (by decide +kernel),
    Prod.ext (ok_of_toOption (by decide +kernel)) rfl,
    Prod.ext (ok_of_toOption (by decide +kernel)) rfl, ok_of_toOption (by decide +kernel),
    ok_of_toOption (by decide +kernel)⟩

end WireSchema.Message
