import Mathlib
import WireSchema.Message.Construct
import WireSchema.Proofs.Message.Made

/-!
# First values and initial values

Construction gives the fields of a message their first values and then makes the assignments of its
plan, each of which goes to the message itself or to one of its parent parts.  `Constructed` says
what a message holds after some assignments: in each of its fields the number that was assigned to
it last, or its first value.  A parent part had the assignments of its own plan made to it before.

The plans along the parent parts have different names, so an assignment finds one part and leaves
the others as they were.

## Main results

* `Constructed.sameFrom` — what a message holds depends on the cells below it only.
* `CellNew.alloc` — a message with first values that holds new messages.
* `Constructed.assign` — one more assignment to a part of a message.
-/

namespace WireSchema.Message

open Plan (Field Assignment)

/-! ## Parts of messages -/

section Parts

variable {rt : Runtime} {t : Store} {n : Nat} {x y : Id} {c d : Cell}

/-- A part of a message is the message itself or a part of its parent part. -/
theorem Store.mem_partsFrom (h : x ∈ t.partsFrom n y) :
    x = y ∨ ∃ k c q, n = k + 1 ∧ t.cell? y = some c ∧ c.parent? = some q ∧
      x ∈ t.partsFrom k q := by
  cases n with
  | zero => cases h
  | succ k =>
      rw [Store.partsFrom] at h
      rcases List.mem_cons.mp h with rfl | hmem
      · exact .inl rfl
      · cases hq : t.parent? y with
        | none =>
            rw [hq] at hmem
            cases hmem
        | some q =>
            rw [hq] at hmem
            obtain ⟨c, hc, hparent⟩ := Option.bind_eq_some_iff.mp hq
            exact .inr ⟨k, c, q, rfl, hc, hparent, hmem⟩

/-- A message leads to its parts. -/
theorem reach_part : ∀ {n : Nat} {y : Id}, x ∈ t.partsFrom n y → Reach t y x := by
  intro n
  induction n with
  | zero =>
      intro y h
      cases h
  | succ n ih =>
      intro y h
      rcases Store.mem_partsFrom h with rfl | ⟨k, c, q, hk, hc, hq, hmem⟩
      · exact Reach.refl t x
      · obtain rfl : n = k := Nat.succ_injective hk
        exact Reach.head hc (Cell.parent_mem_children hq) (ih hmem)

/-- The parent part of a well-typed message follows a plan of a smaller rank. -/
theorem WellTyped.parent_rank {rank : Nat → Nat} (hrank : rt.Ranked rank) {q : Id}
    (hy : WellTyped rt t y) (hc : t.cell? y = some c) (hq : c.parent? = some q)
    (hd : t.cell? q = some d) : rank d.plan < rank c.plan := by
  obtain ⟨p, c', hc', hcell⟩ := hy.cell
  obtain rfl := Option.some.inj (hc.symm.trans hc')
  have hparent := hcell.parent
  rw [hq] at hparent
  obtain ⟨d', hd', hlink⟩ := hparent
  obtain rfl := Option.some.inj (hd.symm.trans hd')
  exact (hrank c.plan p hcell.plan).2 d.plan (.inl hlink)

/-- The parts of a well-typed message follow plans of smaller ranks. -/
theorem WellTyped.part_rank {rank : Nat → Nat} (hrank : rt.Ranked rank)
    (hd : t.cell? x = some d) : ∀ {n : Nat} {y : Id} {c : Cell}, WellTyped rt t y →
      t.cell? y = some c → x ∈ t.partsFrom n y → rank d.plan ≤ rank c.plan := by
  intro n
  induction n with
  | zero =>
      intro y c _ _ h
      cases h
  | succ n ih =>
      intro y c hy hc h
      rcases Store.mem_partsFrom h with rfl | ⟨k, c', q, hk, hc', hq, hmem⟩
      · rw [Option.some.inj (hc.symm.trans hd)]
      · obtain rfl : n = k := Nat.succ_injective hk
        obtain rfl := Option.some.inj (hc.symm.trans hc')
        have hchild := hy.child hc (Cell.parent_mem_children hq)
        obtain ⟨p, e, he, -⟩ := hchild.cell
        exact (ih hchild he hmem).trans (hy.parent_rank hrank hc hq he).le

end Parts

/-! ## What a constructed message holds -/

/-- The number that some assignments give last to a field of the plan called `owner`. -/
def lastAssigned (done : List Assignment) (owner field : String) : Option Scalar :=
  ((done.filter fun a => a.owner == owner && a.field == field).getLast?).map (·.value)

@[simp] theorem lastAssigned_nil (owner field : String) : lastAssigned [] owner field = none := rfl

theorem lastAssigned_append_self (done : List Assignment) (a : Assignment) :
    lastAssigned (done ++ [a]) a.owner a.field = some a.value := by
  simp [lastAssigned]

theorem lastAssigned_append_ne (done : List Assignment) {a : Assignment} {owner field : String}
    (hne : ¬ (a.owner = owner ∧ a.field = field)) :
    lastAssigned (done ++ [a]) owner field = lastAssigned done owner field := by
  have hdrop : [a].filter (fun a => a.owner == owner && a.field == field) = [] := by
    simpa using hne
  rw [lastAssigned, List.filter_append, hdrop, List.append_nil, lastAssigned]

/-- What a field holds to which the number `last?` was assigned last, if any was.  Messages in the
field are not looked at. -/
def Field.Holds (last? : Option Scalar) (f : Field) (v : Value) : Prop :=
  match f.shape, f.elem with
  | .primitive, .primitive t => v = .single (.scalar (last?.getD (f.default?.getD t.zero)))
  | .fixedList _, .primitive t => ∃ items, v = .list items ∧ ∀ i ∈ items, i = .scalar t.zero
  | .variableList, _ => v = .list []
  | _, _ => True

/-- What the message `y` holds since its fields got their first values and the assignments `done`
were made to it. -/
inductive Constructed (rt : Runtime) (st : Store) : List Assignment → Id → Prop where
  | mk {done : List Assignment} {y : Id} {c : Cell} {p : Plan} (cell : st.cell? y = some c)
      (plan : rt.plans[c.plan]? = some p)
      (own : ∀ f ∈ p.fields, f.stored = true → ∃ v, c.value? f.name = some v ∧
        Field.Holds (lastAssigned done p.name f.name) f v)
      (parent : ∀ q p', c.parent? = some q → rt.planOf? st q = some p' →
        Constructed rt st (p'.assignments ++ done) q)
      (items : ∀ z p', z ∈ c.fields.flatMap (·.2.ids) → rt.planOf? st z = some p' →
        Constructed rt st p'.assignments z) : Constructed rt st done y

/-- A message to which the assignments of its plan were made, and no others. -/
def IsNew (rt : Runtime) (st : Store) (y : Id) : Prop :=
  ∀ p, rt.planOf? st y = some p → Constructed rt st p.assignments y

section Constructed

variable {rt : Runtime} {s s' t : Store} {y : Id} {c : Cell} {p : Plan} {done : List Assignment}

theorem SameFrom.planOf?_eq (h : SameFrom s s' y) : rt.planOf? s' y = rt.planOf? s y := by
  rw [Runtime.planOf?, Runtime.planOf?, h.cell]

/-- **What a message holds depends on the cells below it only.** -/
theorem Constructed.sameFrom (h : Constructed rt s done y) :
    SameFrom s s' y → Constructed rt s' done y := by
  induction h with
  | @mk done y c p cell plan own parent items ihparent ihitems =>
      intro hsame
      refine .mk (hsame.cell.trans cell) plan own (fun q p' hq hp' => ?_) fun z p' hz hp' => ?_
      · have hchild := hsame.child cell (Cell.parent_mem_children hq)
        exact ihparent q p' hq (hchild.planOf?_eq ▸ hp') hchild
      · have hchild := hsame.child cell (List.mem_append_right _ hz)
        exact ihitems z p' hz (hchild.planOf?_eq ▸ hp') hchild

theorem IsNew.sameFrom (h : IsNew rt s y) (hsame : SameFrom s s' y) : IsNew rt s' y :=
  fun p hp => (h p (hsame.planOf?_eq ▸ hp)).sameFrom hsame

/-! ### Before the first assignment -/

/-- A first item of an element type: a zero, or a new message. -/
structure ItemNew (rt : Runtime) (s : Store) (e : Element) (i : Item) : Prop where
  typed : ItemTyped rt s e i
  zero : ∀ t, e = .primitive t → i = .scalar t.zero
  held : ∀ z ∈ i.ids, IsNew rt s z

/-- A first value of a field. -/
structure ValueNew (rt : Runtime) (s : Store) (f : Field) (v : Value) : Prop where
  typed : ValueTyped rt s f v
  holds : Field.Holds none f v
  held : ∀ z ∈ v.ids, IsNew rt s z

/-- A message before it is put into the store: its fields have their first values, and what it holds
is new. -/
structure CellNew (rt : Runtime) (s : Store) (p : Plan) (c : Cell) : Prop where
  typed : CellTyped rt s p c
  own : ∀ f ∈ p.fields, f.stored = true → ∃ v, c.value? f.name = some v ∧ Field.Holds none f v
  held : ∀ z ∈ c.children, IsNew rt s z

/-- Making more messages leaves those that were made before new. -/
theorem Made.isNew {s₀ : Store} {zs : List Id} (hmade : Made s₀ s zs) (hext : Extends s s')
    (h : ∀ z ∈ zs, IsNew rt s z) : ∀ z ∈ zs, IsNew rt s' z :=
  fun z hz => (h z hz).sameFrom (hext.sameFrom (hmade.complete hz))

theorem ItemNew.later {s₀ : Store} {e : Element} {i : Item} (h : ItemNew rt s e i)
    (hmade : Made s₀ s i.ids) (hext : Extends s s') : ItemNew rt s' e i :=
  ⟨h.typed.mono hext.grows, h.zero, hmade.isNew hext h.held⟩

theorem ValueNew.later {s₀ : Store} {f : Field} {v : Value} (h : ValueNew rt s f v)
    (hmade : Made s₀ s v.ids) (hext : Extends s s') : ValueNew rt s' f v :=
  ⟨h.typed.mono hext.grows, h.holds, hmade.isNew hext h.held⟩

/-- A message that was just put into the store. -/
theorem CellNew.alloc {s₀ : Store} (h : CellNew rt s p c) (hmade : Made s₀ s c.children) :
    Constructed rt (s.alloc c).2 [] s.size := by
  have hcell : (s.alloc c).2.cell? s.size = some c := by rw [Store.cell?_alloc, if_pos rfl]
  have hheld := hmade.isNew (Extends.alloc s c) h.held
  refine .mk hcell h.typed.plan h.own (fun q p' hq hp' => ?_) fun z p' hz hp' => ?_
  · rw [List.append_nil]
    exact hheld q (Cell.parent_mem_children hq) p' hp'
  · exact hheld z (List.mem_append_right _ hz) p' hp'

/-! ### Assignments -/

/-- The field `f` of the plan `p` is the number that an assignment sets. -/
structure Receives (p : Plan) (f : Field) (a : Assignment) : Prop where
  owner : p.name = a.owner
  mem : f ∈ p.fields
  name : f.name = a.field
  shape : f.shape = .primitive
  stored : f.stored = true
  elem : ∃ u, f.elem = .primitive u ∧ a.value.kind = u.kind

theorem Receives.typed {f : Field} {a : Assignment} (h : Receives p f a) (rt : Runtime)
    (s : Store) : ValueTyped rt s f (.single (.scalar a.value)) := by
  obtain ⟨u, helem, hkind⟩ := h.elem
  simp only [ValueTyped, h.shape, helem]
  exact hkind

theorem Receives.holds {f : Field} {a : Assignment} (h : Receives p f a) :
    Field.Holds (some a.value) f (.single (.scalar a.value)) := by
  obtain ⟨u, helem, -⟩ := h.elem
  simp [Field.Holds, h.shape, helem]

/-- What the assignment replaces is a number too. -/
theorem Receives.exists_number {f : Field} {a : Assignment} (h : Receives p f a)
    (hc : CellTyped rt s p c) : ∃ n, c.value? f.name = some (.single (.scalar n)) := by
  obtain ⟨u, helem, -⟩ := h.elem
  obtain ⟨v, hv, htyped⟩ := hc.stored f h.mem h.stored
  obtain ⟨n, rfl, -⟩ := htyped.number h.shape helem
  exact ⟨n, hv⟩

/-- Plans of different ranks have different names. -/
theorem Runtime.Sound.name_ne (hrt : rt.Sound) {rank : Nat → Nat} {i j : Nat} {r : Plan}
    (hp : rt.plans[i]? = some p) (hr : rt.plans[j]? = some r) (hlt : rank i < rank j) :
    p.name ≠ r.name := by
  intro hname
  have hsame := hrt.named hp
  rw [hname, hrt.named hr] at hsame
  rw [Option.some.inj hsame] at hlt
  exact lt_irrefl _ hlt

/-- An assignment to a plan of a higher rank goes to no part of the message. -/
theorem Constructed.elsewhere (hrt : rt.Sound) {rank : Nat → Nat} (hrank : rt.Ranked rank)
    {a : Assignment} {j : Nat} {r : Plan} (hr : rt.plans[j]? = some r) (howner : r.name = a.owner)
    (h : Constructed rt s done y) : ∀ {c : Cell}, WellTyped rt s y → s.cell? y = some c →
      rank c.plan < rank j → Constructed rt s (done ++ [a]) y := by
  induction h with
  | @mk done y c p cell plan own parent items ihparent _ =>
      intro c' hy hc hlt
      obtain rfl := Option.some.inj (cell.symm.trans hc)
      have hne := hrt.name_ne plan hr hlt
      refine .mk cell plan (fun f hf hstored => ?_) (fun q p' hq hp' => ?_) items
      · obtain ⟨v, hv, hholds⟩ := own f hf hstored
        refine ⟨v, hv, ?_⟩
        rw [lastAssigned_append_ne done fun hboth => hne (hboth.1 ▸ howner).symm]
        exact hholds
      · obtain ⟨d, hd, -⟩ := planOf?_eq.mp hp'
        have hfall := hy.parent_rank hrank cell hq hd
        rw [← List.append_assoc]
        exact ihparent q p' hq hp' (hy.child cell (Cell.parent_mem_children hq)) hd
          (hfall.trans hlt)

/-- Writing a field leaves every message its plan. -/
theorem planOf?_put (t : Store) (x : Id) (field : String) (v : Value) (z : Id) :
    rt.planOf? (t.put x field v) z = rt.planOf? t z := by
  rw [Runtime.planOf?, Runtime.planOf?, Store.cell?_put]
  split
  · cases t.cell? z <;> rfl
  · rfl

/-- Writing into a message leaves what does not lead to it as it is. -/
theorem sameFrom_put {x z : Id} (h : ¬ Reach t z x) (field : String) (v : Value) :
    SameFrom t (t.put x field v) z := by
  intro w hw
  refine Store.cell?_put_ne t ?_ _ _
  rintro rfl
  exact h hw

section Assign

variable {rank : Nat → Nat} {a : Assignment} {x : Id} {d : Cell} {r : Plan} {f : Field}

/-- The message itself has the field that is assigned. -/
theorem Constructed.assign_self (hrt : rt.Sound) (hrank : rt.Ranked rank) (hd : t.cell? x = some d)
    (hr : rt.plans[d.plan]? = some r) (hf : Receives r f a) (h : Constructed rt t done x)
    (hx : WellTyped rt t x) (hun : Unshared t x) :
    Constructed rt (t.put x f.name (.single (.scalar a.value))) (done ++ [a]) x := by
  obtain ⟨hc, hp, hown, hparent, hitems⟩ := h
  obtain rfl := Option.some.inj (hd.symm.trans hc)
  obtain rfl := Option.some.inj (hr.symm.trans hp)
  obtain ⟨-, hself⟩ := (unshared_iff hd).mp hun
  refine .mk (Store.cell?_put_self hd _ _) hr (fun g hg hstored => ?_) (fun q p' hq hp' => ?_)
    fun z p' hz hp' => ?_
  · by_cases hname : g.name = f.name
    · obtain rfl := (hrt.plan hr).field_unique hg hf.mem hname
      refine ⟨_, Cell.value?_put_self d _ _, ?_⟩
      rw [hf.owner, hf.name, lastAssigned_append_self]
      exact hf.holds
    · obtain ⟨v, hv, hholds⟩ := hown g hg hstored
      refine ⟨v, (Cell.value?_put_ne d hname _).trans hv, ?_⟩
      rw [lastAssigned_append_ne done fun hboth => hname (hboth.2.symm.trans hf.name.symm)]
      exact hholds
  · have hchild := Cell.parent_mem_children (c := d) hq
    rw [planOf?_put] at hp'
    obtain ⟨e, he, -⟩ := planOf?_eq.mp hp'
    rw [← List.append_assoc]
    exact ((hparent q p' hq hp').elsewhere hrt hrank hr hf.owner (hx.child hd hchild) he
      (hx.parent_rank hrank hd hq he)).sameFrom (sameFrom_put (hself q hchild) _ _)
  · have hold : z ∈ d.fields.flatMap (·.2.ids) := by
      obtain ⟨⟨m, w⟩, hmem, hid⟩ := List.mem_flatMap.mp hz
      rcases mem_putField hmem with heq | hmem
      · obtain ⟨-, rfl⟩ := Prod.mk.inj heq
        cases hid
      · exact List.mem_flatMap.mpr ⟨(m, w), hmem, hid⟩
    rw [planOf?_put] at hp'
    exact (hitems z p' hold hp').sameFrom
      (sameFrom_put (hself z (List.mem_append_right _ hold)) _ _)

/-- **One more assignment.**  A number written into the field of a part that the assignment names is
the last one assigned to that field, and to no other. -/
theorem Constructed.assign (hrt : rt.Sound) (hrank : rt.Ranked rank) (hd : t.cell? x = some d)
    (hr : rt.plans[d.plan]? = some r) (hf : Receives r f a) (n : Nat) :
    ∀ {y : Id} {done : List Assignment}, Constructed rt t done y → WellTyped rt t y →
      Unshared t y → x ∈ t.partsFrom n y →
      Constructed rt (t.put x f.name (.single (.scalar a.value))) (done ++ [a]) y := by
  induction n with
  | zero =>
      intro y done _ _ _ hx
      cases hx
  | succ n ih =>
      intro y done h hy hun hx
      rcases Store.mem_partsFrom hx with rfl | ⟨k, c, q, hk, hc, hq, hmem⟩
      · exact h.assign_self hrt hrank hd hr hf hy hun
      obtain rfl : n = k := Nat.succ_injective hk
      obtain ⟨hc', hp, hown, hparent, hitems⟩ := h
      obtain rfl := Option.some.inj (hc.symm.trans hc')
      obtain ⟨⟨-, hapart⟩, hself⟩ := (unshared_iff hc).mp hun
      have hchild := Cell.parent_mem_children hq
      have hreach := reach_part hmem
      have hne : y ≠ x := by
        rintro rfl
        exact hself q hchild hreach
      obtain ⟨-, e, he, -⟩ := (hy.child hc hchild).cell
      have hlow := (hy.child hc hchild).part_rank hrank hd he hmem
      have hfall := hy.parent_rank hrank hc hq he
      refine .mk ((Store.cell?_put_ne t hne _ _).trans hc) hp (fun g hg hstored => ?_)
        (fun q' p' hq' hp' => ?_) fun z p' hz hp' => ?_
      · obtain ⟨v, hv, hholds⟩ := hown g hg hstored
        refine ⟨v, hv, ?_⟩
        rw [lastAssigned_append_ne done fun hboth =>
          hrt.name_ne hr hp (lt_of_le_of_lt hlow hfall) (hf.owner.trans hboth.1)]
        exact hholds
      · obtain rfl := Option.some.inj (hq.symm.trans hq')
        rw [planOf?_put] at hp'
        rw [← List.append_assoc]
        exact ih (hparent q p' hq hp') (hy.child hc hchild) (hun.child hc hchild) hmem
      · -- Messages in fields lead elsewhere than the parent part.
        have hother := (List.pairwise_append.mp hapart).2.2 q (by simp [hq]) z hz x hreach
        rw [planOf?_put] at hp'
        exact (hitems z p' hz hp').sameFrom (sameFrom_put hother _ _)

end Assign

end Constructed

end WireSchema.Message
