import Mathlib
import WireSchema.Proofs.Message.Typing
import WireSchema.Proofs.Wire.Bytes

/-!
# What a message shows on the wire

`Content` is a message without its store, as far as it goes on the wire: one entry for each step of
its plan.  `Shows` relates a message to its content, by the steps that read it.  Encoding and
decoding are both described through it, so they never have to be compared with each other.

A count is shown as the length of its list.  Where the list stays off the wire the count is read in
vain, and nothing ties it to the list afterwards; `strict` says whether such counts are tied too.

## Main results

* `Shows.of_shallow` — content does not depend on the depth it was found at.
* `StepShows.imp` — a step looks only at the messages that a message holds.
-/

namespace WireSchema.Message

open Plan (DecodeStep)

/-- What a message shows on the wire: numbers in groups. -/
inductive Content where
  | number (s : Scalar)
  | group (parts : List Content)

mutual

/-- The bytes of a content. -/
def Content.bytes : Content → List UInt8
  | .number s => Wire.scalarBytes s
  | .group parts => Content.allBytes parts

/-- The bytes of several contents. -/
def Content.allBytes : List Content → List UInt8
  | [] => []
  | c :: rest => c.bytes ++ Content.allBytes rest

end

@[simp] theorem Content.bytes_number (s : Scalar) :
    (Content.number s).bytes = Wire.scalarBytes s := by
  rw [Content.bytes]

@[simp] theorem Content.bytes_group (parts : List Content) :
    (Content.group parts).bytes = Content.allBytes parts := by
  rw [Content.bytes]

@[simp] theorem Content.allBytes_nil : Content.allBytes [] = [] := by
  rw [Content.allBytes]

@[simp] theorem Content.allBytes_cons (c : Content) (rest : List Content) :
    Content.allBytes (c :: rest) = c.bytes ++ Content.allBytes rest := by
  rw [Content.allBytes]

theorem Content.allBytes_append (parts rest : List Content) :
    Content.allBytes (parts ++ rest) = Content.allBytes parts ++ Content.allBytes rest := by
  induction parts with
  | nil => simp
  | cons ct parts ih => simp [ih]

/-! ## Showing a content -/

/-- An item shows a content; messages do as `inner` says. -/
def ItemShows (inner : Id → Content → Prop) : Element → Item → Content → Prop
  | .primitive t, .scalar s, ct => ct = .number s ∧ s.kind = t.kind
  | .message _, .message id, ct => inner id ct
  | _, _, _ => False

/-- What a count shows: the length of a list, which its kind can say. -/
def CountShows (t : Primitive) (length : Nat) (s : Scalar) : Prop :=
  s = .ofWord t.kind (UInt64.ofNat length) ∧ length ≤ t.kind.maxCount

/-- A message shows a content at one step of its plan. -/
def StepShows (strict : Bool) (inner : Id → Content → Prop) (c : Cell) : DecodeStep → Content → Prop
  | .parent _, ct => ∃ q, c.parent? = some q ∧ inner q ct
  | .primitive f t, ct => ∃ v, c.value? f = some (.single v) ∧ ItemShows inner (.primitive t) v ct
  | .count _ list t discard, ct => ∃ s, ct = .number s ∧
      ((strict = true ∨ discard = false) → CountShows t (c.list list).length s)
  | .reference f _, ct => ∃ id, c.value? f = some (.single (.message id)) ∧ inner id ct
  | .fixedList f _ e, ct | .variableList f e _, ct =>
      ∃ parts, ct = .group parts ∧ List.Forall₂ (ItemShows inner e) (c.list f) parts

/-- A message that nests at most `depth` deep shows a content. -/
def Shows (strict : Bool) (rt : Runtime) (st : Store) : (depth : Nat) → Id → Content → Prop
  | 0, _, _ => False
  | depth + 1, x, ct => ∃ p c parts, rt.planOf? st x = some p ∧ st.cell? x = some c ∧
      ct = .group parts ∧
          List.Forall₂ (StepShows strict (Shows strict rt st depth) c) p.decode parts

section Shows

variable {strict : Bool} {rt : Runtime} {st st' : Store}

/-- The contents of a message whose plan is known. -/
theorem Shows.steps {n : Nat} {x : Id} {ct : Content} {c : Cell} {p : Plan}
    (h : Shows strict rt st n x ct) (hc : st.cell? x = some c) (hp : rt.plans[c.plan]? = some p) :
    ∃ k parts, n = k + 1 ∧ ct = .group parts ∧
      List.Forall₂ (StepShows strict (Shows strict rt st k) c) p.decode parts := by
  cases n with
  | zero => exact h.elim
  | succ k =>
      obtain ⟨p', c', parts, hp', hc', hct, hsteps⟩ := h
      obtain rfl := Option.some.inj (hc.symm.trans hc')
      obtain rfl := Option.some.inj ((planOf?_eq.mpr ⟨c, hc, hp⟩).symm.trans hp')
      exact ⟨k, parts, rfl, hct, hsteps⟩

/-- A list that a message has is one of its values. -/
theorem Cell.value?_of_mem_list {c : Cell} {f : String} {i : Item} (h : i ∈ c.list f) :
    ∃ items, c.value? f = some (.list items) ∧ c.list f = items := by
  unfold Cell.list at h ⊢
  cases hv : c.value? f with
  | none =>
      rw [hv] at h
      cases h
  | some v =>
      cases v with
      | single j =>
          rw [hv] at h
          cases h
      | list items => exact ⟨items, rfl, rfl⟩

/-- Messages in a list are held by the message. -/
theorem Cell.mem_children_of_list {c : Cell} {f : String} {id : Id}
    (h : Item.message id ∈ c.list f) : id ∈ c.children := by
  obtain ⟨items, hv, hlist⟩ := Cell.value?_of_mem_list h
  refine Cell.ids_subset_children hv (List.mem_flatMap.mpr ⟨.message id, hlist ▸ h, ?_⟩)
  exact List.mem_singleton_self id

theorem ItemShows.imp {inner inner' : Id → Content → Prop} {e : Element} {i : Item} {ct : Content}
    (himp : ∀ id, i = .message id → inner id ct → inner' id ct) (h : ItemShows inner e i ct) :
    ItemShows inner' e i ct := by
  cases e with
  | primitive t =>
      cases i with
      | scalar s => exact h
      | message id => exact h.elim
  | message type =>
      cases i with
      | scalar s => exact h.elim
      | message id => exact himp id rfl h

theorem forall₂_itemShows_imp {inner inner' : Id → Content → Prop} {e : Element}
    {items : List Item} {parts : List Content}
    (himp : ∀ id ct, Item.message id ∈ items → inner id ct → inner' id ct)
    (h : List.Forall₂ (ItemShows inner e) items parts) :
    List.Forall₂ (ItemShows inner' e) items parts := by
  refine ((List.forall₂_and_left _ _).mpr ⟨fun _ hi => hi, h⟩).imp ?_
  rintro i ct ⟨hi, hshow⟩
  exact hshow.imp fun id heq => himp id ct (heq ▸ hi)

/-- A step only looks at the messages that a message holds. -/
theorem StepShows.imp {inner inner' : Id → Content → Prop} {c : Cell} {step : DecodeStep}
    {ct : Content} (himp : ∀ id ct, id ∈ c.children → inner id ct → inner' id ct)
    (h : StepShows strict inner c step ct) : StepShows strict inner' c step ct := by
  cases step with
  | parent name =>
      obtain ⟨q, hq, hshow⟩ := h
      exact ⟨q, hq, himp q ct (Cell.parent_mem_children hq) hshow⟩
  | primitive f t =>
      obtain ⟨v, hv, hshow⟩ := h
      refine ⟨v, hv, hshow.imp fun id heq => himp id ct ?_⟩
      exact Cell.ids_subset_children hv (by rw [heq]; exact List.mem_singleton_self id)
  | count f list t discard => exact h
  | reference f cls =>
      obtain ⟨id, hv, hshow⟩ := h
      exact ⟨id, hv, himp id ct (Cell.ids_subset_children hv (List.mem_singleton_self id)) hshow⟩
  | fixedList f n e | variableList f e count =>
      obtain ⟨parts, hparts, hshow⟩ := h
      exact ⟨parts, hparts, forall₂_itemShows_imp
        (fun id ct hid => himp id ct (Cell.mem_children_of_list hid)) hshow⟩

/-- **Content does not depend on the depth it was found at.** -/
theorem Shows.of_shallow {n : Nat} :
    ∀ {k : Nat} {x : Id} {ct : Content}, Shows strict rt st n x ct →
    Shallow st k x → Shows strict rt st k x ct := by
  induction n with
  | zero =>
      intro k x ct h
      exact h.elim
  | succ n ih =>
      intro k x ct h hshallow
      obtain ⟨p, c, parts, hp, hc, hct, hsteps⟩ := h
      cases k with
      | zero => exact absurd (hshallow [] x rfl) (Nat.not_lt_zero _)
      | succ k =>
          refine ⟨p, c, parts, hp, hc, hct, hsteps.imp fun step part hstep => ?_⟩
          exact hstep.imp fun id ct hid hshow => ih hshow (hshallow.child hc hid)

theorem Shows.mono {n : Nat} : ∀ {m : Nat} {x : Id} {ct : Content}, n ≤ m →
    Shows strict rt st n x ct → Shows strict rt st m x ct := by
  induction n with
  | zero =>
      intro m x ct _ h
      exact h.elim
  | succ n ih =>
      intro m x ct hle h
      obtain ⟨p, c, parts, hp, hc, hct, hsteps⟩ := h
      obtain ⟨m, rfl⟩ : ∃ k, m = k + 1 := ⟨m - 1, by omega⟩
      refine ⟨p, c, parts, hp, hc, hct, hsteps.imp fun step part hstep => ?_⟩
      exact hstep.imp fun id ct _ hshow => ih (by omega) hshow

end Shows

end WireSchema.Message
