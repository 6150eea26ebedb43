import Mathlib
import WireSchema.Proofs.Codec.Fresh
import WireSchema.Proofs.Plan.Total

/-!
# New messages of accepted types

A new message contains its parent part, its embedded messages and the elements of its fixed lists,
all of them new as well.  Resolution has refused types that contain themselves, so this comes to an
end, and each part is of an accepted type, so it has a plan.  What is left to fail is the machine:
nothing bounds the length of a fixed list in a schema, and the machine may not make a list so long.
A new message of an accepted type is made by every machine that makes the lists it contains.

## Main results

* `newWith_construct` — the depth that bounds the construction does not matter.
* `makeable_iff` — a type can be made if the lists of the types that it contains by value can.
* `new_succeeds_iff` — so is a new message of an accepted type made.
* `new_total` — messages of accepted types are made on every machine that makes their lists, and
  they are trees.
-/

namespace WireSchema

/-- Messages of the type at `i` contain messages of the type at `j` by value. -/
def Model.Contains (m : Model) (i j : Nat) : Prop :=
  ∃ c, m.classes[i]? = some c ∧ j ∈ Resolve.contained c

/-- The machine makes the fixed lists of the type at `i`. -/
def Model.ListsMadeBy (makes : Int → Bool) (m : Model) (i : Nat) : Prop :=
  ∀ c, m.classes[i]? = some c → ∀ a ∈ c.attributes, ∀ n, a.shape = some (.fixedList n) →
    makes n = true

/-- Addresses of 48 bits suffice for the fixed lists of the type at `i`. -/
def Model.ListsMakeable (m : Model) (i : Nat) : Prop := m.ListsMadeBy Message.addressable i

namespace Message

open Plan (Field FieldSpec)
open PlanSet (Member)
open Resolve (Bound)

/-! ## The depth does not matter -/

section Depth

variable {rt : Runtime} {make make' : Nat → Build Id}

theorem foldlM_congr {α β : Type} {f g : β → α → Build β} (xs : List α)
    (h : ∀ x ∈ xs, ∀ b, f b x = g b x) : ∀ b, xs.foldlM f b = xs.foldlM g b := by
  induction xs with
  | nil => exact fun b => rfl
  | cons x xs ih =>
      intro b
      rw [List.foldlM_cons, List.foldlM_cons, h x List.mem_cons_self]
      congr 1
      funext b'
      exact ih (fun y hy => h y (List.mem_cons_of_mem _ hy)) b'

/-- The first item of a type is made by making messages of that type. -/
theorem zeroItem_congr {e : Element}
    (h : ∀ type j, e = .message type → rt.position? type = some j → make j = make' j) :
    zeroItem rt make e = zeroItem rt make' e := by
  cases e with
  | primitive t => rfl
  | message type =>
      have hnew : newWith rt make type = newWith rt make' type := by
        unfold newWith
        cases hpos : rt.position? type with
        | none => rfl
        | some j => exact h type j rfl hpos
      simp only [zeroItem, hnew]

/-- A construction depends only on what is made for the messages that it contains. -/
theorem constructWith_congr (hrt : rt.Sound) {i : Nat} {p : Plan} (hp : rt.plans[i]? = some p)
    (h : ∀ j, rt.Contains p j → make j = make' j) :
    constructWith rt make i = constructWith rt make' i := by
  have hparent : parentPart make p = parentPart make' p := by
    unfold parentPart
    cases hlink : p.parent? with
    | none => rfl
    | some j => simp only [h j (.inl hlink)]
  have hdefault : ∀ d ∈ p.defaults, defaultValue rt make d = defaultValue rt make' d := by
    intro d hd
    obtain ⟨f, hf, rfl⟩ := List.mem_map.mp ((hrt.plan hp).defaults ▸ hd)
    have hmem := (List.mem_filter.mp hf).1
    have hitem : f.shape ≠ .variableList → zeroItem rt make f.elem = zeroItem rt make' f.elem :=
      fun hshape => zeroItem_congr fun type j helem hpos =>
        h j (.inr ⟨f, hmem, hshape, type, helem, hpos⟩)
    unfold defaultValue
    cases hrule : f.rule with
    | value s explicit => rfl
    | emptyList => rfl
    | construct =>
        have hshape : f.shape ≠ .variableList := by
          intro hshape
          rw [Field.rule, hshape] at hrule
          cases hrule
        simp only [hitem hshape]
    | zeroList n =>
        have hshape : f.shape ≠ .variableList := by
          intro hshape
          rw [Field.rule, hshape] at hrule
          cases hrule
        have hitems : ∀ k, (List.replicate k f.elem).mapM (zeroItem rt make) =
            (List.replicate k f.elem).mapM (zeroItem rt make') := by
          intro k
          induction k with
          | zero => rfl
          | succ k ih => rw [List.replicate_succ, List.mapM_cons, List.mapM_cons, hitem hshape, ih]
        simp only [hitems]
  have hfields : p.defaults.foldlM (addDefault rt make p.name) [] =
      p.defaults.foldlM (addDefault rt make' p.name) [] :=
    foldlM_congr _ (fun d hd fields => by rw [addDefault, addDefault, hdefault d hd]) _
  rw [constructWith_eq hp, constructWith_eq hp, makeParts, makeParts, hparent, hfields]

/-- Every depth above the rank of a plan constructs the same messages. -/
theorem construct_congr (hrt : rt.Sound) {rank : Nat → Nat} (hrank : rt.Ranked rank) (n : Nat) :
    ∀ {n' i : Nat} {p : Plan}, rt.plans[i]? = some p → rank i < n → rank i < n' →
      construct rt n i = construct rt n' i := by
  induction n with
  | zero =>
      intro n' i p _ hlt
      omega
  | succ n ih =>
      intro n' i p hp hlt hlt'
      obtain ⟨n', rfl⟩ : ∃ k, n' = k + 1 := ⟨n' - 1, by omega⟩
      rw [construct, construct]
      refine constructWith_congr hrt hp fun j hj => ?_
      have hfall := (hrank i p hp).2 j hj
      obtain ⟨q, hq⟩ := hrt.exists_plan hp hj
      exact ih hq (by omega) (by omega)

/-- **The depth that bounds a construction does not matter.** -/
theorem newWith_construct (hrt : rt.Sound) {depth : Nat} (hdepth : rt.plans.size < depth)
    (type : String) : newWith rt (construct rt depth) type = new rt type := by
  obtain ⟨rank, hrank⟩ := hrt.ranked
  rw [new, newWith, newWith]
  cases hpos : rt.position? type with
  | none => rfl
  | some j =>
      obtain ⟨p, hp, -⟩ := hrt.position hpos
      have hlt := (hrank j p hp).1
      exact construct_congr hrt hrank _ hp (by omega) (by omega)

end Depth

/-! ## Types that can be made -/

/-- Messages of a plan can be made if the messages in them can, and the lists of the plan itself
are made. -/
theorem makeable_succ {rt : Runtime} (hrt : rt.Sound) {n i : Nat} {p : Plan}
    (hp : rt.plans[i]? = some p) : makeable rt (n + 1) i = true ↔
      (∀ j, rt.Contains p j → makeable rt n j = true) ∧
        ∀ f ∈ p.fields, ∀ l, f.shape = .fixedList l → rt.makes l = true := by
  have hunfold : makeable rt (n + 1) i = (p.parent?.all (makeable rt n) &&
      p.fields.all (fieldMakeable rt (makeable rt n))) := by
    simp [makeable, hp]
  have helem : ∀ f ∈ p.fields, elemMakeable rt (makeable rt n) f.elem = true ↔
      ∀ type j, f.elem = .message type → rt.position? type = some j → makeable rt n j = true := by
    intro f hf
    cases hf' : f.elem with
    | primitive t => simp [elemMakeable]
    | message type =>
        obtain ⟨j, hj⟩ := hrt.elem hp hf hf'
        simp only [elemMakeable, hj, Option.any_some, Element.message.injEq]
        constructor
        · rintro hmade _ k rfl hk
          exact Option.some.inj (hj.symm.trans hk) ▸ hmade
        · exact fun hall => hall type j rfl hj
  rw [hunfold, Bool.and_eq_true, List.all_eq_true]
  constructor
  · rintro ⟨hparent, hfields⟩
    refine ⟨fun j hj => ?_, fun f hf l hshape => ?_⟩
    · rcases hj with hlink | ⟨f, hf, hshape, type, hmessage, hpos⟩
      · rw [hlink] at hparent
        exact hparent
      · have hfield := hfields f hf
        have hmade : elemMakeable rt (makeable rt n) f.elem = true := by
          unfold fieldMakeable at hfield
          split at hfield
          · exact absurd ‹_› hshape
          · exact (Bool.and_eq_true_iff.mp hfield).2
          · exact hfield
        exact (helem f hf).mp hmade type j hmessage hpos
    · have hfield := hfields f hf
      simp only [fieldMakeable, hshape, Bool.and_eq_true] at hfield
      exact hfield.1
  · rintro ⟨hcontained, hlists⟩
    refine ⟨?_, fun f hf => ?_⟩
    · cases hlink : p.parent? with
      | none => rfl
      | some j => exact hcontained j (.inl hlink)
    · by_cases hshape : f.shape = .variableList
      · simp only [fieldMakeable, hshape]
      · have hmade : elemMakeable rt (makeable rt n) f.elem = true :=
          (helem f hf).mpr fun type j hmessage hpos =>
            hcontained j (.inr ⟨f, hf, hshape, type, hmessage, hpos⟩)
        unfold fieldMakeable
        split
        · rfl
        · rename_i l hlist
          rw [hmade, Bool.and_true]
          exact hlists f hf l hlist
        · exact hmade

section Makeable

variable {sized : Bool} {m : Model} {S : PlanSet} {makes : Int → Bool}

/-- The lists of a type are those of its plan. -/
theorem listsMadeBy_iff (hm : Bound m) {q i : Nat} {c : Class} {p : Plan}
    (hp : Member sized m S q i c p) : m.ListsMadeBy makes i ↔
      ∀ f ∈ p.fields, ∀ l, f.shape = .fixedList l → makes l = true := by
  have hd := (Runtime.derived_of_member hm hp).1
  constructor
  · intro hlists f hf l hshape
    obtain ⟨x, hx⟩ := List.mem_iff_getElem?.mp hf
    obtain ⟨a, ha, hspec⟩ := hd.exists_attribute hx
    exact hlists c hp.cls a (List.mem_of_getElem? ha) l (by rw [hspec.shape, hshape])
  · intro hfields c' hc' a ha l hshape
    obtain rfl := Option.some.inj (hp.cls.symm.trans hc')
    obtain ⟨x, hx⟩ := List.mem_iff_getElem?.mp ha
    obtain ⟨f, hf, hspec⟩ := hd.exists_field hx
    exact hfields f (List.mem_of_getElem? hf) l (Option.some.inj (hspec.shape.symm.trans hshape))

/-- **A type can be made if the machine makes the lists of the types that it contains by value**,
itself included. -/
theorem makeable_iff (hm : Bound m) (h : PlanSet.derive sized m = .ok S) {rank : Nat → Nat}
    (hrank : (Runtime.ofSet S).Ranked rank) (n : Nat) :
    ∀ {q i : Nat} {c : Class} {p : Plan}, Member sized m S q i c p → rank q < n →
      (makeable ((Runtime.ofSet S).on makes) n q = true ↔
        ∀ j, Relation.ReflTransGen m.Contains i j → m.ListsMadeBy makes j) := by
  induction n with
  | zero =>
      intro q i c p _ hlt
      omega
  | succ n ih =>
      intro q i c p hp hlt
      have hplan := (Runtime.getElem?_plans_ofSet S q).trans hp.plan
      have hfall := (hrank q p hplan).2
      rw [makeable_succ ((Runtime.ofSet_sound hm h).on makes) hplan, Runtime.contains_on,
        Runtime.makes_on, ← listsMadeBy_iff hm hp]
      constructor
      · rintro ⟨hcontained, hlists⟩ j hreach
        rcases hreach.cases_head with rfl | ⟨k, ⟨c', hc', hk⟩, hreach⟩
        · exact hlists
        · obtain rfl := Option.some.inj (hp.cls.symm.trans hc')
          obtain ⟨q', d, p', hp', hholds⟩ := Runtime.contains_of_contained hm h hp hk
          have hlt' := hfall q' hholds
          exact (ih hp' (by omega)).mp (hcontained q' hholds) j hreach
      · intro hall
        refine ⟨fun q' hholds => ?_, hall i .refl⟩
        obtain ⟨k, d, p', hp', hk⟩ := Runtime.contained_of_contains hm h hp hholds
        have hlt' := hfall q' hholds
        exact (ih hp' (by omega)).mpr fun j hreach => hall j (.head ⟨c, hp.cls, hk⟩ hreach)

/-- What comes of a new message of an accepted type: it is made, or the machine refuses a list that
its type contains by value. -/
theorem new_outcome (hm : Bound m) (h : PlanSet.derive sized m = .ok S) {q i : Nat} {c : Class}
    {p : Plan} (hp : Member sized m S q i c p) (makes : Int → Bool) (st : Store) :
    ((∀ j, Relation.ReflTransGen m.Contains i j → m.ListsMadeBy makes j) →
      ∃ y st', new ((Runtime.ofSet S).on makes) p.name st = (.ok y, st')) ∧
    (¬ (∀ j, Relation.ReflTransGen m.Contains i j → m.ListsMadeBy makes j) →
      ∃ st', new ((Runtime.ofSet S).on makes) p.name st = (.error (.of tooLong), st')) := by
  have hrt := (Runtime.ofSet_sound hm h).on makes
  obtain ⟨rank, hrank⟩ := (Runtime.ofSet_sound hm h).ranked
  have hplan := (Runtime.getElem?_plans_ofSet S q).trans hp.plan
  have hsmall := (hrank q p hplan).1
  have hmakes := new_makes hrt (hrt.named hplan) st
  have hiff : makeable ((Runtime.ofSet S).on makes) ((Runtime.ofSet S).plans.size + 1) q = true ↔
      _ := makeable_iff hm h hrank _ hp (by omega)
  refine ⟨fun hlists => ?_, fun hlists => ?_⟩
  · obtain ⟨y, hy, -⟩ := hmakes.done (hiff.mpr hlists)
    exact ⟨y, _, Prod.ext hy rfl⟩
  · exact ⟨_, Prod.ext (hmakes.refused (by simpa using mt hiff.mp hlists)) rfl⟩

/-- A new message of an accepted type is made exactly if no list that its type contains by value is
too long. -/
theorem new_succeeds_iff (hm : Bound m) (h : PlanSet.derive sized m = .ok S) {q i : Nat} {c : Class}
    {p : Plan} (hp : Member sized m S q i c p) (st : Store) :
    (∃ y st', new (.ofSet S) p.name st = (.ok y, st')) ↔
      ∀ j, Relation.ReflTransGen m.Contains i j → m.ListsMakeable j := by
  obtain ⟨hmade, hrefused⟩ := new_outcome hm h hp addressable st
  refine ⟨fun ⟨y, st', hnew⟩ => ?_, hmade⟩
  by_contra hno
  obtain ⟨st'', hfailed⟩ := hrefused hno
  cases hnew.symm.trans hfailed

/-- **New messages of accepted types.**  Construction comes to an end by itself, on every machine.
It succeeds if the machine makes the lists that the type contains by value, and else it stops at a
list that the machine refuses, which is its only failure.  What it makes is a tree of new
messages. -/
theorem new_total {catalog : Catalog} {limit : Int} {raw : Model} (sized : Bool)
    (hresolve : (Resolve.run catalog limit raw).succeeded = true) :
    ∃ S, PlanSet.derive sized (Resolve.run catalog limit raw).model = .ok S ∧
      ∀ p ∈ S.accepted, ∃ i c,
        (Resolve.run catalog limit raw).model.classes[i]? = some c ∧ c.name = p.name ∧
        ∀ makes : Int → Bool,
          (∀ depth, S.accepted.length < depth →
            newWith ((Runtime.ofSet S).on makes) (construct ((Runtime.ofSet S).on makes) depth)
              p.name = new ((Runtime.ofSet S).on makes) p.name) ∧
          ∀ st : Store,
            ((∀ j, Relation.ReflTransGen (Resolve.run catalog limit raw).model.Contains i j →
                (Resolve.run catalog limit raw).model.ListsMadeBy makes j) →
              ∃ y st', new ((Runtime.ofSet S).on makes) p.name st = (.ok y, st')) ∧
            (∀ e st', new ((Runtime.ofSet S).on makes) p.name st = (.error e, st') →
              e = .of tooLong ∧
              ∃ j, Relation.ReflTransGen (Resolve.run catalog limit raw).model.Contains i j ∧
                ¬ (Resolve.run catalog limit raw).model.ListsMadeBy makes j) ∧
            ∀ y st', new ((Runtime.ofSet S).on makes) p.name st = (.ok y, st') →
              WellTyped ((Runtime.ofSet S).on makes) st' y ∧
              OfType ((Runtime.ofSet S).on makes) st' y p.name ∧ Unshared st' y ∧
                ∀ z, Reach st' y z → st.size ≤ z := by
  have hm := Resolve.run_bound hresolve
  obtain ⟨S, hderive⟩ := PlanSet.derive_total hm (Resolve.run_defaults hresolve) sized
  refine ⟨S, hderive, fun p hp => ?_⟩
  obtain ⟨q, hq⟩ := List.mem_iff_getElem?.mp hp
  obtain ⟨i, c, hmember⟩ := PlanSet.exists_member hderive hq
  refine ⟨i, c, hmember.cls, (Runtime.derived_of_member hm hmember).1.name.symm, fun makes => ?_⟩
  have hrt := (Runtime.ofSet_sound hm hderive).on makes
  have hsize : ((Runtime.ofSet S).on makes).plans.size = S.accepted.length := by
    simp [Runtime.ofSet]
  refine ⟨fun depth hdepth => newWith_construct hrt (hsize ▸ hdepth) p.name, fun st => ?_⟩
  obtain ⟨hmade, hrefused⟩ := new_outcome hm hderive hmember makes st
  refine ⟨hmade, fun e st' hnew => ?_, fun y st' hnew => ?_⟩
  · by_cases hlists : ∀ j,
        Relation.ReflTransGen (Resolve.run catalog limit raw).model.Contains i j →
          (Resolve.run catalog limit raw).model.ListsMadeBy makes j
    · obtain ⟨y, st'', hdone⟩ := hmade hlists
      cases hnew.symm.trans hdone
    · obtain ⟨st'', hfailed⟩ := hrefused hlists
      obtain rfl := Except.error.inj (Prod.mk.inj (hnew.symm.trans hfailed)).1
      exact ⟨rfl, by simpa only [not_forall, exists_prop] using hlists⟩
  · have hfresh := new_fresh hrt hnew
    obtain ⟨-, -, -, htree, -⟩ := new_region hrt hnew
    exact ⟨hfresh.typed, hfresh.ofType, hfresh.unshared,
      fun z hz => (htree.below y (List.mem_singleton_self y) z hz).1⟩

end Makeable

/-- A node contains its parent part only, so even a machine that makes no lists makes it. -/
theorem new_total_node : ∃ y st',
    new (Sample.runtime.on fun _ => false) "Node" .empty = (.ok y, st') ∧ Unshared st' y := by
  obtain ⟨S, hderive, hnew⟩ := new_total true Sample.resolves
  obtain rfl : S = Sample.plans := Except.ok.inj (hderive.symm.trans Sample.derives)
  have hnames : Sample.plans.accepted.map (·.name) = ["Base", "Node"] ∧
      ∀ c ∈ Sample.model.classes, ∀ a ∈ c.attributes, a.fixedLength? = none := by
    decide +kernel
  obtain ⟨p, hp, hname⟩ : ∃ p ∈ Sample.plans.accepted, p.name = "Node" :=
    List.mem_map.mp (hnames.1 ▸ by simp)
  have hlists : ∀ j, Sample.model.ListsMadeBy (fun _ => false) j := by
    intro j c hc a ha n hshape
    have hnone := hnames.2 c (List.mem_of_getElem? hc) a ha
    rw [Attribute.fixedLength?, hshape] at hnone
    cases hnone
  obtain ⟨i, c, -, -, hall⟩ := hnew p hp
  obtain ⟨hmade, -, htree⟩ := (hall fun _ => false).2 .empty
  rw [hname] at hmade htree
  obtain ⟨y, st', hy⟩ := hmade fun j _ => hlists j
  exact ⟨y, st', hy, (htree y st' hy).2.2.1⟩

/-- A type whose messages hold a list longer than lists can be. -/
def vast : Model where
  classes := [
    { name := "Vast"
      attributes := [
        { name := "all", shape := some (.fixedList 1000000000000000000), type := "byte" }] }]

/-- A list that no addresses of 48 bits suffice for is accepted, and cannot be made with them. -/
theorem new_refuses_vast : (Resolve.run .standard 3 vast).succeeded = true ∧
    ∃ S, PlanSet.derive false (Resolve.run .standard 3 vast).model = .ok S ∧
      S.accepted.map (·.name) = ["Vast"] ∧
      (new (.ofSet S) "Vast" .empty).1 =
        .error (.of (.fault "runtime error: makeslice: len out of range")) := by
  obtain ⟨hresolve, hcomputed⟩ : (Resolve.run .standard 3 vast).succeeded = true ∧
      (PlanSet.derive false (Resolve.run .standard 3 vast).model).toOption.map
        (fun S => (S.accepted.map (·.name), (new (.ofSet S) "Vast" .empty).1)) =
          some (["Vast"], .error (.of (.fault "runtime error: makeslice: len out of range"))) := by
    decide +kernel
  obtain ⟨S, h⟩ := PlanSet.derive_total (Resolve.run_bound hresolve)
    (Resolve.run_defaults hresolve) false
  rw [h] at hcomputed
  obtain ⟨haccepted, hnew⟩ := Prod.mk.inj (Option.some.inj hcomputed)
  exact ⟨hresolve, S, h, haccepted, hnew⟩

end Message

end WireSchema
