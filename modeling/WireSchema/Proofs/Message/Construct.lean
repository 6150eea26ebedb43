import Mathlib
import WireSchema.Message.Construct
import WireSchema.Proofs.Message.Action
import WireSchema.Proofs.Message.Initial

/-!
# Constructed messages

A new message is well-typed, shares nothing, everything in it is new, and it holds its first values
and what its type assigns.  The only thing that can stop a construction is a fixed list that the
machine does not make; whether that happens depends on the type and the machine, not on the store,
and `makeable` says it.

## Main results

* `construct_builds` — what a construction does to a store, and when it succeeds.
* `new_constructs` — what a new message is.
* `WellTyped.makeable` — a type that has a well-typed message can be made.
-/

namespace WireSchema.Message

open Plan (Field)

/-! ## Types that can be made -/

/-- The elements of a field can be made, if messages of a plan can exactly when `ok` says so. -/
def elemMakeable (rt : Runtime) (ok : Nat → Bool) : Element → Bool
  | .primitive _ => true
  | .message type => (rt.position? type).any ok

/-- The first value of a field can be made. -/
def fieldMakeable (rt : Runtime) (ok : Nat → Bool) (f : Field) : Bool :=
  match f.shape with
  | .variableList => true
  | .fixedList n => rt.makes n && elemMakeable rt ok f.elem
  | _ => elemMakeable rt ok f.elem

/-- A message of the plan at a position can be made: the machine makes the fixed lists in it. -/
def makeable (rt : Runtime) : (depth : Nat) → Nat → Bool
  | 0, _ => false
  | depth + 1, i =>
      (rt.plans[i]?).any fun p =>
        p.parent?.all (makeable rt depth) && p.fields.all (fieldMakeable rt (makeable rt depth))

/-! ## What building does -/

/-- What an action did to the store `s` that it was run on: it only added messages, all of their
form; it succeeded if `b` says so, and then `Q` holds. -/
structure Builds {α : Type} (rt : Runtime) (s : Store) (b : Bool)
    (res : Except Failure α × Store) (Q : α → Store → Prop) : Prop where
  extends_ : Extends s res.2
  typed : TypedOn rt res.2 fun w => s.size ≤ w
  done : b = true → ∃ a, res.1 = .ok a ∧ Q a res.2
  refused : b = false → res.1 = .error (.of tooLong)

section Builds

variable {α β : Type} {rt : Runtime} {s : Store} {b b' : Bool}

/-- What fails is a list that is not made. -/
theorem Builds.failed {res : Except Failure α × Store} {Q : α → Store → Prop}
    (h : Builds rt s b res Q) (hb : b = false) : ∃ e, res.1 = .error e ∧ e.cause = tooLong :=
  ⟨_, h.refused hb, rfl⟩

theorem Builds.pure {a : α} {Q : α → Store → Prop} (h : Q a s) :
    Builds rt s true (.ok a, s) Q :=
  ⟨.refl s, typedOn_free rt s, fun _ => ⟨a, rfl, h⟩, fun hb => by cases hb⟩

theorem Builds.imp {res : Except Failure α × Store} {Q Q' : α → Store → Prop}
    (h : Builds rt s b res Q) (himp : ∀ a s', Q a s' → Q' a s') : Builds rt s b res Q' :=
  ⟨h.extends_, h.typed, fun hb => (h.done hb).imp fun a ha => ⟨ha.1, himp a _ ha.2⟩, h.refused⟩

theorem Builds.within {act : Build α} {Q : α → Store → Prop} (place : String)
    (h : Builds rt s b (act s) Q) : Builds rt s b (within place act s) Q := by
  rcases hact : act s with ⟨e | a, t⟩
  · rw [hact] at h
    rw [Action.within_eq_error hact]
    refine ⟨h.extends_, h.typed, fun hb => ?_, fun hb => ?_⟩
    · obtain ⟨a, ha, -⟩ := h.done hb
      cases ha
    · -- It is a fault, which stays as it is.
      cases h.refused hb
      rfl
  · rw [hact] at h
    rw [Action.within_eq_ok.mpr hact]
    exact h

/-- One action after another. -/
theorem Builds.bind {act : Build α} {next : α → Build β} {Q : α → Store → Prop}
    {Q' : β → Store → Prop} (h : Builds rt s b (act s) Q)
    (hnext : ∀ a s', act s = (.ok a, s') → Extends s s' → Q a s' →
      Builds rt s' b' (next a s') Q') :
    Builds rt s (b && b') ((act >>= next) s) Q' := by
  rcases hact : act s with ⟨e | a, s'⟩
  · rw [hact] at h
    rw [Action.run_bind_error hact]
    have hb : b = false := by
      by_contra hb
      obtain ⟨a, ha, -⟩ := h.done (by simpa using hb)
      cases ha
    cases h.refused hb
    exact ⟨h.extends_, h.typed, fun hboth => by simp [hb] at hboth, fun _ => rfl⟩
  · rw [hact] at h
    rw [Action.run_bind_ok hact]
    have hb : b = true := by
      by_contra hb
      obtain ⟨e, he, -⟩ := h.failed (by simpa using hb)
      cases he
    obtain ⟨a', ha', hQ⟩ := h.done hb
    obtain rfl := Except.ok.inj ha'
    have hrest := hnext a s' hact h.extends_ hQ
    refine ⟨h.extends_.trans hrest.extends_, ?_, ?_, ?_⟩
    · exact hrest.extends_.typedOn h.typed hrest.typed fun w hw => h.extends_.size_le.trans hw
    · intro hboth
      exact hrest.done (by simpa [hb] using hboth)
    · intro hboth
      exact hrest.refused (by simpa [hb] using hboth)

end Builds

/-! ## First values -/

section Values

variable {rt : Runtime} {make : Nat → Build Id} {ok : Nat → Bool}

/-- What `make` does for the plan at `j`. -/
def Makes (rt : Runtime) (make : Nat → Build Id) (ok : Nat → Bool) (j : Nat) : Prop :=
  ∀ s, Builds rt s (ok j) (make j s) fun y s' =>
    Made s s' [y] ∧ IsNew rt s' y ∧ ∃ c, s'.cell? y = some c ∧ c.plan = j

theorem zeroItem_builds (hrt : rt.Sound) {e : Element}
    (hmake : ∀ type, e = .message type → ∃ j, rt.position? type = some j ∧ Makes rt make ok j)
    (s : Store) :
    Builds rt s (elemMakeable rt ok e) (zeroItem rt make e s) fun i s' =>
      ItemNew rt s' e i ∧ Made s s' i.ids := by
  cases e with
  | primitive t =>
      refine .pure ⟨⟨rfl, fun t' ht => ?_, fun z hz => absurd hz List.not_mem_nil⟩, .nil s s⟩
      rw [Element.primitive.inj ht]
  | message type =>
      obtain ⟨j, hj, hmakes⟩ := hmake type rfl
      have hrun : zeroItem rt make (.message type) = make j >>= fun y => pure (.message y) := by
        simp only [zeroItem, newWith, hj]
      have hok : elemMakeable rt ok (.message type) = (ok j && true) := by
        simp [elemMakeable, hj]
      rw [hrun, hok]
      refine (hmakes s).bind fun y s' _ _ hy => .pure ?_
      obtain ⟨hmade, hnew, c, hc, hplan⟩ := hy
      obtain ⟨p, hp, hname⟩ := hrt.position hj
      refine ⟨⟨⟨p, planOf?_eq.mpr ⟨c, hc, hplan ▸ hp⟩, hname⟩, ?_, fun z hz => ?_⟩, hmade⟩
      · intro t ht
        cases ht
      · rwa [List.mem_singleton.mp hz]

/-- The items of a list are made one after another. -/
theorem zeroItems_builds (hrt : rt.Sound) {e : Element}
    (hmake : ∀ type, e = .message type → ∃ j, rt.position? type = some j ∧ Makes rt make ok j)
    (n : Nat) : ∀ s : Store,
    Builds rt s (decide (n = 0) || elemMakeable rt ok e)
      ((List.replicate n e).mapM (zeroItem rt make) s) fun items s' =>
        items.length = n ∧ (∀ i ∈ items, ItemNew rt s' e i) ∧
          Made s s' (items.flatMap Item.ids) := by
  induction n with
  | zero =>
      intro s
      rw [List.replicate_zero, List.mapM_nil]
      exact .pure ⟨rfl, fun i hi => absurd hi List.not_mem_nil, .nil s s⟩
  | succ n ih =>
      intro s
      have hok : (decide (n + 1 = 0) || elemMakeable rt ok e) =
          (elemMakeable rt ok e && ((decide (n = 0) || elemMakeable rt ok e) && true)) := by
        cases elemMakeable rt ok e <;> simp
      rw [List.replicate_succ, List.mapM_cons, hok]
      refine (zeroItem_builds hrt hmake s).bind fun i s' _ hext hi => ?_
      refine (ih s').bind fun items s'' _ hext' hitems => .pure ?_
      obtain ⟨hinew, himade⟩ := hi
      obtain ⟨hlen, hnew, hmade⟩ := hitems
      refine ⟨by rw [List.length_cons, hlen], ?_, himade.append hmade hext hext'⟩
      intro j hj
      rcases List.mem_cons.mp hj with rfl | hj
      · exact hinew.later himade hext'
      · exact hnew j hj

/-- What is known of the fields of a plan when its messages are made. -/
def FieldMakes (rt : Runtime) (make : Nat → Build Id) (ok : Nat → Bool) (f : Field) : Prop :=
  f.shape ≠ .variableList →
    ∀ type, f.elem = .message type → ∃ j, rt.position? type = some j ∧ Makes rt make ok j

/-- The first value of a number is its default, or zero. -/
theorem numberDefault_builds {f : Field} {t : Primitive} (hshape : f.shape = .primitive)
    (helem : f.elem = .primitive t) (hdefault : ∀ n, f.default? = some n → n.kind = t.kind)
    (s : Store) :
    Builds rt s (fieldMakeable rt ok f) (defaultValue rt make ⟨f.name, f.elem, f.rule⟩ s)
      fun v s' => ValueNew rt s' f v ∧ Made s s' v.ids := by
  have hok : fieldMakeable rt ok f = true := by
    simp [fieldMakeable, hshape, helem, elemMakeable]
  have hrun : defaultValue rt make ⟨f.name, f.elem, f.rule⟩ s =
      (.ok (.single (.scalar (f.default?.getD t.zero))), s) := by
    cases hdef : f.default? <;> simp [defaultValue, Field.rule, hshape, hdef, helem]
  rw [hok, hrun]
  refine .pure ⟨⟨?_, ?_, fun z hz => absurd hz List.not_mem_nil⟩, .nil s s⟩
  · simp only [ValueTyped, hshape, helem]
    cases hdef : f.default? with
    | none => rfl
    | some n => exact hdefault n hdef
  · simp [Field.Holds, hshape, helem]

/-- The first value of a fixed list is a list of first items, if the machine makes it. -/
theorem fixedDefault_builds (hrt : rt.Sound) {f : Field} {n : Int}
    (hshape : f.shape = .fixedList n) (hpos : 0 < n) (hmake : FieldMakes rt make ok f) (s : Store) :
    Builds rt s (fieldMakeable rt ok f) (defaultValue rt make ⟨f.name, f.elem, f.rule⟩ s)
      fun v s' => ValueNew rt s' f v ∧ Made s s' v.ids := by
  have hrun : defaultValue rt make ⟨f.name, f.elem, f.rule⟩ =
      liftM (listLength rt n) >>= fun n => (List.replicate n f.elem).mapM (zeroItem rt make) >>=
        fun items => pure (.list items) := by
    simp only [defaultValue, Field.rule, hshape]
  rw [hrun, listLength]
  by_cases hmakes : rt.makes n = true
  · have hok : fieldMakeable rt ok f =
        ((decide (n.toNat = 0) || elemMakeable rt ok f.elem) && true) := by
      have hne : n.toNat ≠ 0 := by omega
      simp [fieldMakeable, hshape, hmakes, hne]
    rw [if_pos ⟨hpos.le, hmakes⟩, hok]
    refine (zeroItems_builds hrt (hmake (by simp [hshape])) n.toNat s).bind
      fun items s' _ _ hitems => .pure ?_
    obtain ⟨hlen, hnew, hmade⟩ := hitems
    refine ⟨⟨?_, ?_, ?_⟩, hmade⟩
    · simp only [ValueTyped, hshape]
      exact ⟨by omega, hmakes, fun i hi => (hnew i hi).typed⟩
    · cases helem : f.elem with
      | primitive t =>
          simp only [Field.Holds, hshape, helem]
          exact ⟨items, rfl, fun i hi => (hnew i hi).zero t helem⟩
      | message type => simp only [Field.Holds, hshape, helem]
    · intro z hz
      obtain ⟨i, hi, hzi⟩ := List.mem_flatMap.mp hz
      exact (hnew i hi).held z hzi
  · have hok : fieldMakeable rt ok f = false := by
      simp [fieldMakeable, hshape, hmakes]
    rw [if_neg (mt And.right hmakes), hok]
    exact ⟨.refl s, typedOn_free rt s, fun hb => (by cases hb), fun _ => rfl⟩

theorem defaultValue_builds (hrt : rt.Sound) {p : Plan} {f : Field} (hf : f.Sound p)
    (hstored : f.stored = true) (hmake : FieldMakes rt make ok f) (s : Store) :
    Builds rt s (fieldMakeable rt ok f) (defaultValue rt make ⟨f.name, f.elem, f.rule⟩ s)
      fun v s' => ValueNew rt s' f v ∧ Made s s' v.ids := by
  cases hf with
  | number t hshape helem _ _ hdefault => exact numberDefault_builds hshape helem hdefault s
  | count t l _ _ hunstored => simp [hunstored] at hstored
  | reference type hshape helem =>
      have hok : fieldMakeable rt ok f = (elemMakeable rt ok f.elem && true) := by
        simp [fieldMakeable, hshape]
      have hrun : defaultValue rt make ⟨f.name, f.elem, f.rule⟩ =
          zeroItem rt make f.elem >>= fun i => pure (.single i) := by
        simp [defaultValue, Field.rule, hshape]
      rw [hok, hrun]
      refine (zeroItem_builds hrt (hmake (by simp [hshape])) s).bind
        fun i s' _ _ hi => .pure ⟨⟨?_, ?_, hi.1.held⟩, hi.2⟩
      · simpa only [ValueTyped, hshape] using hi.1.typed
      · simp [Field.Holds, hshape, helem]
  | fixedList n hshape hlength hpos => exact fixedDefault_builds hrt hshape hpos hmake s
  | variableList k hshape =>
      have hok : fieldMakeable rt ok f = true := by simp [fieldMakeable, hshape]
      have hrun : defaultValue rt make ⟨f.name, f.elem, f.rule⟩ s = (.ok (.list []), s) := by
        simp [defaultValue, Field.rule, hshape]
      rw [hok, hrun]
      refine .pure ⟨⟨?_, ?_, fun z hz => absurd hz List.not_mem_nil⟩, .nil s s⟩
      · simp only [ValueTyped, hshape]
        exact fun i hi => absurd hi List.not_mem_nil
      · simp only [Field.Holds, hshape]

/-- A name that is not taken goes to the end. -/
theorem putField_new {name : String} {v : Value} {fields : List (String × Value)}
    (h : name ∉ fields.map (·.1)) : putField name v fields = fields ++ [(name, v)] := by
  induction fields with
  | nil => rfl
  | cons e rest ih =>
      obtain ⟨n, w⟩ := e
      rw [List.map_cons, List.mem_cons, not_or] at h
      rw [putField, if_neg (Ne.symm h.1), ih h.2]
      rfl

/-- The entries of some fields, in order. -/
def Entries (rt : Runtime) (s : Store) (fs : List Field) (entries : List (String × Value)) : Prop :=
  List.Forall₂ (fun f e => e.1 = f.name ∧ ValueNew rt s f e.2) fs entries

section Entries

variable {s : Store} {fs : List Field} {entries : List (String × Value)}

/-- The value that a field has among some entries. -/
theorem Entries.lookup (h : Entries rt s fs entries) (hnodup : (fs.map (·.name)).Nodup) {f : Field}
    (hf : f ∈ fs) : ∃ v, entries.lookup f.name = some v ∧ ValueNew rt s f v := by
  obtain ⟨k, hk⟩ := List.mem_iff_getElem?.mp hf
  obtain ⟨⟨n, v⟩, he, hname, hnew⟩ := Plan.forall₂_getElem? h hk
  have hkeys : entries.map (·.1) = fs.map (·.name) := by
    have heq := List.forall₂_map_left_iff.mpr (List.forall₂_map_right_iff.mpr
      (h.imp fun f e he => he.1.symm))
    exact (List.forall₂_eq_eq_eq ▸ heq : fs.map (·.name) = _).symm
  refine ⟨v, lookup_of_nodup (hkeys ▸ hnodup) ?_, hnew⟩
  rw [← hname]
  exact List.mem_of_getElem? he

/-- The field that an entry is for. -/
theorem Entries.exists_field (h : Entries rt s fs entries) {n : String} {v : Value}
    (hmem : (n, v) ∈ entries) : ∃ f ∈ fs, f.name = n ∧ ValueNew rt s f v := by
  obtain ⟨k, hk⟩ := List.mem_iff_getElem?.mp hmem
  obtain ⟨f, hf, hname, hnew⟩ :=
    Plan.forall₂_getElem? (R := fun e f => e.1 = f.name ∧ ValueNew rt s f e.2) h.flip hk
  exact ⟨f, List.mem_of_getElem? hf, hname.symm, hnew⟩

/-- A message with the first values of all its stored fields. -/
theorem Entries.cellNew {p : Plan} {i : Nat} {q? : Option Id}
    (h : Entries rt s (p.fields.filter (·.stored)) entries) (hp : rt.plans[i]? = some p)
    (hnodup : ((p.fields.filter (·.stored)).map (·.name)).Nodup) (hq : ParentTyped s p q?)
    (hqnew : ∀ q ∈ q?.toList, IsNew rt s q) : CellNew rt s p ⟨i, q?, entries⟩ := by
  refine ⟨⟨hp, hq, ?_, ?_⟩, ?_, fun z hz => ?_⟩
  · intro f hf hstored
    obtain ⟨v, hv, hnew⟩ := h.lookup hnodup (List.mem_filter.mpr ⟨hf, hstored⟩)
    exact ⟨v, hv, hnew.typed⟩
  · intro n v hmem
    obtain ⟨f, hf, hname, hnew⟩ := h.exists_field hmem
    exact ⟨f, (List.mem_filter.mp hf).1, hname, hnew.typed⟩
  · intro f hf hstored
    obtain ⟨v, hv, hnew⟩ := h.lookup hnodup (List.mem_filter.mpr ⟨hf, hstored⟩)
    exact ⟨v, hv, hnew.holds⟩
  · rcases List.mem_append.mp hz with hz | hz
    · exact hqnew z hz
    · obtain ⟨⟨n, v⟩, hmem, hid⟩ := List.mem_flatMap.mp hz
      obtain ⟨f, -, -, hnew⟩ := h.exists_field hmem
      exact hnew.held z hid

end Entries

/-- One step of filling in first values. -/
def addDefault (rt : Runtime) (make : Nat → Build Id) (type : String)
    (fields : List (String × Value)) (d : Plan.FieldDefault) : Build (List (String × Value)) := do
  let v ← within (type ++ "." ++ d.field) (defaultValue rt make d)
  return putField d.field v fields

theorem addDefaults_builds (hrt : rt.Sound) {p : Plan} (type : String) (fs : List Field)
    (hsound : ∀ f ∈ fs, f.Sound p ∧ f.stored = true ∧ FieldMakes rt make ok f)
    (hnodup : (fs.map (·.name)).Nodup) :
    ∀ (acc : List (String × Value)) (s : Store), (∀ f ∈ fs, f.name ∉ acc.map (·.1)) →
      Builds rt s (fs.all (fieldMakeable rt ok))
        ((fs.map fun f => ⟨f.name, f.elem, f.rule⟩).foldlM (addDefault rt make type) acc s)
        fun fields s' => ∃ new, fields = acc ++ new ∧ Entries rt s' fs new ∧
          Made s s' (new.flatMap (·.2.ids)) := by
  induction fs with
  | nil =>
      intro acc s _
      exact .pure ⟨[], by simp, .nil, .nil s s⟩
  | cons f fs ih =>
      intro acc s hfresh
      obtain ⟨hf, hstored, hmakes⟩ := hsound f List.mem_cons_self
      obtain ⟨hname, hrest⟩ := List.nodup_cons.mp hnodup
      have hok : (f :: fs).all (fieldMakeable rt ok) =
          ((fieldMakeable rt ok f && true) && fs.all (fieldMakeable rt ok)) := by simp
      rw [List.map_cons, List.foldlM_cons, hok]
      have hfirst : Builds rt s (fieldMakeable rt ok f && true)
          (addDefault rt make type acc ⟨f.name, f.elem, f.rule⟩ s) fun fields s' =>
            ∃ v, fields = acc ++ [(f.name, v)] ∧ ValueNew rt s' f v ∧ Made s s' v.ids := by
        refine ((defaultValue_builds hrt hf hstored hmakes s).within _).bind
          fun v s' _ _ hv => .pure ⟨v, ?_, hv⟩
        exact putField_new (hfresh f List.mem_cons_self)
      refine hfirst.bind fun fields s' _ hext hv => ?_
      obtain ⟨v, rfl, hvnew, hmade⟩ := hv
      have hfresh' : ∀ g ∈ fs, g.name ∉ (acc ++ [(f.name, v)]).map (·.1) := by
        intro g hg hmem
        rw [List.map_append, List.mem_append] at hmem
        rcases hmem with hmem | hmem
        · exact hfresh g (List.mem_cons_of_mem _ hg) hmem
        · exact hname (List.mem_map.mpr ⟨g, hg, List.mem_singleton.mp hmem⟩)
      have hih := ih (fun g hg => hsound g (List.mem_cons_of_mem _ hg)) hrest
        (acc ++ [(f.name, v)]) s' hfresh'
      refine ⟨hih.extends_, hih.typed, fun hb => ?_, hih.refused⟩
      obtain ⟨fields, hfields, new, hnew, hentries, hnewmade⟩ := hih.done hb
      refine ⟨fields, hfields, (f.name, v) :: new, by rw [hnew]; simp, ?_, ?_⟩
      · exact .cons ⟨rfl, hvnew.later hmade hih.extends_⟩ hentries
      · exact hmade.append hnewmade hext hih.extends_

theorem parentPart_builds {p : Plan}
    (hparent : p.hasParent = true → ∃ j, p.parent? = some j ∧ Makes rt make ok j)
    (horphan : p.hasParent = false → p.parent? = none) (s : Store) :
    Builds rt s (p.parent?.all ok) (parentPart make p s) fun q? s' =>
      ParentTyped s' p q? ∧ (∀ q ∈ q?.toList, IsNew rt s' q) ∧ Made s s' q?.toList := by
  cases hhas : p.hasParent with
  | false =>
      have hnone := horphan hhas
      have hrun : parentPart make p s = (.ok none, s) := by simp [parentPart, hhas]
      rw [hnone, hrun]
      exact .pure ⟨hnone, fun q hq => absurd hq List.not_mem_nil, .nil s s⟩
  | true =>
      obtain ⟨j, hj, hmakes⟩ := hparent hhas
      have hrun : parentPart make p = make j >>= fun q => pure (some q) := by
        simp [parentPart, hhas, hj]
      have hok : p.parent?.all ok = (ok j && true) := by simp [hj]
      rw [hok, hrun]
      refine (hmakes s).bind fun q s' _ _ hq => .pure ?_
      obtain ⟨hmade, hnew, c, hc, hplan⟩ := hq
      refine ⟨?_, ?_, hmade⟩
      · exact ⟨c, hc, hplan ▸ hj⟩
      · intro z hz
        rwa [List.mem_singleton.mp hz]

end Values

/-! ## Initial values -/

section Assignments

variable {rt : Runtime}

/-- A part of a message belongs to its region. -/
theorem parts_region {t : Store} {U : Id → Prop} (htyped : TypedOn rt t U) (fuel : Nat) :
    ∀ {y part : Id}, U y → part ∈ t.partsFrom fuel y → U part := by
  induction fuel with
  | zero =>
      intro y part _ hmem
      cases hmem
  | succ fuel ih =>
      intro y part hy hmem
      rcases Store.mem_partsFrom hmem with rfl | ⟨k, c, q, hk, hc, hparent, hmem⟩
      · exact hy
      · obtain rfl : fuel = k := Nat.succ_injective hk
        exact ih ((htyped y c hy hc).2 q (Cell.parent_mem_children hparent)) hmem

/-- The ancestors of a plan have their parts in a message. -/
theorem exists_part {t : Store} {U : Id → Prop} (htyped : TypedOn rt t U) {i j : Nat}
    (h : rt.Ancestor i j) : ∀ {n : Nat} {y : Id} {c : Cell}, U y → t.cell? y = some c →
      c.plan = i → Shallow t n y → ∃ part d, part ∈ t.partsFrom n y ∧ t.cell? part = some d ∧
        d.plan = j := by
  induction h with
  | self i =>
      intro n y c _ hc hplan hshallow
      obtain ⟨n, rfl⟩ : ∃ k, n = k + 1 :=
        ⟨n - 1, by have := hshallow [] y rfl; simp only [List.length_nil] at this; omega⟩
      exact ⟨y, c, List.mem_cons_self, hc, hplan⟩
  | up hp hparent _ ih =>
      intro n y c hy hc hplan hshallow
      obtain ⟨n, rfl⟩ : ∃ k, n = k + 1 :=
        ⟨n - 1, by have := hshallow [] y rfl; simp only [List.length_nil] at this; omega⟩
      obtain ⟨⟨q, hq⟩, hchildren⟩ := htyped y c hy hc
      have hsame := hq.plan
      rw [hplan, hp] at hsame
      obtain rfl := Option.some.inj hsame
      have hpart := hq.parent
      cases hlink : c.parent? with
      | none =>
          rw [hlink] at hpart
          rw [show _ = none from hpart] at hparent
          cases hparent
      | some z =>
          rw [hlink] at hpart
          obtain ⟨d, hd, hplan'⟩ := hpart
          rw [hparent] at hplan'
          have hz := Cell.parent_mem_children hlink
          obtain ⟨part, e, hmem, he, hj⟩ :=
            ih (hchildren z hz) hd (Option.some.inj hplan').symm (hshallow.child hc hz)
          refine ⟨part, e, List.mem_cons_of_mem _ ?_, he, hj⟩
          rw [Store.parent?, hc, Option.bind_some, hlink]
          exact hmem

/-- A field is found under its name. -/
theorem field?_eq_some {p : Plan} (hnodup : (p.fields.map (·.name)).Nodup) {f : Field}
    (hf : f ∈ p.fields) : p.field? f.name = some f := by
  unfold Plan.field?
  cases hfind : p.fields.find? (·.name == f.name) with
  | none =>
      have hnone := List.find?_eq_none.mp hfind f hf
      simp at hnone
  | some g =>
      have hg := List.find?_some hfind
      simp only [beq_iff_eq] at hg
      rw [List.inj_on_of_nodup_map hnodup (List.mem_of_find?_eq_some hfind) hf hg]

theorem typeOf_eq {t : Store} {id : Id} {c : Cell} {p : Plan} (hc : t.cell? id = some c)
    (hp : rt.plans[c.plan]? = some p) : rt.typeOf t id = p.name := by
  simp [Runtime.typeOf, Runtime.planOf?, hc, hp]

/-- **An assignment succeeds and writes a number over a number.** -/
theorem assign_spec (hrt : rt.Sound) {t : Store} {U : Id → Prop} (htyped : TypedOn rt t U)
    {y : Id} {c : Cell} (hy : U y) (hc : t.cell? y = some c) (hshallow : Shallow t t.size y)
    {a : Plan.Assignment} {j : Nat} (hup : rt.Ancestor c.plan j) (ha : rt.Assigns a j) :
    ∃ part d p f, assign rt y a t = (.ok (), t.put part f.name (.single (.scalar a.value))) ∧
      part ∈ t.parts y ∧ t.cell? part = some d ∧ CellTyped rt t p d ∧ Receives p f a := by
  obtain ⟨q, f, u, hq, howner, hf, hfield, hshape, helem, hstored, hkind⟩ := ha
  have hqsound := hrt.plan hq
  obtain ⟨part₀, d₀, hmem₀, hd₀, hplan₀⟩ := exists_part htyped hup hy hc rfl hshallow
  let pick : Id → Option (Id × Field) := fun part =>
    if rt.typeOf t part = a.owner then
      ((rt.planOf? t part).bind (·.field? a.field)).map (part, ·)
    else none
  have hpick₀ : pick part₀ = some (part₀, f) := by
    have hp₀ : rt.plans[d₀.plan]? = some q := hplan₀ ▸ hq
    have hfound : q.field? a.field = some f := hfield ▸ field?_eq_some hqsound.nodup hf
    simp [pick, typeOf_eq hd₀ hp₀, howner, Runtime.planOf?, hd₀, hp₀, hfound]
  obtain ⟨found, hfound⟩ : ∃ found, (t.parts y).findSome? pick = some found := by
    cases hnone : (t.parts y).findSome? pick with
    | some found => exact ⟨found, rfl⟩
    | none =>
        have hclash := List.findSome?_eq_none_iff.mp hnone part₀ hmem₀
        rw [hpick₀] at hclash
        cases hclash
  -- Plans are known by their names, so the first part that fits has the owner's plan too.
  obtain ⟨part, hmem, hpart⟩ := List.exists_of_findSome?_eq_some hfound
  obtain ⟨d, hd, hdplan, hsame⟩ : ∃ d, t.cell? part = some d ∧ rt.plans[d.plan]? = some q ∧
      found = (part, f) := by
    by_cases htype : rt.typeOf t part = a.owner
    · simp only [pick, if_pos htype, Option.map_eq_some_iff, Option.bind_eq_some_iff] at hpart
      obtain ⟨f', ⟨p, hp, hf'⟩, hpair⟩ := hpart
      obtain ⟨d, hd, hdp⟩ := planOf?_eq.mp hp
      rw [typeOf_eq hd hdp, ← howner] at htype
      have hpos := hrt.named hdp
      rw [htype, hrt.named hq] at hpos
      rw [← Option.some.inj hpos] at hdp
      rw [hq] at hdp
      obtain rfl := Option.some.inj hdp
      rw [← hfield, field?_eq_some hqsound.nodup hf] at hf'
      obtain rfl := Option.some.inj hf'
      exact ⟨d, hd, Option.some.inj hpos ▸ hq, hpair.symm⟩
    · simp [pick, htype] at hpart
  subst hsame
  have hU := parts_region htyped _ hy hmem
  obtain ⟨⟨p, hcell⟩, -⟩ := htyped part d hU hd
  have hp := hcell.plan
  rw [hdplan] at hp
  obtain rfl := Option.some.inj hp
  have hcountOf : f.isCount = false := by
    have hfs := hqsound.field f hf
    cases hfs with
    | number _ _ _ _ hof => simp [Field.isCount, hof]
    | count _ _ _ _ hunstored => simp [hunstored] at hstored
    | reference _ hsh | fixedList _ hsh | variableList _ hsh => simp [hsh] at hshape
  have hlist : f.isList = false := by
    simp [Field.isList, Field.isFixedList, Field.isVariableList, hshape]
  refine ⟨part, d, q, f, ?_, hmem, hd, hcell, howner, hf, hfield, hshape, hstored, u, helem, hkind⟩
  have hset : setOn rt t y a.owner a.field (.datum (.scalar a.value)) =
      .ok (t.put part f.name (.single (.scalar a.value))) := by
    simp only [setOn]
    rw [show (t.parts y).findSome? _ = some (part, f) from hfound]
    simp [setPart, acceptField, hcountOf, hlist, helem, accept, hkind, Except.mapError, Except.map]
  simp only [assign, Action.run_bind, Action.run_get, hset, Action.run_lift, Action.run_set]

/-- **All assignments of a plan succeed**, one after another, and nothing that was there before the
message is touched. -/
theorem assigns_spec (hrt : rt.Sound) (low : Nat) {y : Id} {i : Nat}
    (l : List Plan.Assignment) (place : Plan.Assignment → String)
    (hl : ∀ a ∈ l, ∃ j, rt.Ancestor i j ∧ rt.Assigns a j) :
    ∀ (t : Store) (done : List Plan.Assignment), TypedOn rt t (fun w => low ≤ w) → low ≤ y →
      (∃ c, t.cell? y = some c ∧ c.plan = i) → Unshared t y → Constructed rt t done y →
      ∃ t', (forIn l PUnit.unit fun a _ => do
          within (place a) (assign rt y a)
          return ForInStep.yield PUnit.unit : Build PUnit) t = (.ok ⟨⟩, t') ∧
        TypedOn rt t' (fun w => low ≤ w) ∧ SameLinks t t' ∧ Grows t t' ∧
        (∀ w, w < low → t'.cell? w = t.cell? w) ∧ Constructed rt t' (done ++ l) y := by
  induction l with
  | nil =>
      intro t done htyped _ _ _ hdone
      exact ⟨t, rfl, htyped, .refl t, .refl t, fun _ _ => rfl, by rwa [List.append_nil]⟩
  | cons a l ih =>
      intro t done htyped hy hcell hun hdone
      obtain ⟨c, hc, hplan⟩ := hcell
      obtain ⟨j, hup, ha⟩ := hl a List.mem_cons_self
      obtain ⟨rank, hrank⟩ := hrt.ranked
      have hwell := htyped.wellTyped hy hc
      have hshallow := hun.acyclic.shallow hwell.complete
      obtain ⟨part, d, p, f, hrun, hmem, hd, hp, hf⟩ :=
        assign_spec hrt htyped hy hc hshallow (hplan ▸ hup) ha
      obtain ⟨n, hold⟩ := hf.exists_number hp
      have hpart := parts_region htyped _ hy hmem
      have hput := htyped.put hpart hd hp (hrt.plan hp.plan).nodup hf.mem (hf.typed rt t)
        fun id hid => absurd hid List.not_mem_nil
      have hlinks : SameLinks t (t.put part f.name (.single (.scalar a.value))) :=
        .put hd hold rfl
      have hstep := Constructed.assign hrt hrank hd hp.plan hf _ hdone hwell hun hmem
      have hgrow := Grows.put t part f.name (.single (.scalar a.value))
      obtain ⟨c', hc', hplan', -⟩ := hgrow.cell y c hc
      obtain ⟨t', hrest, htyped', hlinks', hgrow', hframe, hdone'⟩ :=
        ih (fun b hb => hl b (List.mem_cons_of_mem _ hb)) _ (done ++ [a]) hput hy
          ⟨c', hc', hplan'.trans hplan⟩ (hlinks.unshared hun) hstep
      refine ⟨t', ?_, htyped', hlinks.trans hlinks', hgrow.trans hgrow', ?_, ?_⟩
      · rw [List.forIn_cons]
        simp only [bind_assoc, pure_bind]
        rw [Action.run_bind_ok (Action.within_eq_ok.mpr hrun)]
        exact hrest
      · intro w hw
        rw [hframe w hw, Store.cell?_put_ne]
        rintro rfl
        exact absurd hpart (Nat.not_le.mpr hw)
      · rwa [List.append_assoc] at hdone'

end Assignments

/-! ## Whole messages -/

section Construct

variable {rt : Runtime} {make : Nat → Build Id} {ok : Nat → Bool}

/-- What a message is made of before it is put into the store. -/
def makeParts (rt : Runtime) (make : Nat → Build Id) (p : Plan) :
    Build (Option Id × List (String × Value)) := do
  let q? ← parentPart make p
  let fields ← p.defaults.foldlM (addDefault rt make p.name) []
  return (q?, fields)

/-- Puts a message into the store and gives it its initial values. -/
def finishMessage (rt : Runtime) (p : Plan) (c : Cell) : Build Id := do
  let id ← allocate c
  for a in p.assignments do
    within (p.name ++ " initial value " ++ a.setter) (assign rt id a)
  return id

theorem constructWith_eq {p : Plan} {i : Nat} (hp : rt.plans[i]? = some p) :
    constructWith rt make i =
      makeParts rt make p >>= fun x => finishMessage rt p ⟨i, x.1, x.2⟩ := by
  simp only [constructWith, hp, makeParts, finishMessage, bind_assoc, pure_bind]
  rfl

/-- Counts have no first value, so only stored fields matter. -/
theorem all_fieldMakeable {p : Plan} (hp : p.Sound) :
    (p.fields.filter (·.stored)).all (fieldMakeable rt ok) =
      p.fields.all (fieldMakeable rt ok) := by
  rw [Bool.eq_iff_iff, List.all_eq_true, List.all_eq_true]
  constructor
  · intro h f hf
    cases hstored : f.stored with
    | true => exact h f (List.mem_filter.mpr ⟨hf, hstored⟩)
    | false =>
        cases hp.field f hf with
        | count t l hshape helem => simp [fieldMakeable, hshape, helem, elemMakeable]
        | number _ _ _ hs | reference _ _ _ hs | fixedList _ _ _ _ hs | variableList _ _ hs =>
            simp [hs] at hstored
  · intro h f hf
    exact h f (List.mem_filter.mp hf).1

theorem makeParts_builds (hrt : rt.Sound) {p : Plan} {i : Nat} (hp : rt.plans[i]? = some p)
    (hmake : ∀ j, rt.Contains p j → Makes rt make ok j) (s : Store) :
    Builds rt s (p.parent?.all ok && p.fields.all (fieldMakeable rt ok))
      (makeParts rt make p s) fun x s' => CellNew rt s' p ⟨i, x.1, x.2⟩ ∧
        Made s s' (Cell.children ⟨i, x.1, x.2⟩) := by
  have hsound := hrt.plan hp
  have hfields : ∀ f ∈ p.fields.filter (·.stored),
      f.Sound p ∧ f.stored = true ∧ FieldMakes rt make ok f := by
    intro f hf
    obtain ⟨hmem, hstored⟩ := List.mem_filter.mp hf
    refine ⟨hsound.field f hmem, hstored, fun hshape type helem => ?_⟩
    obtain ⟨j, hj⟩ := hrt.elem hp hmem helem
    exact ⟨j, hj, hmake j (.inr ⟨f, hmem, hshape, type, helem, hj⟩)⟩
  have hnodup : ((p.fields.filter (·.stored)).map (·.name)).Nodup :=
    hsound.nodup.sublist (List.filter_sublist.map _)
  have hok : (p.parent?.all ok && p.fields.all (fieldMakeable rt ok)) =
      (p.parent?.all ok && ((p.fields.filter (·.stored)).all (fieldMakeable rt ok) && true)) := by
    rw [all_fieldMakeable hsound, Bool.and_true]
  rw [hok]
  have hparent : p.hasParent = true → ∃ j, p.parent? = some j ∧ Makes rt make ok j := by
    intro hhas
    obtain ⟨j, -, hj, -⟩ := hrt.parent hp hhas
    exact ⟨j, hj, hmake j (.inl hj)⟩
  refine (parentPart_builds hparent (hrt.orphan hp) s).bind fun q? s' _ hext hpart => ?_
  obtain ⟨hq, hqnew, hqmade⟩ := hpart
  have hadd := addDefaults_builds hrt p.name _ hfields hnodup [] s' fun f _ => by simp
  rw [← hsound.defaults] at hadd
  refine hadd.bind fun fields s'' _ hext' hnew => .pure ?_
  obtain ⟨new, hnil, hentries, hmade⟩ := hnew
  obtain rfl : fields = new := hnil
  refine ⟨hentries.cellNew hp hnodup (hq.mono hext'.grows) ?_, hqmade.append hmade hext hext'⟩
  exact hqmade.isNew hext' hqnew

theorem finishMessage_spec (hrt : rt.Sound) {p : Plan} {s s' : Store} {c : Cell}
    (hext : Extends s s') (htyped : TypedOn rt s' fun w => s.size ≤ w)
    (hcell : CellNew rt s' p c) (hmade : Made s s' c.children) :
    ∃ t, finishMessage rt p c s' = (.ok s'.size, t) ∧ Extends s t ∧
      TypedOn rt t (fun w => s.size ≤ w) ∧ Made s t [s'.size] ∧ IsNew rt t s'.size ∧
      ∃ d, t.cell? s'.size = some d ∧ d.plan = c.plan := by
  have halloc := Made.alloc hext hmade
  have hnew : (s'.alloc c).2.cell? s'.size = some c := by rw [Store.cell?_alloc, if_pos rfl]
  have hregion : TypedOn rt (s'.alloc c).2 fun w => s.size ≤ w := by
    refine htyped.alloc hcell.typed fun z hz => ?_
    exact (hmade.below z hz z (Reach.refl _ _)).1
  obtain ⟨t, hrun, ht, hlinks, hgrow, hframe, hdone⟩ := assigns_spec hrt s.size p.assignments
    (fun a => p.name ++ " initial value " ++ a.setter)
    (fun a ha => hrt.assignment hcell.typed.plan ha) (s'.alloc c).2 [] hregion hext.size_le
    ⟨c, hnew, rfl⟩ (halloc.forest.1 _ (List.mem_singleton_self _)) (hcell.alloc hmade)
  obtain ⟨d, hd, hplan, -⟩ := hgrow.cell _ c hnew
  have hisNew : IsNew rt t s'.size := by
    intro p' hp'
    have hsame := planOf?_eq.mpr ⟨d, hd, hplan ▸ hcell.typed.plan⟩
    rw [← Option.some.inj (hsame.symm.trans hp')]
    exact hdone
  refine ⟨t, ?_, ⟨?_, ?_⟩, ht, hlinks.made halloc, hisNew, d, hd, hplan⟩
  · have hallocate : allocate c s' = (.ok s'.size, (s'.alloc c).2) := rfl
    rw [finishMessage, Action.run_bind_ok hallocate, Action.run_bind_ok hrun, Action.run_pure]
  · have := hext.size_le
    rw [hlinks.size_eq, Store.size_alloc]
    omega
  · intro w hw
    rw [hframe w hw, ((Extends.alloc s' c).cell w (lt_of_lt_of_le hw hext.size_le)), hext.cell w hw]

/-- What is held by value has a plan. -/
theorem Runtime.Sound.exists_plan (hrt : rt.Sound) {i j : Nat} {p : Plan}
    (hp : rt.plans[i]? = some p) (hj : rt.Contains p j) : ∃ q, rt.plans[j]? = some q := by
  rcases hj with hparent | ⟨f, -, -, type, -, hpos⟩
  · cases hhas : p.hasParent with
    | false =>
        rw [hrt.orphan hp hhas] at hparent
        cases hparent
    | true =>
        obtain ⟨j', q, hj', hq⟩ := hrt.parent hp hhas
        rw [hparent] at hj'
        exact ⟨q, Option.some.inj hj' ▸ hq⟩
  · obtain ⟨q, hq, -⟩ := hrt.position hpos
    exact ⟨q, hq⟩

/-- **What a construction does to a store, and when it succeeds.** -/
theorem construct_builds (hrt : rt.Sound) {rank : Nat → Nat} (hrank : rt.Ranked rank) (n : Nat) :
    ∀ {i : Nat} {p : Plan}, rt.plans[i]? = some p → rank i < n →
      Makes rt (construct rt n) (makeable rt n) i := by
  induction n with
  | zero =>
      intro i p _ hlt
      omega
  | succ n ih =>
      intro i p hp hlt s
      have hmake : ∀ j, rt.Contains p j → Makes rt (construct rt n) (makeable rt n) j := by
        intro j hj
        have hfall := (hrank i p hp).2 j hj
        obtain ⟨q, hq⟩ := hrt.exists_plan hp hj
        exact ih hq (by omega)
      have hok : makeable rt (n + 1) i = (p.parent?.all (makeable rt n) &&
          p.fields.all (fieldMakeable rt (makeable rt n))) := by
        simp [makeable, hp]
      have hparts := makeParts_builds hrt hp hmake s
      rw [hok, construct, constructWith_eq hp]
      rcases hrun : makeParts rt (construct rt n) p s with ⟨e | x, s'⟩
      · rw [hrun] at hparts
        rw [Action.run_bind_error hrun]
        refine ⟨hparts.extends_, hparts.typed, fun hb => ?_, fun hb => ?_⟩
        · obtain ⟨a, ha, -⟩ := hparts.done hb
          cases ha
        · cases hparts.refused hb
          rfl
      · rw [hrun] at hparts
        rw [Action.run_bind_ok hrun]
        have hb : (p.parent?.all (makeable rt n) &&
            p.fields.all (fieldMakeable rt (makeable rt n))) = true := by
          by_contra hb
          obtain ⟨e, he, -⟩ := hparts.failed (by simpa using hb)
          cases he
        obtain ⟨x', hx', hcell, hmade⟩ := hparts.done hb
        obtain rfl := Except.ok.inj hx'
        obtain ⟨t, hfinish, hext, htyped, hdone, hnew, hplan⟩ :=
          finishMessage_spec hrt hparts.extends_ hparts.typed hcell hmade
        rw [hfinish, hb]
        exact ⟨hext, htyped, fun _ => ⟨_, rfl, hdone, hnew, hplan⟩, fun hno => by cases hno⟩

/-- A new message of a type, by the type's position. -/
theorem new_constructs (hrt : rt.Sound) {type : String} {j : Nat} (hj : rt.position? type = some j)
    (s : Store) : Builds rt s (makeable rt (rt.plans.size + 1) j) (new rt type s) fun y s' =>
      Made s s' [y] ∧ IsNew rt s' y ∧ ∃ c, s'.cell? y = some c ∧ c.plan = j := by
  obtain ⟨rank, hrank⟩ := hrt.ranked
  obtain ⟨p, hp, -⟩ := hrt.position hj
  have hlt := (hrank j p hp).1
  rw [new, newWith, hj]
  exact construct_builds hrt hrank _ hp (by omega) s

/-- A new message of a type, whatever it holds. -/
theorem new_makes (hrt : rt.Sound) {type : String} {j : Nat} (hj : rt.position? type = some j)
    (s : Store) : Builds rt s (makeable rt (rt.plans.size + 1) j) (new rt type s) fun y s' =>
      Made s s' [y] ∧ ∃ c, s'.cell? y = some c ∧ c.plan = j :=
  (new_constructs hrt hj s).imp fun _ _ h => ⟨h.1, h.2.2⟩

/-- The plan of a message of a type is at the type's position. -/
theorem OfType.plan_eq (hrt : rt.Sound) {s : Store} {id : Id} {type : String} {j : Nat}
    (h : OfType rt s id type) (hj : rt.position? type = some j) :
    ∃ c, s.cell? id = some c ∧ c.plan = j := by
  obtain ⟨p, hp, rfl⟩ := h
  obtain ⟨c, hc, hplan⟩ := planOf?_eq.mp hp
  have hpos := hrt.named hplan
  rw [hj] at hpos
  exact ⟨c, hc, (Option.some.inj hpos).symm⟩

/-- **A type that has a well-typed message can be made.**  What the message holds by value shows
that its fixed lists are not too long. -/
theorem WellTyped.makeable (hrt : rt.Sound) {rank : Nat → Nat} (hrank : rt.Ranked rank)
    {s : Store} (n : Nat) : ∀ {x : Id} {c : Cell}, WellTyped rt s x → s.cell? x = some c →
      rank c.plan < n → makeable rt n c.plan = true := by
  induction n with
  | zero =>
      intro x c _ _ hlt
      omega
  | succ n ih =>
      intro x c hx hc hlt
      obtain ⟨p, c', hc', hcell⟩ := hx.cell
      rw [hc] at hc'
      obtain rfl := Option.some.inj hc'
      have hp := hcell.plan
      have hfall := (hrank _ p hp).2
      have helem : ∀ f ∈ p.fields, f.shape ≠ .variableList → ∀ v, c.value? f.name = some v →
          ∀ i, i.ids ⊆ v.ids → ItemTyped rt s f.elem i →
          elemMakeable rt (Message.makeable rt n) f.elem = true := by
        intro f hf hshape v hv i hids hi
        cases he : f.elem with
        | primitive t => rfl
        | message type =>
            rw [he] at hi
            obtain ⟨id, rfl, htype⟩ := hi.exists_message
            obtain ⟨j, hj⟩ := hrt.elem hp hf he
            obtain ⟨d, hd, rfl⟩ := htype.plan_eq hrt hj
            have hmem : id ∈ c.children :=
              Cell.ids_subset_children hv (hids (List.mem_singleton_self id))
            have hlt' := hfall d.plan (.inr ⟨f, hf, hshape, type, he, hj⟩)
            simp [elemMakeable, hj, ih (hx.child hc hmem) hd (by omega)]
      have hparent : p.parent?.all (Message.makeable rt n) = true := by
        have htyped := hcell.parent
        cases hq : c.parent? with
        | none =>
            rw [hq] at htyped
            rw [show p.parent? = none from htyped]
            rfl
        | some q =>
            rw [hq] at htyped
            obtain ⟨d, hd, hplan⟩ := htyped
            have hlt' := hfall d.plan (.inl hplan)
            rw [hplan]
            exact ih (hx.child hc (Cell.parent_mem_children hq)) hd (by omega)
      have hfields : p.fields.all (fieldMakeable rt (Message.makeable rt n)) = true := by
        rw [← all_fieldMakeable (hrt.plan hp), List.all_eq_true]
        intro f hf
        obtain ⟨hmem, hstored⟩ := List.mem_filter.mp hf
        obtain ⟨v, hv, htyped⟩ := hcell.stored f hmem hstored
        cases (hrt.plan hp).field f hmem with
        | number t hshape he => simp [fieldMakeable, hshape, he, elemMakeable]
        | count t l _ _ hunstored => simp [hunstored] at hstored
        | reference type hshape he =>
            obtain ⟨id, rfl, htype⟩ := htyped.message hshape he
            have hok := helem f hmem (by simp [hshape]) _ hv (.message id) (fun _ h => h)
              (he ▸ htype)
            simp [fieldMakeable, hshape, hok]
        | fixedList n' hshape hlen hpos =>
            obtain ⟨items, rfl, hitems, hle, hall⟩ := htyped.fixedList hshape
            cases items with
            | nil =>
                simp only [List.length_nil, Nat.cast_zero] at hitems
                omega
            | cons i rest =>
                have hok := helem f hmem (by simp [hshape]) _ hv i
                  (fun id hid => List.mem_flatMap.mpr ⟨i, List.mem_cons_self, hid⟩)
                  (hall i List.mem_cons_self)
                simp [fieldMakeable, hshape, hle, hok]
        | variableList k hshape => simp [fieldMakeable, hshape]
      simp [Message.makeable, hp, hparent, hfields]

end Construct

end WireSchema.Message
