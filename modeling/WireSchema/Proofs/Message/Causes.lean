import Mathlib
import WireSchema.Proofs.Message.Descent
import WireSchema.Proofs.Plan.Pairing

/-!
# Why reading a message fails

Reading fails for many reasons, but some causes come up only where the program itself is at fault.
To rule such causes out one does not have to know what messages or readers look like, only what each
action can throw.  `Ends bad post act` says that the action never fails for one of the `bad` causes
and that its results are as `post` says; it has a rule for every way actions are put together.

A list that comes up before its count is such a cause.  The decoder keeps the counts it has read,
and the steps of a sound plan pair counts and lists, so when a list comes up its count is kept.

## Main results

* `decodeStep_ends` — a step throws nothing uncommon and keeps the counts it is to keep.
* `decodeWith_ends` — whatever uncommon causes the reader of parts avoids, the decoder avoids.
-/

namespace WireSchema.Message

open Plan (DecodeStep Paired)

/-- The action ends with a result as `post` says, or fails for a cause that is not `bad`. -/
def Ends {σ α : Type} (bad : Cause → Prop) (post : α → Prop) (act : Action σ α) : Prop :=
  ∀ s, (∀ a t, act s = (.ok a, t) → post a) ∧ ∀ e t, act s = (.error e, t) → ¬ bad e.cause

namespace Ends

variable {σ α β : Type} {bad : Cause → Prop}

theorem pure {post : α → Prop} {a : α} (ha : post a) :
    Ends bad post (Pure.pure a : Action σ α) := by
  intro s
  refine ⟨fun a' t h => ?_, fun e t h => ?_⟩
  · cases h
    exact ha
  · cases h

theorem bind {mid : α → Prop} {post : β → Prop} {x : Action σ α} {f : α → Action σ β}
    (hx : Ends bad mid x) (hf : ∀ a, mid a → Ends bad post (f a)) : Ends bad post (x >>= f) := by
  intro s
  rw [Action.run_bind]
  rcases hrun : x s with ⟨e | a, s'⟩
  · refine ⟨fun a t h => ?_, fun e' t h => ?_⟩
    · cases h
    · cases h
      exact (hx s).2 e s' hrun
  · exact hf a ((hx s).1 a s' hrun) s'

theorem weaken {post post' : α → Prop} {x : Action σ α} (hx : Ends bad post x)
    (hpost : ∀ a, post a → post' a) : Ends bad post' x :=
  fun s => ⟨fun a t h => hpost a ((hx s).1 a t h), (hx s).2⟩

theorem within {post : α → Prop} {x : Action σ α} (hx : Ends bad post x) (place : String) :
    Ends bad post (within place x) := by
  intro s
  rcases hrun : x s with ⟨e | a, s'⟩
  · rw [Action.within_eq_error hrun]
    refine ⟨fun a t h => ?_, fun e' t h => ?_⟩
    · cases h
    · cases h
      rw [Failure.cause_within]
      exact (hx s).2 e s' hrun
  · rw [Action.within_eq_ok.mpr hrun]
    refine ⟨fun a' t h => ?_, fun e t h => ?_⟩
    · cases h
      exact (hx s).1 a s' hrun
    · cases h

theorem lift {x : Except Failure α} (hx : ∀ e, x = .error e → ¬ bad e.cause) :
    Ends bad (fun a => x = .ok a) (liftM x : Action σ α) := by
  intro s
  rw [Action.run_lift]
  exact ⟨fun a t h => (Prod.mk.inj h).1, fun e t h => hx e (Prod.mk.inj h).1⟩

theorem throw {post : α → Prop} {e : Failure} (he : ¬ bad e.cause) :
    Ends bad post (throw e : Action σ α) := by
  intro s
  refine ⟨fun a t h => ?_, fun e' t h => ?_⟩
  · cases h
  · cases h
    exact he

/-- An action that always succeeds. -/
theorem of_ok {x : Action σ α} (hx : ∀ s, ∃ a t, x s = (.ok a, t)) :
    Ends bad (fun _ => True) x := by
  intro s
  obtain ⟨a, t, hrun⟩ := hx s
  rw [hrun]
  refine ⟨fun _ _ _ => trivial, fun e t h => ?_⟩
  cases h

/-- A loop over `front ++ rest` that has done its front.  What it carries is as `inv` says about
what is done. -/
theorem foldlM {f : β → α → Action σ β} (inv : List α → β → Prop) (rest : List α) :
    ∀ (front : List α) {b : β},
      (∀ done x after b, front ++ rest = done ++ x :: after → inv done b →
        Ends bad (inv (done ++ [x])) (f b x)) →
      inv front b → Ends bad (inv (front ++ rest)) (rest.foldlM f b) := by
  induction rest with
  | nil =>
      intro front b hstep hinv
      rw [List.append_nil]
      exact .pure hinv
  | cons x rest ih =>
      intro front b hstep hinv
      rw [List.foldlM_cons, List.append_cons]
      refine (hstep front x rest b rfl hinv).bind fun b' hinv' => ih (front ++ [x]) ?_ hinv'
      intro done y after b'' hsplit
      exact hstep done y after b'' (by rw [List.append_cons, hsplit])

end Ends

/-- Causes that nothing but the steps of a plan or the depth of a message brings about. -/
structure Uncommon (bad : Cause → Prop) : Prop where
  unknownType : ¬ bad .unknownType
  halt : ∀ text, ¬ bad (.halt text)
  fault : ∀ text, ¬ bad (.fault text)
  read : ∀ e, ¬ bad (.read e)

section Decode

variable {rt : Runtime} {bad : Cause → Prop} {fill : Id → Fill Unit}

theorem cellOf_ends (hbad : Uncommon bad) (y : Id) : Ends bad (fun _ => True) (cellOf y) := by
  refine Ends.bind (.of_ok fun s => ⟨s, s, rfl⟩) fun s _ => (Ends.lift fun e h => ?_).weaken ?_
  · rw [Store.cell] at h
    split at h <;> cases h
    exact hbad.fault _
  · exact fun _ _ => trivial

theorem message_ends (hbad : Uncommon bad) (c : Cell) (f : String) :
    Ends bad (fun _ => True) (liftM (c.message f) : Fill Id) := by
  refine (Ends.lift fun e h => ?_).weaken fun _ _ => trivial
  rw [Cell.message] at h
  split at h <;> cases h <;> exact hbad.fault _

theorem new_ends (hbad : Uncommon bad) (hrt : rt.Sound) (type : String) :
    Ends bad (fun _ => True) (build (new rt type)) := by
  intro s
  refine ⟨fun _ _ _ => trivial, fun e t h => ?_⟩
  have hnew : (new rt type s.store).1 = .error e := (Prod.mk.inj h).1
  cases hj : rt.position? type with
  | none =>
      rw [new, newWith, hj] at hnew
      cases hnew
      exact hbad.unknownType
  | some j =>
      have hmakes := new_makes hrt hj s.store
      cases hok : makeable rt (rt.plans.size + 1) j with
      | true =>
          obtain ⟨y, hy, -⟩ := hmakes.done hok
          rw [hy] at hnew
          cases hnew
      | false =>
          obtain ⟨e', he', hcause⟩ := hmakes.failed hok
          rw [he'] at hnew
          cases hnew
          rw [hcause]
          exact hbad.fault _

theorem fillItems_ends (hbad : Uncommon bad) (hfill : ∀ id, Ends bad (fun _ => True) (fill id))
    (items : List Item) : Ends bad (fun _ => True) (fillItems fill items) := by
  induction items with
  | nil => exact .pure trivial
  | cons i items ih =>
      cases i with
      | message id => exact (hfill id).bind fun _ _ => ih
      | scalar n => exact .throw (hbad.fault _)

theorem readMessages_ends (hbad : Uncommon bad) (hrt : rt.Sound)
    (hfill : ∀ id, Ends bad (fun _ => True) (fill id)) (type : String) (n : Nat) :
    Ends bad (fun _ => True) (readMessages rt fill type n) := by
  induction n with
  | zero => exact .pure trivial
  | succ n ih =>
      exact (new_ends hbad hrt type).bind fun id _ => (hfill id).bind fun _ _ =>
        ih.bind fun _ _ => .pure trivial

theorem readScalar_ends (k : Kind) : Ends bad (fun _ => True) (readScalar k) :=
  .of_ok fun _ => ⟨_, _, rfl⟩

theorem keep_ends (y : Id) (f : String) (v : Value) : Ends bad (fun _ => True) (keep y f v) :=
  .of_ok fun _ => ⟨_, _, rfl⟩

theorem readList_ends (hbad : Uncommon bad) (hrt : rt.Sound)
    (hfill : ∀ id, Ends bad (fun _ => True) (fill id)) (y : Id) (f : String) (e : Element)
    (n : UInt64) : Ends bad (fun _ => True) (readList rt fill y f e n) := by
  rw [readList_eq]
  refine Ends.bind (.of_ok fun _ => ⟨_, _, rfl⟩) fun k _ => ?_
  refine Ends.bind (.of_ok fun _ => ⟨_, _, rfl⟩) fun failed _ => ?_
  cases failed with
  | true => exact .pure trivial
  | false =>
      have hitems : Ends bad (fun _ => True) (readItems rt fill k e) := by
        cases e with
        | message type => exact readMessages_ends hbad hrt hfill type k
        | primitive t =>
            refine .of_ok fun s => ?_
            obtain ⟨a, r, hrun, -⟩ := readElements_takes (fun _ _ => False) t k s
            exact ⟨a, _, hrun⟩
      exact hitems.bind fun items _ => keep_ends _ _ _

/-- The counts that the steps `done` keep are kept. -/
def Kept (done : List DecodeStep) (counts : Counts) : Prop :=
  ∀ k, (∃ step ∈ done, step.keepsCount k = true) → ∃ n, counts.lookup k = some n

/-- A step that keeps no count leaves the kept ones as they are. -/
theorem Kept.skip {done : List DecodeStep} {counts : Counts} {step : DecodeStep}
    (h : Kept done counts) (hstep : ∀ k, step.keepsCount k = false) :
    Kept (done ++ [step]) counts := by
  rintro k ⟨x, hx, hkeeps⟩
  rcases List.mem_append.mp hx with hx | hx
  · exact h k ⟨x, hx, hkeeps⟩
  · rw [List.mem_singleton.mp hx, hstep k] at hkeeps
    cases hkeeps

/-- A count that is kept does not hide another one. -/
theorem Kept.keep {done : List DecodeStep} {counts : Counts} {f list : String} {t : Primitive}
    (h : Kept done counts) (n : UInt64) :
    Kept (done ++ [.count f list t false]) ((f, n) :: counts) := by
  rintro k ⟨x, hx, hkeeps⟩
  by_cases hk : k = f
  · exact ⟨n, by rw [hk, List.lookup_cons_self]⟩
  · rw [List.lookup_cons, beq_eq_false_iff_ne.mpr hk]
    rcases List.mem_append.mp hx with hx | hx
    · exact h k ⟨x, hx, hkeeps⟩
    · rw [List.mem_singleton.mp hx] at hkeeps
      simp only [DecodeStep.keepsCount, Bool.and_eq_true, beq_iff_eq] at hkeeps
      exact absurd hkeeps.1.symm hk

/-- **One step.**  If the list of the step has its count, nothing uncommon is thrown. -/
theorem decodeStep_ends (hbad : Uncommon bad) (hrt : rt.Sound)
    (hfill : ∀ id, Ends bad (fun _ => True) (fill id)) (y : Id) {done : List DecodeStep}
    {counts : Counts} (hkept : Kept done counts) (step : DecodeStep)
    (hlist : ∀ f e k, step = .variableList f e k → ∃ n, counts.lookup k = some n) :
    Ends bad (Kept (done ++ [step])) (decodeStep rt fill y counts step) := by
  cases step with
  | parent name =>
      refine (cellOf_ends hbad y).bind fun c _ => ?_
      cases c.parent? with
      | none => exact .throw (hbad.fault _)
      | some q => exact (hfill q).bind fun _ _ => .pure (hkept.skip fun _ => rfl)
  | primitive f t =>
      exact (readScalar_ends t.kind).bind fun v _ =>
        (keep_ends _ _ _).bind fun _ _ => .pure (hkept.skip fun _ => rfl)
  | count f list t discard =>
      refine (readScalar_ends t.kind).bind fun v _ => ?_
      cases discard with
      | true => exact .pure (hkept.skip fun k => by simp [DecodeStep.keepsCount])
      | false =>
          simp only [Bool.false_eq_true, if_false]
          cases (Datum.scalar v).toWord with
          | ok n => exact .pure (hkept.keep n)
          | error m => exact .throw (hbad.halt _)
  | reference f type =>
      exact (cellOf_ends hbad y).bind fun c _ => (message_ends hbad c f).bind fun q _ =>
        (hfill q).bind fun _ _ => .pure (hkept.skip fun _ => rfl)
  | fixedList f n e =>
      cases e with
      | primitive t =>
          refine Ends.bind (.of_ok fun s => ?_) fun items _ =>
            (keep_ends _ _ _).bind fun _ _ => .pure (hkept.skip fun _ => rfl)
          obtain ⟨a, r, hrun, -⟩ := readScalars_takes (fun _ _ => False) t n.toNat s
          exact ⟨a, _, hrun⟩
      | message type =>
          exact (cellOf_ends hbad y).bind fun c _ =>
            (fillItems_ends hbad hfill _).bind fun _ _ => .pure (hkept.skip fun _ => rfl)
  | variableList f e k =>
      obtain ⟨n, hn⟩ := hlist f e k rfl
      simp only [decodeStep, hn]
      exact (readList_ends hbad hrt hfill y f e n).bind fun _ _ =>
        .pure (hkept.skip fun _ => rfl)

/-- **Reading into a message avoids the uncommon causes that reading into its parts avoids.** -/
theorem decodeWith_ends (hbad : Uncommon bad) (hrt : rt.Sound)
    (hfill : ∀ id, Ends bad (fun _ => True) (fill id)) (y : Id) :
    Ends bad (fun _ => True) (decodeWith rt fill y) := by
  have hcheck : ∀ place, Ends bad (fun _ => True) (checkReader place) := by
    intro place
    refine Ends.bind (.of_ok fun s => ⟨s, s, rfl⟩) fun s _ => ?_
    cases s.reader.error? with
    | none => exact .pure trivial
    | some r => exact .throw (hbad.read r)
  refine Ends.bind (.of_ok fun s => ⟨s, s, rfl⟩) fun s _ => ?_
  refine Ends.bind (.lift fun e h => ?_) fun p hp => ?_
  · rw [Runtime.planOf] at h
    split at h <;> cases h
    exact hbad.fault _
  · have hpaired : Paired p.decode := by
      rw [Runtime.planOf] at hp
      split at hp <;> cases hp
      rename_i hplan
      obtain ⟨c, -, hp'⟩ := planOf?_eq.mp hplan
      exact (hrt.plan hp').paired
    -- Whatever step is next, the counts of those before it are kept.
    refine Ends.bind (Ends.foldlM Kept p.decode [] ?_ ?_) fun _ _ => .pure trivial
    · intro done step after counts hsplit hkept
      have hlist : ∀ f e k, step = .variableList f e k → ∃ n, counts.lookup k = some n := by
        rintro f e k rfl
        have hone : done.countP (·.keepsCount k) = 1 := hpaired.list done f e k after hsplit
        have hpos : 0 < done.countP (·.keepsCount k) := by omega
        exact hkept k (List.countP_pos_iff.mp hpos)
      exact ((decodeStep_ends hbad hrt hfill y hkept step hlist).within _).bind fun counts' h' =>
        (hcheck _).bind fun _ _ => .pure h'
    · rintro k ⟨step, hstep, -⟩
      cases hstep

/-- The decoder avoids every uncommon cause but that of its own depth. -/
theorem decodeDepth_ends (hbad : Uncommon bad) (hdeep : ¬ bad .tooDeep) (hrt : rt.Sound)
    (depth : Nat) : ∀ y, Ends bad (fun _ => True) (decodeDepth rt depth y) := by
  induction depth with
  | zero => exact fun y => .throw hdeep
  | succ depth ih => exact fun y => decodeWith_ends hbad hrt ih y

/-- **The decoder never misses a count**, whatever messages and bytes it is run on. -/
theorem decode_not_countMissing (hrt : rt.Sound) {y : Id} {s t : Input} {e : Failure}
    (h : decode rt y s = (.error e, t)) (count field : String) :
    e.cause ≠ .countMissing count field := by
  have hbad : Uncommon fun cause => ∃ count field, cause = .countMissing count field :=
    ⟨by simp, by simp, by simp, by simp⟩
  intro hcause
  rw [decode_run] at h
  exact (decodeDepth_ends hbad (by simp) hrt (startDepth rt s) y s).2 e t h ⟨count, field, hcause⟩

end Decode

end WireSchema.Message
