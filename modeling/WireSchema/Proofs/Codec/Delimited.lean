import Mathlib
import WireSchema.Proofs.Codec.Termination

/-!
# Messages end where they end

The bytes of a message say where it ends.  What follows them does not matter, and if some of them
are missing this is noticed.  The second part is less obvious than the first: a failed reader gives
zeros and lets the decoder go on until the end of the step, and a list of numbers is refused before
any of its elements is read.

The decoder is compared with itself, on the bytes that it takes followed by others and on a part of
these bytes.  `Delimited` says how an action has to behave for that, and `Strict` that besides it
never succeeds with a failed reader.

## Main results

* `Delimited.bind`, `Strict.bind` — one action after another.
* `checked_strict` — a look at the reader makes an action strict.
* `decodeDepth_strict` — the decoder is strict at every depth.
* `decode_delimited` — what follows a message does not matter, and its end is not missed.
-/

namespace WireSchema.Message

open Plan (Field DecodeStep)
open Wire (Reader ReadError maxListLength)

/-- The bytes did not suffice: the reader says so, and so does the failure if there is one. -/
def FellShort {α : Type} (res : Except Failure α × Input) : Prop :=
  ∃ e : ReadError, e.isShort = true ∧ res.2.reader.error? = some e ∧
    ∀ f, res.1 = .error f → f.cause = .read e

/-- Whenever the action succeeds and leaves a clean reader, it does the same on the bytes that it
took followed by any others, and on fewer bytes it falls short. -/
def Delimited {α : Type} (act : Fill α) : Prop :=
  ∀ (st : Store) (off : Nat) (bs : List UInt8) (a : α) (t : Input),
    act ⟨st, off, bs, none⟩ = (.ok a, t) → t.reader.error? = none →
    ∃ front, bs = front ++ t.reader.rest ∧
      (∀ s, act ⟨st, off, front ++ s, none⟩ = (.ok a, ⟨t.store, off + front.length, s, none⟩)) ∧
      ∀ n < front.length, FellShort (act ⟨st, off, front.take n, none⟩)

/-- A delimited action that never succeeds with a failed reader. -/
structure Strict {α : Type} (act : Fill α) : Prop where
  delimited : Delimited act
  clean : ∀ {s t : Input} {a : α}, s.reader.error? = none → act s = (.ok a, t) →
    t.reader.error? = none

/-! ## Putting actions together -/

section Combine

variable {α β : Type}

/-- What is done after a reader failed may not matter any more. -/
def Passes (next : Fill β) (s : Input) : Prop :=
  ∀ e, s.reader.error? = some e → ∃ b t, next s = (.ok b, t) ∧ t.reader.error? = some e

/-- **One action after another**, where the second one passes over a failed reader. -/
theorem Delimited.bind {act : Fill α} {next : α → Fill β} (h : Delimited act)
    (hnext : ∀ a, Delimited (next a))
    (hpass : ∀ s a t, s.reader.error? = none → act s = (.ok a, t) → Passes (next a) t) :
    Delimited (act >>= next) := by
  intro st off bs b u hrun hclean
  obtain ⟨a, t, hact, hrest⟩ := Action.bind_eq_ok.mp hrun
  have hmid : t.reader.error? = none := by
    cases herr : t.reader.error? with
    | none => rfl
    | some e =>
        obtain ⟨b', u', hrun', hfailed⟩ := hpass _ a t rfl hact e herr
        rw [hrest] at hrun'
        cases hrun'
        rw [hclean] at hfailed
        cases hfailed
  obtain ⟨front, rfl, hreplay, hshort⟩ := h _ _ _ _ _ hact hmid
  have ht : t = ⟨t.store, off + front.length, t.reader.rest, none⟩ := by
    rw [hreplay] at hact
    exact (Prod.mk.inj hact).2.symm
  rw [ht] at hrest
  obtain ⟨front', hsplit, hreplay', hshort'⟩ := hnext a _ _ _ _ _ hrest hclean
  refine ⟨front ++ front', ?_, fun s => ?_, fun n hn => ?_⟩
  · rw [List.append_assoc]
    exact congrArg (front ++ ·) hsplit
  · rw [List.append_assoc, Action.run_bind_ok (hreplay _), hreplay' s, List.length_append,
      Nat.add_assoc]
  · by_cases hlt : n < front.length
    · -- The first action falls short; then there is nothing more to do, or it does not matter.
      rw [List.take_append_of_le_length (Nat.le_of_lt hlt)]
      obtain ⟨e, hisShort, herr, hcause⟩ := hshort n hlt
      rcases hfirst : act ⟨st, off, front.take n, none⟩ with ⟨f | a', t'⟩
      · rw [hfirst] at herr hcause
        rw [Action.run_bind_error hfirst]
        exact ⟨e, hisShort, herr, fun g hg => hcause g (by cases hg; rfl)⟩
      · rw [hfirst] at herr
        obtain ⟨b', u', hrun', hfailed⟩ := hpass _ a' t' rfl hfirst e herr
        rw [Action.run_bind_ok hfirst, hrun']
        exact ⟨e, hisShort, hfailed, fun g hg => by cases hg⟩
    · rw [List.take_append, List.take_of_length_le (by omega), Action.run_bind_ok (hreplay _)]
      rw [List.length_append] at hn
      exact hshort' (n - front.length) (by omega)

/-- After a strict action the reader is clean. -/
theorem Strict.passes {act : Fill α} (h : Strict act) {next : Fill β} {s t : Input} {a : α}
    (hs : s.reader.error? = none) (hrun : act s = (.ok a, t)) : Passes next t := by
  intro e herr
  rw [h.clean hs hrun] at herr
  cases herr

theorem Strict.bind_delimited {act : Fill α} {next : α → Fill β} (h : Strict act)
    (hnext : ∀ a, Delimited (next a)) : Delimited (act >>= next) :=
  h.delimited.bind hnext fun _ _ _ hs hrun => h.passes hs hrun

theorem Strict.bind {act : Fill α} {next : α → Fill β} (h : Strict act)
    (hnext : ∀ a, Strict (next a)) : Strict (act >>= next) := by
  refine ⟨h.bind_delimited fun a => (hnext a).delimited, fun hs hrun => ?_⟩
  obtain ⟨a, t, hact, hrest⟩ := Action.bind_eq_ok.mp hrun
  exact (hnext a).clean (h.clean hs hact) hrest

/-- An action on the store alone takes nothing. -/
theorem strict_of_store {act : Fill α} (g : Build α)
    (h : ∀ s, act s = ((g s.store).1, ⟨(g s.store).2, s.reader⟩)) : Strict act := by
  constructor
  · intro st off bs a t hrun _
    rw [h] at hrun
    obtain ⟨hok, rfl⟩ := Prod.mk.inj hrun
    refine ⟨[], rfl, fun s => ?_, fun n hn => absurd hn (Nat.not_lt_zero n)⟩
    rw [h, hok]
    rfl
  · intro s t a hs hrun
    rw [h] at hrun
    obtain ⟨-, rfl⟩ := Prod.mk.inj hrun
    exact hs

theorem strict_pure (a : α) : Strict (pure a : Fill α) :=
  strict_of_store (pure a) fun _ => rfl

theorem strict_throw (e : Failure) : Strict (throw e : Fill α) :=
  strict_of_store (throw e) fun _ => rfl

theorem strict_lift (x : Except Failure α) : Strict (liftM x : Fill α) :=
  strict_of_store (liftM x) fun s => by simp

theorem strict_build (act : Build α) : Strict (build act) :=
  strict_of_store act fun _ => rfl

theorem strict_keep (y : Id) (field : String) (v : Value) : Strict (keep y field v) :=
  strict_of_store (modify (·.put y field v)) fun _ => rfl

theorem strict_cellOf (y : Id) : Strict (cellOf y) :=
  strict_of_store (do (← get).cell y) fun s => by
    rw [show cellOf y s = (s.store.cell y, s) from Action.run_lift _ s,
      Action.run_bind_ok (Action.run_get s.store), Action.run_lift]

theorem strict_foldlM {f : β → α → Fill β} (hf : ∀ b a, Strict (f b a)) (xs : List α) :
    ∀ b, Strict (xs.foldlM f b) := by
  induction xs with
  | nil => exact fun b => strict_pure b
  | cons x xs ih =>
      intro b
      rw [List.foldlM_cons]
      exact (hf b x).bind ih

/-- **A look at the reader makes an action strict.** -/
theorem checked_strict {act : Fill α} (h : Delimited act) (place place' : String) :
    Strict (within place act >>= fun a => checkReader place' >>= fun _ => (pure a : Fill α)) := by
  have hcheck : ∀ (a : α) (t : Input), (checkReader place' >>= fun _ => (pure a : Fill α)) t =
      match t.reader.error? with
      | none => (.ok a, t)
      | some e => (.error (.at_ place' (.read e)), t) := by
    intro a t
    rw [Action.run_bind, checkReader, Action.run_bind_ok (Action.run_get t)]
    cases t.reader.error? <;> rfl
  -- If the whole succeeds, the action did and left a clean reader.
  have hok : ∀ {s u : Input} {a : α}, (within place act >>= fun a => checkReader place' >>=
      fun _ => (pure a : Fill α)) s = (.ok a, u) → act s = (.ok a, u) ∧ u.reader.error? = none := by
    intro s u a hrun
    obtain ⟨a', t, hact, hrest⟩ := Action.bind_eq_ok.mp hrun
    rw [hcheck] at hrest
    cases herr : t.reader.error? with
    | none =>
        rw [herr] at hrest
        cases hrest
        exact ⟨Action.within_eq_ok.mp hact, herr⟩
    | some e =>
        rw [herr] at hrest
        cases hrest
  refine ⟨fun st off bs a t hrun hclean => ?_, fun _ hrun => (hok hrun).2⟩
  obtain ⟨hact, -⟩ := hok hrun
  obtain ⟨front, hsplit, hreplay, hshort⟩ := h _ _ _ _ _ hact hclean
  refine ⟨front, hsplit, fun s => ?_, fun n hn => ?_⟩
  · rw [Action.run_bind_ok (Action.within_eq_ok.mpr (hreplay s)), hcheck]
  · obtain ⟨e, hisShort, herr, hcause⟩ := hshort n hn
    refine ⟨e, hisShort, ?_⟩
    rcases hfirst : act _ with ⟨f | a', t'⟩
    · rw [hfirst] at herr hcause
      rw [Action.run_bind_error (Action.within_eq_error hfirst)]
      refine ⟨herr, fun g hg => ?_⟩
      cases hg
      rw [Failure.cause_within]
      exact hcause f rfl
    · rw [hfirst] at herr
      rw [Action.run_bind_ok (Action.within_eq_ok.mpr hfirst), hcheck, herr]
      exact ⟨herr, fun g hg => by cases hg; rfl⟩

end Combine

/-! ## Numbers -/

section Numbers

variable {α β : Type} {s : Input}

theorem Passes.bind {act : Fill α} {next : α → Fill β} (h : Passes act s)
    (hnext : ∀ a t, act s = (.ok a, t) → Passes (next a) t) : Passes (act >>= next) s := by
  intro e herr
  obtain ⟨a, t, hrun, hmid⟩ := h e herr
  rw [Action.run_bind_ok hrun]
  exact hnext a t hrun e hmid

theorem passes_pure (a : α) (s : Input) : Passes (pure a) s := fun _ herr => ⟨a, s, rfl, herr⟩

theorem passes_keep (y : Id) (field : String) (v : Value) (s : Input) :
    Passes (keep y field v) s := fun _ herr => ⟨(), _, rfl, herr⟩

theorem passes_readScalar (k : Kind) (s : Input) : Passes (readScalar k) s := by
  intro e herr
  refine ⟨.zero k, s, ?_, herr⟩
  simp only [readScalar, Reader.scalar, Reader.take, herr]

theorem passes_readScalars (k : Kind) (n : Nat) : ∀ s, Passes (readScalars k n) s := by
  induction n with
  | zero => exact passes_pure []
  | succ n ih =>
      intro s
      exact (passes_readScalar k s).bind fun v t _ => (ih t).bind fun vs u _ => passes_pure _ u

/-- A number is read from its bytes. -/
theorem readScalar_run (k : Kind) {front : List UInt8} (hlen : front.length = k.bytes) (st : Store)
    (off : Nat) (s : List UInt8) : readScalar k ⟨st, off, front ++ s, none⟩ =
      (.ok (Wire.scalarOfBytes k front), ⟨st, off + front.length, s, none⟩) := by
  have hsplit : Reader.splitAt? k.bytes (front ++ s) = some (front, s) :=
    splitAt?_eq_some.mpr ⟨rfl, hlen⟩
  simp only [readScalar, Reader.scalar, Reader.take, hsplit, hlen]

/-- Too few bytes for a number. -/
theorem readScalar_short (k : Kind) {bs : List UInt8} (hlen : bs.length < k.bytes) (st : Store)
    (off : Nat) : readScalar k ⟨st, off, bs, none⟩ =
      (.ok (.zero k), ⟨st, off, bs, some (.short k.bytes off bs.length)⟩) := by
  have hsplit : Reader.splitAt? k.bytes bs = none := by
    rw [Option.eq_none_iff_forall_ne_some]
    rintro ⟨front, rest⟩ h
    obtain ⟨rfl, hfront⟩ := splitAt?_eq_some.mp h
    rw [List.length_append] at hlen
    omega
  simp only [readScalar, Reader.scalar, Reader.take, hsplit]
  rfl

theorem readScalar_delimited (k : Kind) : Delimited (readScalar k) := by
  intro st off bs v t hrun hclean
  by_cases hlen : bs.length < k.bytes
  · rw [readScalar_short k hlen] at hrun
    cases hrun
    cases hclean
  · have hfront : (bs.take k.bytes).length = k.bytes := by
      rw [List.length_take]
      omega
    have hbs := List.take_append_drop k.bytes bs
    have hall := readScalar_run k hfront st off (bs.drop k.bytes)
    rw [hbs, hrun] at hall
    obtain ⟨hv, rfl⟩ := Prod.mk.inj hall
    refine ⟨bs.take k.bytes, hbs.symm, fun s => ?_, fun n hn => ?_⟩
    · rw [readScalar_run k hfront, hv]
    · rw [readScalar_short k (by rw [List.length_take]; omega)]
      exact ⟨_, rfl, rfl, fun f hf => by cases hf⟩

theorem readScalars_delimited (k : Kind) (n : Nat) : Delimited (readScalars k n) := by
  induction n with
  | zero => exact (strict_pure []).delimited
  | succ n ih =>
      apply (readScalar_delimited k).bind
      · intro v
        apply ih.bind fun vs => (strict_pure _).delimited
        exact fun _ _ t _ _ => passes_pure _ t
      · exact fun _ v t _ _ => (passes_readScalars k n t).bind fun vs u _ => passes_pure _ u

/-- A look at the reader before other things. -/
theorem delimited_readFailed {next : Bool → Fill α} (h : Delimited (next false)) :
    Delimited (readFailed >>= next) := by
  intro st off bs a t hrun hclean
  rw [Action.run_bind_ok (readFailed_run _)] at hrun
  obtain ⟨front, hsplit, hreplay, hshort⟩ := h _ _ _ _ _ hrun hclean
  refine ⟨front, hsplit, fun s => ?_, fun n hn => ?_⟩
  · rw [Action.run_bind_ok (readFailed_run _)]
    exact hreplay s
  · rw [Action.run_bind_ok (readFailed_run _)]
    exact hshort n hn

/-- After a failure what is done is what is done then. -/
theorem passes_readFailed {next : Bool → Fill α} (h : Passes (next true) s) :
    Passes (readFailed >>= next) s := by
  intro e herr
  rw [Action.run_bind_ok (readFailed_run _), herr]
  exact h e herr

theorem readElements_delimited (k : Kind) (n : Nat) : Delimited (readElements k n) := by
  induction n with
  | zero => exact (strict_pure []).delimited
  | succ n ih =>
      apply (readScalar_delimited k).bind
      · intro v
        apply delimited_readFailed
        apply ih.bind fun vs => (strict_pure _).delimited
        exact fun _ _ t _ _ => passes_pure _ t
      · exact fun _ v t _ _ => passes_readFailed (passes_pure _ t)

/-- Elements that were read without failure could be scanned. -/
theorem scanned_of_readElements {t : Primitive} {n : Nat} {s u : Input} {items : List Item}
    (hrun : readElements t.kind n s = (.ok items, u)) (hs : s.reader.error? = none)
    (hclean : u.reader.error? = none) :
    ∃ parts, scanMany (scanNumber t.kind) n s.reader.rest = some (parts, u.reader.rest) := by
  obtain ⟨a, r, heq, -, -, hok⟩ := readElements_takes (fun _ _ => False) t n s
  rw [hrun] at heq
  cases heq
  obtain ⟨hnone, hsome⟩ := hok hs
  cases hscan : scanMany (scanNumber t.kind) n s.reader.rest with
  | none => exact absurd hclean (hnone hscan)
  | some b =>
      obtain ⟨parts, rest⟩ := b
      obtain ⟨hadv, -⟩ := hsome parts rest hscan
      exact ⟨parts, by rw [hadv.rest]⟩

end Numbers

/-! ## Lists and steps -/

section Steps

variable {rt : Runtime} {fill : Id → Fill Unit}

theorem fillItems_strict (hfill : ∀ id, Strict (fill id)) (items : List Item) :
    Strict (fillItems fill items) := by
  induction items with
  | nil => exact strict_pure ()
  | cons i items ih =>
      cases i with
      | message id => exact (hfill id).bind fun _ => ih
      | scalar n => exact (strict_throw _).bind fun _ => ih

theorem readMessages_strict (hfill : ∀ id, Strict (fill id)) (type : String) (n : Nat) :
    Strict (readMessages rt fill type n) := by
  induction n with
  | zero => exact strict_pure []
  | succ n ih =>
      exact (strict_build _).bind fun id => (hfill id).bind fun _ => ih.bind fun _ => strict_pure _

/-- A list of numbers is refused as a whole where it does not fit into what is left. -/
theorem readList_numbers (y : Id) (field : String) (t : Primitive) (n : UInt64) :
    Delimited (readList rt fill y field (.primitive t) n) := by
  intro st off bs u v hrun hclean
  have hitems : Delimited (readItems rt fill n.toNat (.primitive t) >>= fun items =>
      keep y field (.list items)) :=
    (readElements_delimited t.kind n.toNat).bind (fun _ => (strict_keep _ _ _).delimited)
      fun _ _ t _ _ => passes_keep _ _ _ t
  have hcount := fun rest => @readList_run rt fill ⟨st, off, rest, none⟩ y (fun _ _ => none)
    (.primitive t) field n rfl
  rcases hcount bs with ⟨hmax, hlist⟩ | ⟨r, err, herr, -, hlist, -⟩
  · rw [hlist] at hrun
    obtain ⟨front, rfl, hreplay, hshort⟩ := hitems _ _ _ _ _ hrun hclean
    refine ⟨front, rfl, fun s => ?_, fun m hm => ?_⟩
    · rcases hcount (front ++ s) with ⟨-, hlist'⟩ | ⟨r, err, -, -, -, hnone⟩
      · rw [hlist', hreplay s]
      · -- The count cannot be refused: the elements can be read.
        obtain ⟨items, t', hread, hkeep⟩ := Action.bind_eq_ok.mp (hreplay s)
        have hreader : t'.reader = ⟨off + front.length, s, none⟩ :=
          congrArg Input.reader (Prod.mk.inj hkeep).2
        obtain ⟨parts, hscan⟩ := scanned_of_readElements hread rfl (by rw [hreader])
        have hscan' := hnone hmax
        rw [show scanMany (scanNumber t.kind) n.toNat (front ++ s) = none from hscan'] at hscan
        cases hscan
    · rcases hcount (front.take m) with ⟨-, hlist'⟩ | ⟨r, err, herr, hisShort, hlist', -⟩
      · rw [hlist']
        exact hshort m hm
      · rw [hlist']
        exact ⟨err, hisShort, herr, fun f hf => by cases hf⟩
  · rw [hrun] at hlist
    cases hlist
    rw [hclean] at herr
    cases herr

/-- The length of a list of messages is accepted or not, whatever is left. -/
theorem readCount_delimited (n : UInt64) : Delimited (readCount n 0) := by
  intro st off bs k t hrun hclean
  have hsame := readCount_accepted hrun hclean
  subst hsame
  refine ⟨[], rfl, fun s => ?_, fun m hm => absurd hm (Nat.not_lt_zero m)⟩
  have hrun' : ∀ rest, readCount n 0 ⟨st, off, rest, none⟩ =
      if maxListLength < n.toNat then
        (.ok 0, ⟨st, off, rest, some (.shortList n.toNat 0 off rest.length)⟩)
      else (.ok n.toNat, ⟨st, off, rest, none⟩) := by
    intro rest
    by_cases hmax : maxListLength < n.toNat
    · simp [readCount, Reader.count, hmax, Reader.remaining]
    · simp [readCount, Reader.count, hmax]
  rw [hrun'] at hrun ⊢
  by_cases hmax : maxListLength < n.toNat
  · rw [if_pos hmax] at hrun
    cases hrun
  · rw [if_neg hmax] at hrun ⊢
    cases hrun
    rfl

theorem readList_messages (hfill : ∀ id, Strict (fill id)) (y : Id) (field type : String)
    (n : UInt64) : Delimited (readList rt fill y field (.message type) n) := by
  rw [readList_eq]
  apply (readCount_delimited n).bind
  · intro k
    apply delimited_readFailed
    exact ((readMessages_strict hfill type k).bind fun _ => strict_keep _ _ _).delimited
  · exact fun _ _ t _ _ => passes_readFailed (passes_pure _ t)

/-- A count falls short like any number: that it is a word does not depend on its value. -/
theorem count_delimited (y : Id) (counts : Counts) (f list : String) (t : Primitive)
    (discard : Bool) : Delimited (decodeStep rt fill y counts (.count f list t discard)) := by
  have hkind : ∀ s v u, readScalar t.kind s = (.ok v, u) → v.kind = t.kind := by
    intro s v u hrun
    obtain ⟨v', r, heq, hkind, -⟩ := readScalar_takes t.kind s
    rw [hrun] at heq
    cases heq
    exact hkind
  have hword : ∀ v : Scalar, v.kind = t.kind → t.kind.isInteger = true →
      (Datum.scalar v).toWord = .ok v.toWord := by
    intro v hv hint
    rw [Datum.toWord, if_pos (hv ▸ hint)]
  cases discard with
  | true =>
      exact (readScalar_delimited t.kind).bind (fun _ => (strict_pure counts).delimited)
        fun _ _ u _ _ => passes_pure counts u
  | false =>
      cases hint : t.kind.isInteger with
      | true =>
          apply (readScalar_delimited t.kind).bind
          · intro v
            simp only [Bool.false_eq_true, if_false]
            cases (Datum.scalar v).toWord with
            | ok n => exact (strict_pure _).delimited
            | error m => exact (strict_throw _).delimited
          · intro s v u _ hrun
            simp only [Bool.false_eq_true, if_false, hword v (hkind s v u hrun) hint]
            exact passes_pure _ u
      | false =>
          -- Such a count is never read with success.
          intro st off bs a u hrun
          obtain ⟨v, t', hread, hrest⟩ := Action.bind_eq_ok.mp hrun
          have hnot : (Datum.scalar v).toWord = .error (Datum.notInteger (.scalar v)) := by
            rw [Datum.toWord, if_neg]
            rw [hkind _ _ _ hread, hint]
            exact Bool.false_ne_true
          simp only [Bool.false_eq_true, if_false, hnot] at hrest
          cases hrest

/-- **Every step is delimited.** -/
theorem decodeStep_delimited (hfill : ∀ id, Strict (fill id)) (y : Id) (counts : Counts)
    (step : DecodeStep) : Delimited (decodeStep rt fill y counts step) := by
  cases step with
  | parent name =>
      refine ((strict_cellOf y).bind fun c => ?_).delimited
      cases c.parent? with
      | none => exact (strict_throw _).bind fun _ => strict_pure counts
      | some q => exact (hfill q).bind fun _ => strict_pure counts
  | primitive f t =>
      apply (readScalar_delimited t.kind).bind
      · exact fun v => ((strict_keep _ _ _).bind fun _ => strict_pure counts).delimited
      · exact fun _ v u _ _ => (passes_keep _ _ _ u).bind fun _ w _ => passes_pure counts w
  | count f list t discard => exact count_delimited y counts f list t discard
  | reference f type =>
      exact ((strict_cellOf y).bind fun c => (strict_lift _).bind fun q =>
        (hfill q).bind fun _ => strict_pure counts).delimited
  | fixedList f n e =>
      cases e with
      | primitive t =>
          apply (readScalars_delimited t.kind n.toNat).bind
          · exact fun v => ((strict_keep _ _ _).bind fun _ => strict_pure counts).delimited
          · exact fun _ v u _ _ => (passes_keep _ _ _ u).bind fun _ w _ => passes_pure counts w
      | message type =>
          exact ((strict_cellOf y).bind fun c => (fillItems_strict hfill _).bind fun _ =>
            strict_pure counts).delimited
  | variableList f e count =>
      simp only [decodeStep]
      cases counts.lookup count with
      | none => exact ((strict_throw _).bind fun _ => strict_pure counts).delimited
      | some n =>
          apply Delimited.bind ?_ (fun _ => (strict_pure counts).delimited)
          · exact fun _ _ u _ _ => passes_pure counts u
          · cases e with
            | primitive t => exact readList_numbers y f t n
            | message type => exact readList_messages hfill y f type n

theorem decodeWith_strict (hfill : ∀ id, Strict (fill id)) (y : Id) :
    Strict (decodeWith rt fill y) := by
  have hplan : Strict ((do rt.planOf (← get).store y) : Fill Plan) :=
    strict_of_store (do rt.planOf (← get) y) fun s => by
      rw [Action.run_bind_ok (Action.run_get s), Action.run_bind_ok (Action.run_get s.store),
        Action.run_lift, Action.run_lift]
  have hsteps : ∀ p : Plan, Strict (p.decode.foldlM (runStep rt fill p y) []) := fun p =>
    strict_foldlM (fun counts step =>
      checked_strict (decodeStep_delimited hfill y counts step) _ _) _ _
  have heq : decodeWith rt fill y = ((do rt.planOf (← get).store y) : Fill Plan) >>= fun p =>
      p.decode.foldlM (runStep rt fill p y) [] >>= fun _ => pure () := by
    rw [bind_assoc]
    rfl
  rw [heq]
  exact hplan.bind fun p => (hsteps p).bind fun _ => strict_pure ()

/-- **The decoder is strict at every depth.** -/
theorem decodeDepth_strict (n : Nat) : ∀ y, Strict (decodeDepth rt n y) := by
  induction n with
  | zero => exact fun y => strict_throw _
  | succ n ih => exact fun y => decodeWith_strict ih y

end Steps

/-! ## The decoder -/

/-- A larger depth than the one that decoding starts with does the same. -/
theorem decode_eq_of_startDepth_le {rt : Runtime} {U : Id → Prop} (hrt : rt.Sound) {s : Input}
    {y : Id} (hs : Ready rt U s) (hy : U y) {n : Nat} (hn : startDepth rt s ≤ n) :
    decode rt y s = decodeDepth rt n y s := by
  obtain ⟨rank, hrank⟩ := hrt.ranked
  exact decode_eq_decodeDepth hrt hrank hs hy
    (lt_of_lt_of_le (effort_lt_startDepth hrank hs hy) hn)

/-- A strict action on a buffer: what it took, followed by anything, and a part of it. -/
theorem Strict.taken {α : Type} {act : Fill α} (h : Strict act) {st st' : Store}
    {bytes : List UInt8} {a : α} {r : Reader}
    (hrun : act ⟨st, .ofBytes bytes⟩ = (.ok a, ⟨st', r⟩)) :
    r.offset ≤ bytes.length ∧
      (∀ s, act ⟨st, .ofBytes (bytes.take r.offset ++ s)⟩ = (.ok a, ⟨st', r.offset, s, none⟩)) ∧
      ∀ n < r.offset, ∃ f t e, act ⟨st, .ofBytes (bytes.take n)⟩ = (.error f, t) ∧
        f.cause = .read e ∧ e.isShort = true := by
  obtain ⟨front, hsplit, hreplay, hshort⟩ := h.delimited _ _ _ _ _ hrun (h.clean rfl hrun)
  have hbytes : bytes = front ++ r.rest := hsplit
  have hoffset : r.offset = front.length := by
    have hsame := hreplay r.rest
    rw [← hbytes, show act ⟨st, 0, bytes, none⟩ = _ from hrun] at hsame
    simpa using congrArg (fun res => res.2.reader.offset) hsame
  have hfront : ∀ n ≤ front.length, bytes.take n = front.take n := by
    intro n hn
    rw [hbytes, List.take_append_of_le_length hn]
  refine ⟨?_, fun s => ?_, fun n hn => ?_⟩
  · rw [hbytes, hoffset, List.length_append]
    omega
  · have hsame := hreplay s
    rw [Nat.zero_add] at hsame
    rw [hoffset, hfront _ le_rfl, List.take_length]
    exact hsame
  · rw [hfront n (by omega)]
    obtain ⟨e, hisShort, herr, hcause⟩ := hshort n (by omega)
    rcases hpart : act ⟨st, .ofBytes (front.take n)⟩ with ⟨f | b, t⟩
    · rw [show act ⟨st, 0, front.take n, none⟩ = _ from hpart] at hcause
      exact ⟨f, t, e, rfl, hcause f rfl, hisShort⟩
    · rw [show act ⟨st, 0, front.take n, none⟩ = _ from hpart, h.clean rfl hpart] at herr
      cases herr

/-- **What follows a message does not matter, and its end is not missed.**  If bytes are decoded
into a new message, then the bytes that were taken are decoded into it with the same result,
whatever follows them, and on every proper part of them decoding fails because they end too
early. -/
theorem decode_delimited {catalog : Catalog} {limit : Int} {raw : Model} {sized : Bool}
    {S : PlanSet} (hresolve : (Resolve.run catalog limit raw).succeeded = true)
    (hderive : PlanSet.derive sized (Resolve.run catalog limit raw).model = .ok S) {type : String}
    {st₀ st₁ st₂ : Store} {y : Id} (hnew : new (.ofSet S) type st₀ = (.ok y, st₁))
    {bytes : List UInt8} {r : Reader}
    (hdecode : decode (.ofSet S) y ⟨st₁, .ofBytes bytes⟩ = (.ok (), ⟨st₂, r⟩)) :
    r.offset ≤ bytes.length ∧
      (∀ s, decode (.ofSet S) y ⟨st₁, .ofBytes (bytes.take r.offset ++ s)⟩ =
        (.ok (), ⟨st₂, r.offset, s, none⟩)) ∧
      ∀ n < r.offset, ∃ f t e, decode (.ofSet S) y ⟨st₁, .ofBytes (bytes.take n)⟩ = (.error f, t) ∧
        f.cause = .read e ∧ e.isShort = true := by
  have hrt := Runtime.ofSet_sound (Resolve.run_bound hresolve) hderive
  obtain ⟨-, -, hy, -⟩ := new_region hrt hnew
  -- The depths on two inputs are different, but one that suffices for both will do.
  have hdepth : ∀ bs, ∃ n,
      decode (.ofSet S) y ⟨st₁, .ofBytes bs⟩ = decodeDepth (.ofSet S) n y ⟨st₁, .ofBytes bs⟩ ∧
      decodeDepth (.ofSet S) n y ⟨st₁, .ofBytes bytes⟩ = (.ok (), ⟨st₂, r⟩) := by
    intro bs
    refine ⟨startDepth (.ofSet S) ⟨st₁, .ofBytes bs⟩ + startDepth (.ofSet S) ⟨st₁, .ofBytes bytes⟩,
      decode_eq_of_startDepth_le hrt (new_ready hrt hnew bs) hy (Nat.le_add_right _ _), ?_⟩
    rw [← hdecode]
    exact (decode_eq_of_startDepth_le hrt (new_ready hrt hnew bytes) hy (Nat.le_add_left _ _)).symm
  refine ⟨?_, fun s => ?_, fun n hn => ?_⟩
  · obtain ⟨k, -, hrun⟩ := hdepth bytes
    exact ((decodeDepth_strict k y).taken hrun).1
  · obtain ⟨k, hsame, hrun⟩ := hdepth (bytes.take r.offset ++ s)
    rw [hsame]
    exact ((decodeDepth_strict k y).taken hrun).2.1 s
  · obtain ⟨k, hsame, hrun⟩ := hdepth (bytes.take n)
    rw [hsame]
    exact ((decodeDepth_strict k y).taken hrun).2.2 n hn

/-- A node followed by anything is the same node, and all but its last byte is not a node. -/
theorem decode_delimited_node :
    (∀ s, decode Sample.runtime 1 ⟨Sample.start, .ofBytes (Sample.bytes ++ s)⟩ =
        (.ok (), ⟨Sample.store, 6, s, none⟩)) ∧
      ∃ f t e, decode Sample.runtime 1 ⟨Sample.start, .ofBytes (Sample.bytes.take 5)⟩ =
        (.error f, t) ∧ f.cause = .read e ∧ e.isShort = true := by
  obtain ⟨-, hsame, hshort⟩ :=
    decode_delimited Sample.resolves Sample.derives Sample.makes Sample.decodes
  exact ⟨hsame, hshort 5 (by decide)⟩

end WireSchema.Message
