import Mathlib
import WireSchema.Message.Decode
import WireSchema.Proofs.Message.Action
import WireSchema.Proofs.Message.Reads

/-!
# Reading into a store

Decoding is followed through three questions at once: what it keeps of the store, whether it
succeeds, and what it leaves in the message.  The last two are answered by the scanner: an action
succeeds exactly if the scanner reads something, and then this was read.

A reader that fails does not stop an action at once; a failed reader is noticed after the step.
`Fills` therefore counts a failed reader as a failure, and `Settles` says that no failed reader is
left behind.

## Main results

* `Settles.bind` — one action after another.
* `readScalars_takes`, `readElements_takes` — lists of numbers.
* `fillItems_settles`, `readMessages_settles` — lists of messages, in place and new.
-/

namespace WireSchema.Message

open Plan (Field DecodeStep)
open Wire (Reader maxListLength)

/-! ## Readers -/

/-- A reader moved on and has the bytes `left` before it. -/
structure Advanced (r r' : Reader) (left : List UInt8) : Prop where
  rest : r'.rest = left
  clean : r'.error? = none
  offset : r'.offset + left.length = r.offset + r.rest.length

theorem Advanced.refl {r : Reader} (h : r.error? = none) : Advanced r r r.rest :=
  ⟨rfl, h, rfl⟩

theorem Advanced.trans {r r' r'' : Reader} {bs rest : List UInt8} (h : Advanced r r' bs)
    (h' : Advanced r' r'' rest) : Advanced r r'' rest := by
  refine ⟨h'.rest, h'.clean, ?_⟩
  have hfirst := h.offset
  have hsecond := h'.offset
  rw [h.rest] at hsecond
  omega

/-! ## Numbers -/

/-- An action that reads numbers: it leaves the store alone and always succeeds, but the reader may
fail; it does so exactly if nothing can be scanned. -/
def Takes {α β : Type} (s : Input) (res : Except Failure α × Input) (good : α → Prop)
    (scanned : Option (β × List UInt8)) (Q : α → β → Prop) : Prop :=
  ∃ a r, res = (.ok a, ⟨s.store, r⟩) ∧ good a ∧ (s.reader.error? ≠ none → r.error? ≠ none) ∧
    (s.reader.error? = none → (scanned = none → r.error? ≠ none) ∧
      ∀ b rest, scanned = some (b, rest) → Advanced s.reader r rest ∧ Q a b)

theorem readScalar_takes (k : Kind) (s : Input) :
    Takes s (readScalar k s) (fun n => n.kind = k) (scanScalar k s.reader.rest) Eq := by
  obtain ⟨st, off, bs, err⟩ := s
  cases err with
  | some e =>
      refine ⟨.zero k, ⟨off, bs, some e⟩, rfl, rfl, fun h => h, fun h => ?_⟩
      cases h
  | none =>
      cases hsplit : Reader.splitAt? k.bytes bs with
      | none =>
          refine ⟨.zero k, ⟨off, bs, some (.short k.bytes off bs.length)⟩, ?_, rfl,
            fun h => absurd rfl h, fun _ => ⟨fun _ => ?_, ?_⟩⟩
          · simp only [readScalar, Reader.scalar, Reader.take, hsplit]
            rfl
          · exact Option.some_ne_none _
          · intro b rest hscan
            simp [scanScalar, hsplit] at hscan
      | some r =>
          obtain ⟨front, rest⟩ := r
          obtain ⟨rfl, hlen⟩ := splitAt?_eq_some.mp hsplit
          refine ⟨Wire.scalarOfBytes k front, ⟨off + k.bytes, rest, none⟩, ?_, rfl,
            fun h => absurd rfl h, fun _ => ⟨fun hnone => ?_, ?_⟩⟩
          · simp only [readScalar, Reader.scalar, Reader.take, hsplit]
          · simp [scanScalar, hsplit] at hnone
          · intro b rest' hscan
            simp only [scanScalar, hsplit, Option.map_some] at hscan
            cases hscan
            exact ⟨⟨rfl, rfl, by simp only [List.length_append]; omega⟩, rfl⟩

section Numbers

variable {inner : Id → Content → Prop}

/-- A number before other numbers. -/
theorem takes_cons {t : Primitive} {s : Input} {v : Scalar} {r r' : Reader} {items : List Item}
    {n : Nat} (hfail : r.error? ≠ none → r'.error? ≠ none)
    (hfirst : (scanScalar t.kind s.reader.rest = none → r.error? ≠ none) ∧
      ∀ b rest, scanScalar t.kind s.reader.rest = some (b, rest) → Advanced s.reader r rest ∧ v = b)
    (hrest : r.error? = none → (scanMany (scanNumber t.kind) n r.rest = none → r'.error? ≠ none) ∧
      ∀ parts rest, scanMany (scanNumber t.kind) n r.rest = some (parts, rest) →
        Advanced r r' rest ∧ List.Forall₂ (ItemShows inner (.primitive t)) items parts) :
    (scanMany (scanNumber t.kind) (n + 1) s.reader.rest = none → r'.error? ≠ none) ∧
      ∀ parts rest, scanMany (scanNumber t.kind) (n + 1) s.reader.rest = some (parts, rest) →
        Advanced s.reader r' rest ∧
          List.Forall₂ (ItemShows inner (.primitive t)) (.scalar v :: items) parts := by
  cases hscan : scanScalar t.kind s.reader.rest with
  | none =>
      refine ⟨fun _ => hfail (hfirst.1 hscan), fun parts rest h => ?_⟩
      simp [scanMany, scanNumber, hscan] at h
  | some b =>
      obtain ⟨b, rest₁⟩ := b
      obtain ⟨hadv, rfl⟩ := hfirst.2 b rest₁ hscan
      have hkind := (scanScalar_eq_some.mp hscan).2
      obtain ⟨hnone, hsome⟩ := hrest hadv.clean
      rw [hadv.rest] at hnone hsome
      simp only [scanMany, scanNumber, hscan, Option.map_some, Option.bind_some]
      refine ⟨fun h => hnone (by simpa [scanNumber] using h), fun parts rest h => ?_⟩
      rw [Option.map_eq_some_iff] at h
      obtain ⟨⟨parts', rest'⟩, hmany, heq⟩ := h
      cases heq
      obtain ⟨hadv', hitems⟩ := hsome parts' rest' hmany
      exact ⟨hadv.trans hadv', .cons ⟨rfl, hkind⟩ hitems⟩

/-- Items that are numbers of a type. -/
def Numbers (t : Primitive) (items : List Item) : Prop :=
  ∀ i ∈ items, ∃ n, i = .scalar n ∧ n.kind = t.kind

theorem readScalars_takes (inner : Id → Content → Prop) (t : Primitive) (n : Nat) : ∀ s : Input,
    Takes s (readScalars t.kind n s) (fun items => items.length = n ∧ Numbers t items)
      (scanMany (scanNumber t.kind) n s.reader.rest)
      (List.Forall₂ (ItemShows inner (.primitive t))) := by
  induction n with
  | zero =>
      intro s
      refine ⟨[], s.reader, rfl, ⟨rfl, fun i hi => absurd hi List.not_mem_nil⟩, fun h => h,
        fun hclean => ⟨fun h => ?_, fun parts rest h => ?_⟩⟩
      · cases h
      · cases h
        exact ⟨.refl hclean, .nil⟩
  | succ n ih =>
      intro s
      obtain ⟨v, r, hrun, hkind, hfail, hfirst⟩ := readScalar_takes t.kind s
      obtain ⟨items, r', hrun', ⟨hlen, hnumbers⟩, hfail', hrest⟩ := ih ⟨s.store, r⟩
      refine ⟨.scalar v :: items, r', ?_, ⟨by simp [hlen], ?_⟩, fun h => hfail' (hfail h),
        fun hclean => takes_cons hfail' (hfirst hclean) hrest⟩
      · rw [readScalars, Action.run_bind_ok hrun, Action.run_bind_ok hrun', Action.run_pure]
      · exact List.forall_mem_cons.mpr ⟨⟨v, rfl, hkind⟩, hnumbers⟩

theorem readElements_takes (inner : Id → Content → Prop) (t : Primitive) (n : Nat) : ∀ s : Input,
    Takes s (readElements t.kind n s) (Numbers t)
      (scanMany (scanNumber t.kind) n s.reader.rest)
      (List.Forall₂ (ItemShows inner (.primitive t))) := by
  induction n with
  | zero =>
      intro s
      refine ⟨[], s.reader, rfl, fun i hi => absurd hi List.not_mem_nil, fun h => h,
        fun hclean => ⟨fun h => ?_, fun parts rest h => ?_⟩⟩
      · cases h
      · cases h
        exact ⟨.refl hclean, .nil⟩
  | succ n ih =>
      intro s
      obtain ⟨v, r, hrun, hkind, hfail, hfirst⟩ := readScalar_takes t.kind s
      have hfailed : readFailed ⟨s.store, r⟩ = (.ok r.error?.isSome, ⟨s.store, r⟩) := rfl
      rw [readElements, Action.run_bind_ok hrun, Action.run_bind_ok hfailed]
      cases herr : r.error? with
      | none =>
          obtain ⟨items, r', hrun', hnumbers, hfail', hrest⟩ := ih ⟨s.store, r⟩
          refine ⟨.scalar v :: items, r', ?_, ?_, fun h => hfail' (hfail h),
            fun hclean => takes_cons hfail' (hfirst hclean) hrest⟩
          · simp only [Option.isSome_none, Bool.false_eq_true, if_false]
            rw [Action.run_bind_ok hrun', Action.run_pure]
          · exact List.forall_mem_cons.mpr ⟨⟨v, rfl, hkind⟩, hnumbers⟩
      | some e =>
          -- The reader failed on this number, so nothing could be scanned.
          refine ⟨[.scalar v], r, rfl, ?_, fun h => hfail h, fun hclean => ?_⟩
          · exact List.forall_mem_cons.mpr ⟨⟨v, rfl, hkind⟩, fun i hi => absurd hi List.not_mem_nil⟩
          · exact takes_cons (fun h => h) (hfirst hclean) fun h => by rw [herr] at h; cases h

/-- Numbers take their width each. -/
theorem scanMany_number_length {k : Kind} (n : Nat) :
    ∀ {bs rest : List UInt8} {parts : List Content},
      scanMany (scanNumber k) n bs = some (parts, rest) →
          bs.length = n * k.bytes + rest.length := by
  induction n with
  | zero =>
      intro bs rest parts h
      cases h
      simp
  | succ n ih =>
      intro bs rest parts h
      simp only [scanMany, Option.bind_eq_some_iff, Option.map_eq_some_iff] at h
      obtain ⟨⟨ct, bs₁⟩, hfirst, ⟨parts', rest'⟩, hrest, heq⟩ := h
      cases heq
      obtain ⟨v, -, rfl, hkind⟩ := scanNumber_eq_some.mp hfirst
      have hlen : bs₁.length = n * k.bytes + rest'.length := ih hrest
      show _ = _ + rest'.length
      rw [List.length_append, Wire.length_scalarBytes, hkind, hlen, Nat.succ_mul]
      omega

/-- The bytes of a list of numbers are counted without overflow. -/
theorem toNat_mul_width {n : UInt64} {width : Nat} (hn : n.toNat ≤ maxListLength)
    (hwidth : width ≤ 8) : (n * UInt64.ofInt (width : Int)).toNat = n.toNat * width := by
  have hofInt : (UInt64.ofInt (width : Int)).toNat = width := by
    have hsmall : ((width : Int) % 2 ^ 64).toNat = width := by omega
    simp only [UInt64.ofInt, hsmall]
    exact UInt64.toNat_ofNat_of_lt' (lt_of_le_of_lt hwidth (by decide))
  rw [UInt64.toNat_mul, hofInt]
  refine Nat.mod_eq_of_lt ?_
  calc n.toNat * width ≤ maxListLength * 8 := Nat.mul_le_mul hn hwidth
    _ < 2 ^ 64 := by decide

/-- The width of an element that the reader is told: zero if it varies. -/
def listWidth : Element → Int
  | .primitive t => t.wireBytes
  | .message _ => 0

/-- What the reader says of a count before its list: the list's length, or that its elements could
not follow. -/
theorem count_spec (rt : Runtime) (scanner : Nat → Scanner Content) {r : Reader} (n : UInt64)
    (e : Element) (hclean : r.error? = none) :
    (r.count n (listWidth e) = (n.toNat, r) ∧ n.toNat ≤ maxListLength) ∨
      ((∃ err, (r.count n (listWidth e)).2.error? = some err ∧ err.isShort = true) ∧
        (n.toNat ≤ maxListLength →
          scanMany (scanNewElement rt scanner e) n.toNat r.rest = none)) := by
  by_cases hrefused : maxListLength < n.toNat ∨
      (0 < listWidth e ∧ r.remaining < (n * UInt64.ofInt (listWidth e)).toNat)
  · refine .inr ⟨?_, fun hmax => ?_⟩
    · rw [Reader.count, hclean]
      simp only [if_pos hrefused]
      exact ⟨_, rfl, rfl⟩
    · obtain ⟨hpos, hshort⟩ := hrefused.resolve_left (by omega)
      cases e with
      | message type => exact absurd hpos (lt_irrefl 0)
      | primitive t =>
          rw [Option.eq_none_iff_forall_ne_some]
          rintro ⟨parts, rest⟩ hscan
          have hlen := scanMany_number_length n.toNat hscan
          have hproduct := toNat_mul_width hmax (Wire.bytes_le t.kind)
          rw [show (n * UInt64.ofInt (listWidth (.primitive t))).toNat = _ from hproduct,
            Reader.remaining, hlen] at hshort
          omega
  · refine .inl ⟨?_, by omega⟩
    rw [Reader.count, hclean]
    simp only [if_neg hrefused]

end Numbers

/-! ## What an action leaves -/

/-- What an action did that was started in `s`: messages stay in their places and typed; it was
successful exactly if something was scanned, and then `Q` holds. -/
structure Fills {α β : Type} (rt : Runtime) (U : Id → Prop) (s : Input)
    (res : Except Failure α × Input) (scanned : Option (β × List UInt8))
    (Q : α → β → Store → Prop) : Prop where
  grows : Grows s.store res.2.store
  typed : TypedOn rt res.2.store U
  failed : scanned = none → ∀ a, res.1 = .ok a → res.2.reader.error? ≠ none
  done : ∀ b rest, scanned = some (b, rest) →
    ∃ a, res.1 = .ok a ∧ Advanced s.reader res.2.reader rest ∧ Q a b res.2.store

/-- An action that, besides, leaves no failed reader when it succeeds. -/
structure Settles {α β : Type} (rt : Runtime) (U : Id → Prop) (s : Input)
    (res : Except Failure α × Input) (scanned : Option (β × List UInt8))
    (Q : α → β → Store → Prop) : Prop extends Fills rt U s res scanned Q where
  clean : ∀ a, res.1 = .ok a → res.2.reader.error? = none

/-- A state to start from: `U` is a typed region with all numbers that are not taken. -/
structure Ready (rt : Runtime) (U : Id → Prop) (s : Input) : Prop where
  free : ∀ w, s.store.size ≤ w → U w
  typed : TypedOn rt s.store U
  clean : s.reader.error? = none

section Fills

variable {α β γ δ : Type} {rt : Runtime} {U : Id → Prop} {s : Input}

theorem Settles.map {res : Except Failure α × Input} {scanned : Option (β × List UInt8)}
    {Q : α → β → Store → Prop} {Q' : α → γ → Store → Prop} (g : β → γ)
    (h : Settles rt U s res scanned Q) (himp : ∀ a b, Q a b res.2.store → Q' a (g b) res.2.store) :
    Settles rt U s res (scanned.map fun r => (g r.1, r.2)) Q' := by
  refine ⟨⟨h.grows, h.typed, fun hnone => h.failed (Option.map_eq_none_iff.mp hnone), ?_⟩, h.clean⟩
  intro d rest hscan
  rw [Option.map_eq_some_iff] at hscan
  obtain ⟨⟨b, rest'⟩, hscan, heq⟩ := hscan
  cases heq
  obtain ⟨a, ha, hadv, hQ⟩ := h.done b rest' hscan
  exact ⟨a, ha, hadv, himp a b hQ⟩

/-- What was scanned may be used for what is to be shown. -/
theorem Settles.remember {res : Except Failure α × Input} {scanned : Option (β × List UInt8)}
    {Q : α → β → Store → Prop} (h : Settles rt U s res scanned Q) :
    Settles rt U s res scanned fun a b t => Q a b t ∧ ∃ rest, scanned = some (b, rest) := by
  refine ⟨⟨h.grows, h.typed, h.failed, fun b rest hscan => ?_⟩, h.clean⟩
  obtain ⟨a, ha, hadv, hQ⟩ := h.done b rest hscan
  exact ⟨a, ha, hadv, hQ, rest, hscan⟩

/-- An action that succeeded and left a clean reader was scanned. -/
theorem Fills.scanned {res : Except Failure α × Input} {scanned : Option (β × List UInt8)}
    {Q : α → β → Store → Prop} (h : Fills rt U s res scanned Q) {a : α} (ha : res.1 = .ok a)
    (hclean : res.2.reader.error? = none) : ∃ b rest, scanned = some (b, rest) ∧
      Advanced s.reader res.2.reader rest ∧ Q a b res.2.store := by
  cases hscan : scanned with
  | none => exact absurd hclean (h.failed hscan a ha)
  | some r =>
      obtain ⟨b, rest⟩ := r
      obtain ⟨a', ha', hadv, hQ⟩ := h.done b rest hscan
      rw [ha] at ha'
      cases ha'
      exact ⟨b, rest, rfl, hadv, hQ⟩

/-- Where an action left off another one may start. -/
theorem Fills.ready {res : Except Failure α × Input} {scanned : Option (β × List UInt8)}
    {Q : α → β → Store → Prop} (h : Fills rt U s res scanned Q) (hs : Ready rt U s)
    (hclean : res.2.reader.error? = none) : Ready rt U res.2 :=
  ⟨fun w hw => hs.free w (h.grows.size_le.trans hw), h.typed, hclean⟩

/-- One action after another. -/
theorem Settles.bind {act : Fill α} {next : α → Fill γ} {scanned : Option (β × List UInt8)}
    {scannedNext : β × List UInt8 → Option (δ × List UInt8)} {Q : α → β → Store → Prop}
    {Q' : γ → δ → Store → Prop} (hs : Ready rt U s) (h : Settles rt U s (act s) scanned Q)
    (hnext : ∀ a b rest s', act s = (.ok a, s') → Ready rt U s' → Grows s.store s'.store →
      s'.reader.rest = rest → Q a b s'.store →
      Settles rt U s' (next a s') (scannedNext (b, rest)) Q') :
    Settles rt U s ((act >>= next) s) (scanned.bind scannedNext) Q' := by
  rcases hact : act s with ⟨e | a, s'⟩
  · rw [hact] at h
    rw [Action.run_bind_error hact]
    have hnone : scanned = none := by
      rw [Option.eq_none_iff_forall_ne_some]
      rintro ⟨b, rest⟩ hscan
      obtain ⟨a, ha, -⟩ := h.done b rest hscan
      cases ha
    refine ⟨⟨h.grows, h.typed, fun _ a ha => ?_, fun b rest hscan => ?_⟩, fun a ha => ?_⟩
    · cases ha
    · simp [hnone] at hscan
    · cases ha
  · rw [hact] at h
    rw [Action.run_bind_ok hact]
    obtain ⟨b, rest, rfl, hadv, hQ⟩ := h.scanned rfl (h.clean a rfl)
    have hrest := hnext a b rest s' hact (h.ready hs (h.clean a rfl)) h.grows hadv.rest hQ
    refine ⟨⟨h.grows.trans hrest.grows, hrest.typed, hrest.failed, fun d rest' hscan => ?_⟩,
      hrest.clean⟩
    obtain ⟨c, hc, hadv', hQ'⟩ := hrest.done d rest' hscan
    exact ⟨c, hc, hadv.trans hadv', hQ'⟩

theorem Settles.pure (hs : Ready rt U s) {a : α} {b : β} {rest : List UInt8}
    {Q : α → β → Store → Prop} (hrest : s.reader.rest = rest) (h : Q a b s.store) :
    Settles rt U s (.ok a, s) (some (b, rest)) Q := by
  refine ⟨⟨.refl _, hs.typed, fun hnone => (by cases hnone), fun d rest hscan => ?_⟩,
    fun _ _ => hs.clean⟩
  cases hscan
  exact ⟨a, rfl, hrest ▸ .refl hs.clean, h⟩

/-- An action whose result is put into another form. -/
theorem Settles.bind_pure {act : Fill α} {scanned : Option (β × List UInt8)}
    {Q : α → β → Store → Prop} {Q' : γ → δ → Store → Prop} (f : α → γ) (g : β → δ)
    (h : Settles rt U s (act s) scanned Q)
    (himp : ∀ a b, Q a b (act s).2.store → Q' (f a) (g b) (act s).2.store) :
    Settles rt U s ((act >>= fun a => (Pure.pure (f a) : Fill γ)) s)
      (scanned.map fun r => (g r.1, r.2)) Q' := by
  rcases hact : act s with ⟨e | a, s'⟩
  · rw [hact] at h
    rw [Action.run_bind_error hact]
    refine ⟨⟨h.grows, h.typed, fun _ a ha => (by cases ha), fun d rest hscan => ?_⟩,
      fun a ha => (by cases ha)⟩
    obtain ⟨⟨b, rest'⟩, hscan', -⟩ := Option.map_eq_some_iff.mp hscan
    obtain ⟨a, ha, -⟩ := h.done b rest' hscan'
    cases ha
  · rw [hact] at h himp
    rw [Action.run_bind_ok hact, Action.run_pure]
    refine ⟨⟨h.grows, h.typed, fun hnone _ _ => h.failed (Option.map_eq_none_iff.mp hnone) a rfl,
      fun d rest hscan => ?_⟩, fun _ _ => h.clean a rfl⟩
    obtain ⟨⟨b, rest'⟩, hscan', heq⟩ := Option.map_eq_some_iff.mp hscan
    cases heq
    obtain ⟨a', ha', hadv, hQ⟩ := h.done b rest' hscan'
    cases ha'
    exact ⟨f a, rfl, hadv, himp a b hQ⟩

/-- Everything below a message of the region is there. -/
theorem Ready.complete (hs : Ready rt U s) {y : Id} {c : Cell} (hy : U y)
    (hc : s.store.cell? y = some c) : Complete s.store y :=
  (hs.typed.wellTyped hy hc).complete

end Fills

/-! ## Messages in lists -/

/-- What `fill` does with a message of the region: it follows the scanner `inner`, and what it
leaves in the message is said by `reads`. -/
def Filling (rt : Runtime) (U : Id → Prop) (fill : Id → Fill Unit) (inner : Nat → Scanner Content)
    (reads : Store → Store → Id → Content → Prop) : Prop :=
  ∀ s y c, Ready rt U s → U y → s.store.cell? y = some c →
    Settles rt U s (fill y s) (inner c.plan s.reader.rest) fun _ ct t =>
      Unshared s.store y → Changed s.store t y ∧ reads s.store t y ct

/-- What was read does not depend on messages elsewhere, neither before nor after. -/
structure Local (reads : Store → Store → Id → Content → Prop) : Prop where
  later : ∀ {s t u : Store} {id : Id} {ct : Content}, SameFrom t u id → reads s t id ct →
    reads s u id ct
  earlier : ∀ {s t u : Store} {id : Id} {ct : Content}, SameFrom s t id → reads t u id ct →
    reads s u id ct

section Lists

variable {rt : Runtime} {U : Id → Prop} {fill : Id → Fill Unit} {inner : Nat → Scanner Content}
  {reads : Store → Store → Id → Content → Prop} {type : String} {j : Nat}

/-- **Messages of a list are read in place, one after the other.** -/
theorem fillItems_settles (hrt : rt.Sound) (hfill : Filling rt U fill inner reads)
    (hlocal : Local reads) (hj : rt.position? type = some j) (items : List Item) :
    ∀ s : Input, Ready rt U s → (∀ i ∈ items, ItemTyped rt s.store (.message type) i) →
      (∀ id ∈ items.flatMap Item.ids, U id) →
      Settles rt U s (fillItems fill items s)
        (scanMany (scanElement rt inner (.message type)) items.length s.reader.rest)
        fun _ parts t => ∀ x < s.store.size, Forest s.store (items.flatMap Item.ids) →
          (∀ id ∈ items.flatMap Item.ids, ¬ Reach s.store id x) →
          t.cell? x = s.store.cell? x ∧
            Replaced s.store t x (items.flatMap Item.ids) (items.flatMap Item.ids) ∧
            List.Forall₂ (ItemShows (reads s.store t) (.message type)) items parts := by
  induction items with
  | nil =>
      intro s hs _ _
      exact Settles.pure hs rfl fun x _ _ _ => ⟨rfl, Replaced.nil s.store x, .nil⟩
  | cons i items ih =>
      intro s hs htyped hregion
      obtain ⟨id, rfl, htype⟩ := (htyped i List.mem_cons_self).exists_message
      obtain ⟨d, hd, rfl⟩ := htype.plan_eq hrt hj
      have hids : (Item.message id :: items).flatMap Item.ids =
          [id] ++ items.flatMap Item.ids := rfl
      rw [hids, List.forall_mem_append, List.forall_mem_singleton] at hregion
      have hrun : fillItems fill (.message id :: items) =
          fill id >>= fun _ => fillItems fill items :=
        rfl
      have hscan : ∀ bs, scanMany (scanElement rt inner (.message type)) (items.length + 1) bs =
          (inner d.plan bs).bind fun r =>
            (scanMany (scanElement rt inner (.message type)) items.length r.2).map fun rs =>
              (r.1 :: rs.1, rs.2) := by
        intro bs
        simp only [scanMany, scanElement, scanType, hj, Option.bind_some]
      rw [hrun, List.length_cons, hscan]
      refine (hfill s id d hs hregion.1 hd).bind hs fun _ ct rest s' _ hs' hgrow hrest hQ => ?_
      have hnext := ih s' hs' (fun i hi => (htyped i (List.mem_cons_of_mem _ hi)).mono hgrow)
        hregion.2
      rw [hrest] at hnext
      refine hnext.map (ct :: ·) fun _ parts hparts x hx hforest hout => ?_
      rw [hids] at hforest hout ⊢
      rw [List.forall_mem_append, List.forall_mem_singleton] at hout
      obtain ⟨hunshared, hapart⟩ := hforest
      rw [List.forall_mem_append, List.forall_mem_singleton] at hunshared
      rw [List.singleton_append, List.pairwise_cons] at hapart
      obtain ⟨hchanged, hread⟩ := hQ hunshared.1
      have hcomplete : ∀ b ∈ items.flatMap Item.ids, Complete s.store b := by
        intro b hb
        obtain ⟨i, hi, hbi⟩ := List.mem_flatMap.mp hb
        obtain ⟨e, he⟩ := (htyped i (List.mem_cons_of_mem _ hi)).cell hbi
        exact hs.complete (hregion.2 b hb) he
      have hsame : ∀ b ∈ items.flatMap Item.ids, SameFrom s.store s'.store b := fun b hb w hw =>
        hchanged.frame w (hcomplete b hb w hw) fun hid => hapart.1 b hb w hid hw
      have hout' : ¬ Reach s'.store id x := fun hreach =>
        (hchanged.below x hreach).elim hout.1 fun hfresh => absurd hx (Nat.not_lt.mpr hfresh)
      obtain ⟨d', hd', -⟩ := hgrow.cell id d hd
      obtain ⟨hcell, hreplaced, hreads⟩ := hparts x (lt_of_lt_of_le hx hgrow.size_le)
        (Forest.sameFrom ⟨hunshared.2, hapart.2⟩ hsame)
        fun b hb hreach => hout.2 b hb ((hsame b hb).reach_iff.mp hreach)
      obtain ⟨hboth, hafter, -⟩ := hchanged.replaced.append hreplaced
        (by simpa using fun b hb w => hapart.1 b hb w)
        (fun b hb => ⟨hcomplete b hb, hout.2 b hb⟩)
        (by simpa using ⟨hs'.complete hregion.1 hd', hout'⟩)
      refine ⟨hcell.trans (hchanged.frame x hx hout.1), hboth,
        .cons (hlocal.later (hafter id (List.mem_singleton_self id)) hread) ?_⟩
      refine forall₂_itemShows_imp (fun z ct hz => hlocal.earlier (hsame z ?_)) hreads
      exact List.mem_flatMap.mpr ⟨_, hz, List.mem_singleton_self z⟩

/-- A new message of a type, while something is read. -/
theorem build_new_settles (hrt : rt.Sound) (hj : rt.position? type = some j) {s : Input}
    (hs : Ready rt U s) : Settles rt U s (build (new rt type) s)
      (if makeable rt (rt.plans.size + 1) j then some ((), s.reader.rest) else none) fun y _ t =>
        new rt type s.store = (.ok y, t) ∧ Extends s.store t ∧ Made s.store t [y] ∧
          ∃ c, t.cell? y = some c ∧ c.plan = j := by
  have hmakes := new_makes hrt hj s.store
  have htyped := hmakes.extends_.typedOn hs.typed hmakes.typed hs.free
  have hrun : build (new rt type) s =
      ((new rt type s.store).1, { s with store := (new rt type s.store).2 }) := rfl
  rw [hrun]
  refine ⟨⟨hmakes.extends_.grows, htyped, fun hnone a ha => ?_, fun b rest hscan => ?_⟩,
    fun _ _ => hs.clean⟩
  · obtain ⟨e, he, -⟩ := hmakes.failed (by simpa using hnone)
    rw [he] at ha
    cases ha
  · by_cases hok : makeable rt (rt.plans.size + 1) j = true
    · rw [if_pos hok] at hscan
      cases hscan
      obtain ⟨y, hy, hmade, hcell⟩ := hmakes.done hok
      exact ⟨y, hy, .refl hs.clean, Prod.ext hy rfl, hmakes.extends_, hmade, hcell⟩
    · rw [if_neg hok] at hscan
      cases hscan

/-- **New messages are made and read, one after the other.** -/
theorem readMessages_settles (hrt : rt.Sound) (hfill : Filling rt U fill inner reads)
    (hlocal : Local reads) (hj : rt.position? type = some j) (n : Nat) :
    ∀ s : Input, Ready rt U s → Settles rt U s (readMessages rt fill type n s)
      (scanMany (scanNewElement rt inner (.message type)) n s.reader.rest)
      fun items parts t => Extends s.store t ∧
        (∀ i ∈ items, ItemTyped rt t (.message type) i) ∧
        (∀ id ∈ items.flatMap Item.ids, s.store.size ≤ id) ∧
        ∀ x < s.store.size, Replaced s.store t x [] (items.flatMap Item.ids) ∧
          List.Forall₂ (ItemShows (MadeAnd rt fun s₂ => reads s₂ t) (.message type))
              items parts := by
  induction n with
  | zero =>
      intro s hs
      exact Settles.pure hs rfl ⟨.refl _, fun i hi => absurd hi List.not_mem_nil,
        fun id hid => absurd hid List.not_mem_nil, fun x _ => ⟨Replaced.nil s.store x, .nil⟩⟩
  | succ n ih =>
      intro s hs
      have hscan : ∀ bs, scanMany (scanNewElement rt inner (.message type)) (n + 1) bs =
          (if makeable rt (rt.plans.size + 1) j then some ((), bs) else none).bind fun r =>
            (inner j r.2).bind fun r =>
              (scanMany (scanNewElement rt inner (.message type)) n r.2).map fun rs =>
                (r.1 :: rs.1, rs.2) := by
        intro bs
        simp only [scanMany, scanNewElement, scanType, hj, Option.bind_some]
        split <;> rfl
      rw [hscan]
      refine (build_new_settles hrt hj hs).bind hs fun id _ rest₁ s₁ _ hs₁ _ hrest₁ hmake => ?_
      obtain ⟨hnew, hext, hmade, d, hd, rfl⟩ := hmake
      have hid : s.store.size ≤ id :=
        (hmade.below id (List.mem_singleton_self id) id (Reach.refl _ id)).1
      have hfirst := hfill s₁ id d hs₁ (hs.free id hid) hd
      rw [hrest₁] at hfirst
      refine hfirst.bind hs₁ fun _ ct rest₂ s₂ _ hs₂ hgrow₂ hrest₂ hQ => ?_
      have hnext := ih s₂ hs₂
      rw [hrest₂] at hnext
      refine hnext.bind_pure (.message id :: ·) (ct :: ·) ?_
      rintro items parts ⟨hext', htyped, hfresh, hrest⟩
      set t := (readMessages rt fill type n s₂).2.store
      obtain ⟨p, hp, hname⟩ := hrt.position hj
      have htype : OfType rt s₁.store id type := ⟨p, planOf?_eq.mpr ⟨d, hd, hp⟩, hname⟩
      have hsize := hext.size_le.trans hgrow₂.size_le
      obtain ⟨hchanged, hread⟩ := hQ (hmade.forest.1 id (List.mem_singleton_self id))
      have hfilled : Extends s.store s₂.store := by
        refine ⟨hsize, fun w hw => ?_⟩
        rw [← hext.cell w hw]
        refine hchanged.frame w (lt_of_lt_of_le hw hext.size_le) fun hreach => ?_
        exact absurd hw (Nat.not_lt.mpr (hmade.below id (List.mem_singleton_self id) w hreach).1)
      refine ⟨hfilled.trans hext', ?_, ?_, fun x hx => ?_⟩
      · exact List.forall_mem_cons.mpr ⟨(htype.mono hgrow₂).mono hnext.grows, htyped⟩
      · exact List.forall_mem_cons.mpr ⟨hid, fun z hz => hsize.trans (hfresh z hz)⟩
      · obtain ⟨d', hd', -⟩ := hgrow₂.cell id d hd
        have hout : ¬ Reach s₂.store id x := by
          intro hreach
          rcases hchanged.below x hreach with hold | hnew
          · have := (hmade.below id (List.mem_singleton_self id) x hold).1
            omega
          · have := hext.size_le
            omega
        obtain ⟨hreplaced, hreads⟩ := hrest x (lt_of_lt_of_le hx hsize)
        have hfirst := (hmade.replaced hext x).trans hchanged.replaced
        obtain ⟨hboth, hafter, -⟩ := hfirst.append hreplaced
          (fun a ha => absurd ha List.not_mem_nil) (fun b hb => absurd hb List.not_mem_nil)
          (by simpa using ⟨hs₂.complete (hs.free id hid) hd', hout⟩)
        refine ⟨hboth, .cons ⟨type, s.store, s₁.store, hnew, ?_⟩ hreads⟩
        exact hlocal.later (hafter id (List.mem_singleton_self id)) hread

end Lists

end WireSchema.Message
