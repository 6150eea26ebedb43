import Mathlib
import WireSchema.Proofs.Message.Decode

/-!
# How decoding descends

While a message is read, reading goes on in other messages: in its parent part, in what it refers
to, in the slots of its fixed lists, and in the new elements of its variable lists.  `Enters` says
at which step, after which other steps, and in which state this happens.  It names every place where
a message is read by the reader of messages that `decodeWith` is given: two such readers that agree
there have the same result.

Each place is one where less is left to do: fewer bytes, since an element is read only after the
count of its list, or as many bytes and a plan further down in the order of containment.

## Main results

* `decodeWith_congr` — reading goes on nowhere else.
* `Enters.below` — less is left wherever reading goes on.
-/

namespace WireSchema.Message

open Plan (Field DecodeStep)
open Wire (Reader maxListLength)

/-! ## Where reading goes on -/

/-- One step of a plan, and a look at the reader. -/
def runStep (rt : Runtime) (fill : Id → Fill Unit) (p : Plan) (y : Id) (counts : Counts)
    (step : DecodeStep) : Fill Counts :=
  within ("decode " ++ p.name) (decodeStep rt fill y counts step) >>= fun counts =>
    checkReader ("decode " ++ p.name ++ "." ++ step.field) >>= fun _ => pure counts

/-- Some steps of a plan. -/
def runSteps (rt : Runtime) (fill : Id → Fill Unit) (p : Plan) (y : Id) (counts : Counts)
    (steps : List DecodeStep) : Fill Counts :=
  steps.foldlM (runStep rt fill p y) counts

/-- At a step on the message `y`, begun in the state `s`, reading goes on in the message `z`. -/
inductive StepEnters (rt : Runtime) (fill : Id → Fill Unit) (y : Id) (counts : Counts) (s : Input) :
    DecodeStep → Id → Input → Prop where
  /-- The parent part of the message. -/
  | parent {name : String} {c : Cell} {z : Id} (cell : s.store.cell? y = some c)
      (part : c.parent? = some z) : StepEnters rt fill y counts s (.parent name) z s
  /-- The message that a field refers to. -/
  | reference {f type : String} {c : Cell} {z : Id} (cell : s.store.cell? y = some c)
      (message : c.message f = .ok z) : StepEnters rt fill y counts s (.reference f type) z s
  /-- A slot of a fixed list, after the slots before it. -/
  | slot {f type : String} {n : Int} {c : Cell} {before after : List Item} {z : Id} {s' : Input}
      (cell : s.store.cell? y = some c) (list : c.list f = before ++ .message z :: after)
      (filled : fillItems fill before s = (.ok (), s')) :
      StepEnters rt fill y counts s (.fixedList f n (.message type)) z s'
  /-- A new element of a variable list, after the `i` elements before it. -/
  | element {f type count : String} {n : UInt64} {k i : Nat} {items : List Item} {s₀ s₁ s' : Input}
      {z : Id} (counted : counts.lookup count = some n) (length : readCount n 0 s = (.ok k, s₀))
      (accepted : s₀.reader.error? = none) (lt : i < k)
      (elements : readMessages rt fill type i s₀ = (.ok items, s₁))
      (made : build (new rt type) s₁ = (.ok z, s')) :
      StepEnters rt fill y counts s (.variableList f (.message type) count) z s'

/-- While the message `y` is read from the state `s` on, reading goes on in the message `z` in the
state `s'`; this happens at a step of the plan of `y`, after the steps `before`. -/
def Enters (rt : Runtime) (fill : Id → Fill Unit) (y : Id) (s : Input) (before : List DecodeStep)
    (step : DecodeStep) (z : Id) (s' : Input) : Prop :=
  ∃ p after counts s₁, rt.planOf? s.store y = some p ∧ p.decode = before ++ step :: after ∧
    runSteps rt fill p y [] before s = (.ok counts, s₁) ∧
    StepEnters rt fill y counts s₁ step z s'

/-! ## Nowhere else -/

/-- Actions that agree up to some point and from there on. -/
theorem Action.run_bind_congr {σ α β : Type} {x x' : Action σ α} {f f' : α → Action σ β} {s : σ}
    (h : x s = x' s) (hnext : ∀ a t, x s = (.ok a, t) → f a t = f' a t) :
    (x >>= f) s = (x' >>= f') s := by
  rw [Action.run_bind, Action.run_bind, ← h]
  rcases hx : x s with ⟨e | a, t⟩
  · rfl
  · exact hnext a t hx

section Congr

variable {rt : Runtime} {fill fill' : Id → Fill Unit}

theorem fillItems_congr (items : List Item) : ∀ s : Input,
    (∀ before z after s', items = before ++ .message z :: after →
      fillItems fill before s = (.ok (), s') → fill z s' = fill' z s') →
    fillItems fill items s = fillItems fill' items s := by
  induction items with
  | nil => exact fun _ _ => rfl
  | cons i items ih =>
      intro s h
      cases i with
      | scalar n => rfl
      | message id =>
          apply Action.run_bind_congr (h [] id items s rfl rfl)
          intro _ t ht
          apply ih
          intro before z after s' hsplit hrun
          apply h (.message id :: before) z after s' (by rw [hsplit]; rfl)
          exact (Action.run_bind_ok ht).trans hrun

theorem readMessages_congr (type : String) (n : Nat) : ∀ s : Input,
    (∀ i < n, ∀ items s₁ z s', readMessages rt fill type i s = (.ok items, s₁) →
      build (new rt type) s₁ = (.ok z, s') → fill z s' = fill' z s') →
    readMessages rt fill type n s = readMessages rt fill' type n s := by
  induction n with
  | zero => exact fun _ _ => rfl
  | succ n ih =>
      intro s h
      apply Action.run_bind_congr rfl
      intro id s₁ hmade
      apply Action.run_bind_congr (h 0 (Nat.succ_pos n) [] s id s₁ rfl hmade)
      intro _ s₂ hfilled
      apply Action.run_bind_congr ?_ fun _ _ _ => rfl
      apply ih
      intro i hi items s₃ z s' hrun
      apply h (i + 1) (Nat.succ_lt_succ hi) (.message id :: items) s₃ z s'
      rw [readMessages, Action.run_bind_ok hmade, Action.run_bind_ok hfilled,
        Action.run_bind_ok hrun, Action.run_pure]

theorem decodeStep_congr {y : Id} {counts : Counts} {s : Input} (step : DecodeStep)
    (h : ∀ z s', StepEnters rt fill y counts s step z s' → fill z s' = fill' z s') :
    decodeStep rt fill y counts step s = decodeStep rt fill' y counts step s := by
  have hcell : ∀ {c : Cell} {t : Input}, cellOf y s = (.ok c, t) →
      t = s ∧ s.store.cell? y = some c := by
    intro c t hrun
    have hlift : cellOf y s = (s.store.cell y, s) := Action.run_lift _ s
    rw [hlift, Store.cell] at hrun
    cases hc : s.store.cell? y with
    | none =>
        rw [hc] at hrun
        cases hrun
    | some d =>
        rw [hc] at hrun
        cases hrun
        exact ⟨rfl, rfl⟩
  cases step with
  | parent name =>
      apply Action.run_bind_congr rfl
      intro c t hrun
      obtain ⟨rfl, hc⟩ := hcell hrun
      cases hq : c.parent? with
      | none => rfl
      | some q => exact Action.run_bind_congr (h q t (.parent hc hq)) fun _ _ _ => rfl
  | primitive f t => rfl
  | count f list t discard => rfl
  | reference f type =>
      apply Action.run_bind_congr rfl
      intro c t hrun
      obtain ⟨rfl, hc⟩ := hcell hrun
      apply Action.run_bind_congr rfl
      intro q t' hlift
      rw [Action.run_lift] at hlift
      obtain ⟨hq, rfl⟩ := Prod.mk.inj hlift
      exact Action.run_bind_congr (h q t (.reference hc hq)) fun _ _ _ => rfl
  | fixedList f n e =>
      cases e with
      | primitive t => rfl
      | message type =>
          apply Action.run_bind_congr rfl
          intro c t hrun
          obtain ⟨rfl, hc⟩ := hcell hrun
          apply Action.run_bind_congr ?_ fun _ _ _ => rfl
          apply fillItems_congr
          exact fun before z after s' hsplit hfilled => h z s' (.slot hc hsplit hfilled)
  | variableList f e count =>
      cases e with
      | primitive t => rfl
      | message type =>
          cases hlookup : counts.lookup count with
          | none => simp only [decodeStep, hlookup]
          | some n =>
              simp only [decodeStep, hlookup, readList_eq]
              apply Action.run_bind_congr ?_ fun _ _ _ => rfl
              apply Action.run_bind_congr rfl
              intro k s₀ hlength
              rw [Action.run_bind_ok (readFailed_run s₀), Action.run_bind_ok (readFailed_run s₀)]
              cases herr : s₀.reader.error? with
              | some e => rfl
              | none =>
                  apply Action.run_bind_congr ?_ fun _ _ _ => rfl
                  apply readMessages_congr
                  intro i hi items s₁ z s' hrun hmade
                  exact h z s' (.element hlookup hlength herr hi hrun hmade)

theorem runSteps_congr {p : Plan} {y : Id} (steps : List DecodeStep) :
    ∀ (counts : Counts) (s : Input),
      (∀ before step after counts' s₁ z s', steps = before ++ step :: after →
        runSteps rt fill p y counts before s = (.ok counts', s₁) →
        StepEnters rt fill y counts' s₁ step z s' → fill z s' = fill' z s') →
      runSteps rt fill p y counts steps s = runSteps rt fill' p y counts steps s := by
  induction steps with
  | nil => exact fun _ _ _ => rfl
  | cons step steps ih =>
      intro counts s h
      have hstep : decodeStep rt fill y counts step s = decodeStep rt fill' y counts step s :=
        decodeStep_congr step fun z s' => h [] step steps counts s z s' rfl rfl
      have hrun : runStep rt fill p y counts step s = runStep rt fill' p y counts step s := by
        apply Action.run_bind_congr ?_ fun _ _ _ => rfl
        unfold within
        rw [hstep]
      rw [runSteps, runSteps, List.foldlM_cons, List.foldlM_cons]
      apply Action.run_bind_congr hrun
      intro counts₁ t ht
      apply ih
      intro before step' after counts' s₁ z s' hsplit hrest
      apply h (step :: before) step' after counts' s₁ z s' (by rw [hsplit]; rfl)
      rw [runSteps, List.foldlM_cons, Action.run_bind_ok ht]
      exact hrest

theorem decodeWith_run {p : Plan} {y : Id} {s : Input} (hp : rt.planOf? s.store y = some p)
    (fill : Id → Fill Unit) : decodeWith rt fill y s =
      (runSteps rt fill p y [] p.decode >>= fun _ => (pure () : Fill Unit)) s := by
  have hplan : (liftM (rt.planOf s.store y) : Fill Plan) s = (.ok p, s) := by
    rw [Action.run_lift, Runtime.planOf, hp]
  rw [decodeWith, Action.run_bind_ok (Action.run_get s), Action.run_bind_ok hplan]
  rfl

/-- **Reading goes on nowhere else**: readers of messages that agree wherever it does have the same
result. -/
theorem decodeWith_congr {y : Id} {s : Input}
    (h : ∀ before step z s', Enters rt fill y s before step z s' → fill z s' = fill' z s') :
    decodeWith rt fill y s = decodeWith rt fill' y s := by
  cases hp : rt.planOf? s.store y with
  | none =>
      have hplan : ∀ g : Id → Fill Unit, decodeWith rt g y s = (.error .missingPart, s) := by
        intro g
        have hrun : (liftM (rt.planOf s.store y) : Fill Plan) s = (.error .missingPart, s) := by
          rw [Action.run_lift, Runtime.planOf, hp]
        rw [decodeWith, Action.run_bind_ok (Action.run_get s), Action.run_bind_error hrun]
      rw [hplan, hplan]
  | some p =>
      rw [decodeWith_run hp, decodeWith_run hp]
      apply Action.run_bind_congr ?_ fun _ _ _ => rfl
      apply runSteps_congr
      intro before step after counts s₁ z s' hsplit hrun henters
      exact h before step z s' ⟨p, after, counts, s₁, hp, hsplit, hrun, henters⟩

end Congr

/-! ## Less is left to do -/

/-- Wherever reading goes on less is left: after the steps `before` and at the step `step` on the
message `y`, which began in the state `s`, it goes on in the message `z` in the state `s'`.  An
element of a variable list is read after the count of the list was taken; everything else follows
the order of containment by value. -/
def Below (rt : Runtime) (y : Id) (s : Input) (before : List DecodeStep) (step : DecodeStep)
    (z : Id) (s' : Input) : Prop :=
  ∃ c p d, s.store.cell? y = some c ∧ rt.plans[c.plan]? = some p ∧ s'.store.cell? z = some d ∧
    match step with
    | .variableList f _ count => ∃ t, .count count f t false ∈ before ∧ 0 < t.kind.bytes ∧
        s'.reader.remaining + t.kind.bytes ≤ s.reader.remaining
    | _ => rt.Contains p d.plan ∧ s'.reader.remaining ≤ s.reader.remaining

/-- How much is left to do, with a rank for every plan. -/
def effort (rt : Runtime) (rank : Nat → Nat) (y : Id) (s : Input) : Nat :=
  s.reader.remaining * (rt.plans.size + 1) + ((s.store.cell? y).map fun c => rank c.plan).getD 0

/-- The effort falls where less is left. -/
theorem Below.effort_lt {rt : Runtime} {rank : Nat → Nat} (hrank : rt.Ranked rank)
    {y z : Id} {s s' : Input} {before : List DecodeStep} {step : DecodeStep}
    (hz : ∀ d, s'.store.cell? z = some d → ∃ q, rt.plans[d.plan]? = some q)
    (h : Below rt y s before step z s') : effort rt rank z s' < effort rt rank y s := by
  obtain ⟨c, p, d, hc, hp, hd, hstep⟩ := h
  obtain ⟨q, hq⟩ := hz d hd
  have hsmall := (hrank _ q hq).1
  obtain ⟨-, hfall⟩ := hrank _ p hp
  have hvalue : rt.Contains p d.plan → s'.reader.remaining ≤ s.reader.remaining →
      effort rt rank z s' < effort rt rank y s := by
    intro hcontains hle
    have hlt := hfall _ hcontains
    have hmul := Nat.mul_le_mul_right (rt.plans.size + 1) hle
    simp only [effort, hc, hd, Option.map_some, Option.getD_some]
    omega
  cases step with
  | variableList f e count =>
      obtain ⟨t, -, hpos, hle⟩ := hstep
      have hmul := Nat.mul_le_mul_right (rt.plans.size + 1)
        (show s'.reader.remaining + 1 ≤ s.reader.remaining by omega)
      rw [Nat.succ_mul] at hmul
      simp only [effort, hc, hd, Option.map_some, Option.getD_some]
      omega
  | parent name => exact hvalue hstep.1 hstep.2
  | primitive f t => exact hvalue hstep.1 hstep.2
  | count f list t discard => exact hvalue hstep.1 hstep.2
  | reference f type => exact hvalue hstep.1 hstep.2
  | fixedList f n e => exact hvalue hstep.1 hstep.2

section Below

variable {rt : Runtime} {U : Id → Prop} {fill : Id → Fill Unit} {inner : Nat → Scanner Content}
  {reads : Store → Store → Id → Content → Prop} {s s' : Input} {y z : Id} {c : Cell} {p : Plan}
  {counts : Counts}

/-- An action that takes exactly what is scanned leaves no more than there was. -/
theorem Advanced.remaining_le {r r' : Reader} {bytes left : List UInt8} (h : Advanced r r' left)
    (hbytes : r.rest = bytes ++ left) : r'.remaining + bytes.length = r.remaining := by
  rw [Reader.remaining, Reader.remaining, h.rest, hbytes, List.length_append, Nat.add_comm]

/-- A step that succeeded left the message in its form and at most as many bytes; a count that it
kept took its bytes. -/
theorem runStep_ready (hrt : rt.Sound) (hfill : Filling rt U fill inner reads)
    (hlocal : Local reads) (hexact : ∀ j, Exact (inner j)) (hs : Ready rt U s) (hy : U y)
    (hc : s.store.cell? y = some c) (hcell : CellTyped rt s.store p c) {step : DecodeStep}
    (hstep : step ∈ p.decode) {counts' : Counts} {s₁ : Input}
    (hrun : runStep rt fill p y counts step s = (.ok counts', s₁)) :
    Ready rt U s₁ ∧ (∃ c₁, s₁.store.cell? y = some c₁ ∧ c₁.plan = c.plan ∧
        CellTyped rt s₁.store p c₁) ∧
      s₁.reader.remaining ≤ s.reader.remaining ∧
      (counts' = counts ∨ ∃ f list t w, step = .count f list t false ∧
        counts' = (f, w) :: counts ∧ s₁.reader.remaining + t.kind.bytes ≤ s.reader.remaining) := by
  have hsettles := checked_settles (decodeStep_fills hrt hfill hlocal hs hy hc hcell hstep counts)
    ("decode " ++ p.name) ("decode " ++ p.name ++ "." ++ step.field)
  have hrun' : (within ("decode " ++ p.name) (decodeStep rt fill y counts step) >>= fun counts =>
      checkReader ("decode " ++ p.name ++ "." ++ step.field) >>= fun _ =>
        (pure counts : Fill Counts)) s = (.ok counts', s₁) := hrun
  rw [hrun'] at hsettles
  have hclean : s₁.reader.error? = none := hsettles.clean counts' rfl
  obtain ⟨⟨ct, counts''⟩, rest, hscan, hadv, rfl, -⟩ := hsettles.scanned rfl hclean
  have hs₁ : Ready rt U s₁ := hsettles.ready hs hclean
  obtain ⟨c₁, hc₁, hplan, -⟩ := hsettles.grows.cell y c hc
  obtain ⟨p₁, hcell₁⟩ := (hs₁.typed y c₁ hy hc₁).1
  obtain rfl : p₁ = p := by
    have hsame := hcell₁.plan
    rw [hplan, hcell.plan] at hsame
    exact (Option.some.inj hsame).symm
  have hleft : s₁.reader.remaining + ct.bytes.length = s.reader.remaining :=
    hadv.remaining_le (scanStep_bytes hexact hscan)
  refine ⟨hs₁, ⟨c₁, hc₁, hplan, hcell₁⟩, by omega, ?_⟩
  rcases scanStep_counts hscan with hsame | ⟨f, list, t, n, rfl, rfl, hnew⟩
  · exact .inl hsame
  · refine .inr ⟨f, list, t, n.toWord, rfl, hnew, ?_⟩
    have hkind := (scanScalar_eq_some.mp (show scanScalar t.kind s.reader.rest = some (n, rest) by
      simp only [scanStep, Option.map_eq_some_iff] at hscan
      obtain ⟨⟨n', rest'⟩, hscan, heq⟩ := hscan
      cases heq
      exact hscan)).2
    rw [Content.bytes_number, Wire.length_scalarBytes, hkind] at hleft
    omega

/-- After some steps the same holds, and every count that was kept was read by one of them. -/
theorem runSteps_ready (hrt : rt.Sound) (hfill : Filling rt U fill inner reads)
    (hlocal : Local reads) (hexact : ∀ j, Exact (inner j)) (hy : U y) (steps : List DecodeStep) :
    ∀ {s : Input} {c : Cell} {counts counts' : Counts} {s₁ : Input}, steps ⊆ p.decode →
      Ready rt U s → s.store.cell? y = some c → CellTyped rt s.store p c →
      runSteps rt fill p y counts steps s = (.ok counts', s₁) →
      Ready rt U s₁ ∧ (∃ c₁, s₁.store.cell? y = some c₁ ∧ c₁.plan = c.plan ∧
          CellTyped rt s₁.store p c₁) ∧
        s₁.reader.remaining ≤ s.reader.remaining ∧
        ∀ f w, counts'.lookup f = some w → counts.lookup f = some w ∨
          ∃ list t, .count f list t false ∈ steps ∧
            s₁.reader.remaining + t.kind.bytes ≤ s.reader.remaining := by
  induction steps with
  | nil =>
      intro s c counts counts' s₁ _ hs hc hcell hrun
      obtain ⟨rfl, rfl⟩ : counts = counts' ∧ s = s₁ := by
        have h := Prod.mk.inj hrun
        exact ⟨Except.ok.inj h.1, h.2⟩
      exact ⟨hs, ⟨c, hc, rfl, hcell⟩, le_rfl, fun f w hw => .inl hw⟩
  | cons step steps ih =>
      intro s c counts counts' s₁ hsub hs hc hcell hrun
      rw [runSteps, List.foldlM_cons] at hrun
      obtain ⟨counts₂, s₂, hfirst, hrest⟩ := Action.bind_eq_ok.mp hrun
      obtain ⟨hs₂, ⟨c₂, hc₂, hplan₂, hcell₂⟩, hle, hcounts⟩ :=
        runStep_ready hrt hfill hlocal hexact hs hy hc hcell (hsub List.mem_cons_self) hfirst
      obtain ⟨hs₁, ⟨c₁, hc₁, hplan₁, hcell₁⟩, hle₁, hlookup⟩ :=
        ih (fun _ h => hsub (List.mem_cons_of_mem _ h)) hs₂ hc₂ hcell₂ hrest
      refine ⟨hs₁, ⟨c₁, hc₁, hplan₁.trans hplan₂, hcell₁⟩, hle₁.trans hle, fun f w hw => ?_⟩
      rcases hlookup f w hw with hkept | ⟨list, t, hmem, hbytes⟩
      · rcases hcounts with rfl | ⟨f', list, t, w', rfl, rfl, hbytes⟩
        · exact .inl hkept
        · rw [List.lookup_cons] at hkept
          by_cases hf : f = f'
          · subst hf
            exact .inr ⟨list, t, List.mem_cons_self, by omega⟩
          · rw [beq_eq_false_iff_ne.mpr hf] at hkept
            exact .inl hkept
      · exact .inr ⟨list, t, List.mem_cons_of_mem _ hmem, by omega⟩

/-- Where reading goes on in the slots of a list. -/
theorem slot_ready (hrt : rt.Sound) (hfill : Filling rt U fill inner reads) (hlocal : Local reads)
    (hexact : ∀ j, Exact (inner j)) (hs : Ready rt U s) {type : String} {j : Nat}
    (hj : rt.position? type = some j) {before after : List Item}
    (htyped : ∀ i ∈ before ++ .message z :: after, ItemTyped rt s.store (.message type) i)
    (hregion : ∀ id ∈ (before ++ .message z :: after).flatMap Item.ids, U id)
    (hrun : fillItems fill before s = (.ok (), s')) :
    Ready rt U s' ∧ U z ∧ s'.reader.remaining ≤ s.reader.remaining ∧
      ∃ d, s'.store.cell? z = some d ∧ d.plan = j := by
  rw [List.flatMap_append, List.forall_mem_append] at hregion
  rw [List.forall_mem_append, List.forall_mem_cons] at htyped
  have hsettles := fillItems_settles hrt hfill hlocal hj before s hs htyped.1 hregion.1
  rw [hrun] at hsettles
  have hclean : s'.reader.error? = none := hsettles.clean () rfl
  obtain ⟨parts, rest, hscan, hadv, -⟩ := hsettles.scanned rfl hclean
  have hleft : s'.reader.remaining + _ = s.reader.remaining :=
    hadv.remaining_le (scanMany_bytes (scanElement_exact hexact _) _ hscan).1
  obtain ⟨d, hd, hplan⟩ := (OfType.mono hsettles.grows htyped.2.1).plan_eq hrt hj
  exact ⟨hsettles.ready hs hclean, hregion.2 z List.mem_cons_self, by omega, d, hd, hplan⟩

/-- A reader that accepts a count has not moved. -/
theorem readCount_accepted {n : UInt64} {width : Int} {k : Nat}
    (h : readCount n width s = (.ok k, s')) (hclean : s'.reader.error? = none) : s' = s := by
  have hs' : s' = ⟨s.store, (s.reader.count n width).2⟩ := (Prod.mk.inj h).2.symm
  subst hs'
  have hcount : (s.reader.count n width).2 = s.reader := by
    simp only [Reader.count] at hclean ⊢
    split
    · rfl
    · split
      · simp_all
      · rfl
  rw [hcount]

/-- Where reading goes on in the new elements of a list. -/
theorem element_ready (hrt : rt.Sound) (hfill : Filling rt U fill inner reads)
    (hlocal : Local reads) (hexact : ∀ j, Exact (inner j)) (hs : Ready rt U s) {type : String}
    {j : Nat} (hj : rt.position? type = some j) {i : Nat} {items : List Item} {s₁ : Input}
    (hrun : readMessages rt fill type i s = (.ok items, s₁))
    (hmade : build (new rt type) s₁ = (.ok z, s')) :
    Ready rt U s' ∧ U z ∧ s'.reader.remaining ≤ s.reader.remaining ∧
      ∃ d, s'.store.cell? z = some d := by
  have hsettles := readMessages_settles hrt hfill hlocal hj i s hs
  rw [hrun] at hsettles
  have hclean : s₁.reader.error? = none := hsettles.clean items rfl
  obtain ⟨parts, rest, hscan, hadv, -⟩ := hsettles.scanned rfl hclean
  have hleft : s₁.reader.remaining + _ = s.reader.remaining :=
    hadv.remaining_le (scanMany_bytes (scanNewElement_exact hexact _) _ hscan).1
  have hs₁ : Ready rt U s₁ := hsettles.ready hs hclean
  have hbuild := build_new_settles hrt hj hs₁
  rw [hmade] at hbuild
  obtain ⟨-, -, -, -, -, -, hnew, d, hd, -⟩ := hbuild.scanned rfl (hbuild.clean z rfl)
  have hreader : s'.reader = s₁.reader := by
    have hsame : (build (new rt type) s₁).2.reader = s₁.reader := rfl
    rwa [hmade] at hsame
  have hz : s₁.store.size ≤ z := (hnew.below z (List.mem_singleton_self z) z (Reach.refl _ z)).1
  exact ⟨hbuild.ready hs₁ (hbuild.clean z rfl), hs₁.free z hz, by rw [hreader]; omega, d, hd⟩

/-- The count that a list is read with counts that list. -/
theorem counted_eq (hp : p.Sound) {f count list : String} {e : Element} {t : Primitive}
    {discard : Bool} (hstep : .variableList f e count ∈ p.decode)
    (hcount : .count count list t discard ∈ p.decode) : list = f := by
  rcases (mem_decode hp).mp hcount with ⟨-, heq⟩ | ⟨g, hg, -, hgstep⟩
  · cases heq
  rcases (mem_decode hp).mp hstep with ⟨-, heq⟩ | ⟨l, hl, -, hlstep⟩
  · cases heq
  obtain ⟨hgname, rfl, hunstored, -⟩ := Field.step_eq_count hgstep.symm
  obtain ⟨hshape, rfl, -, hlcount⟩ := Field.step_eq_variableList hlstep.symm
  cases hp.field l hl with
  | variableList k _ _ _ hk hkname _ hback =>
      have hsame := hp.field_unique hg hk
        (hgname.trans (hlcount.symm.trans hkname.symm))
      rw [hsame, hback]
  | number t' hshape' | count t' l' hshape' | reference type hshape' | fixedList n hshape' =>
      rw [hshape] at hshape'
      cases hshape'

/-- At a step reading goes on in what the step is about: an element after its count, anything else
in the order of containment. -/
def Allowed (rt : Runtime) (p : Plan) (counts : Counts) (j : Nat) : DecodeStep → Prop
  | .variableList _ _ count => ∃ n, counts.lookup count = some n
  | _ => rt.Contains p j

/-- Where reading goes on it may go on, and with no more bytes than the step began with. -/
theorem StepEnters.ready (hrt : rt.Sound) (hfill : Filling rt U fill inner reads)
    (hlocal : Local reads) (hexact : ∀ j, Exact (inner j)) (hs : Ready rt U s) (hy : U y)
    (hc : s.store.cell? y = some c) (hcell : CellTyped rt s.store p c) {step : DecodeStep}
    (hstep : step ∈ p.decode) (h : StepEnters rt fill y counts s step z s') :
    Ready rt U s' ∧ U z ∧ s'.reader.remaining ≤ s.reader.remaining ∧
      ∃ d, s'.store.cell? z = some d ∧ Allowed rt p counts d.plan step := by
  have hp := hrt.plan hcell.plan
  have hchild : ∀ w ∈ c.children, U w := fun w hw => (hs.typed y c hy hc).2 w hw
  rcases (mem_decode hp).mp hstep with ⟨-, rfl⟩ | ⟨f, hf, -, rfl⟩
  · cases h with
    | parent cell part =>
        obtain rfl := Option.some.inj (hc.symm.trans cell)
        have htyped := hcell.parent
        rw [part] at htyped
        obtain ⟨d, hd, hlink⟩ := htyped
        exact ⟨hs, hchild z (Cell.parent_mem_children part), le_rfl, d, hd, .inl hlink⟩
  · have hheld : f.shape ≠ .variableList → ∀ {type : String} {j : Nat}, f.elem = .message type →
        rt.position? type = some j → rt.Contains p j :=
      fun hshape _ _ helem hj => .inr ⟨f, hf, hshape, _, helem, hj⟩
    cases hp.field f hf with
    | number t hshape helem hstored =>
        rw [Field.step_number hshape helem hstored] at h
        cases h
    | count t l hshape helem hunstored =>
        rw [Field.step_count hshape helem hunstored] at h
        cases h
    | reference type hshape helem hstored =>
        simp only [Field.step_reference hshape, helem] at h ⊢
        cases h with
        | reference cell message =>
            obtain rfl := Option.some.inj (hc.symm.trans cell)
            obtain ⟨v, hv, htyped⟩ := hcell.stored f hf hstored
            obtain ⟨id, rfl, htype⟩ := htyped.message hshape helem
            rw [Cell.message, hv] at message
            obtain rfl := Except.ok.inj message
            obtain ⟨j, hj⟩ := hrt.elem hcell.plan hf helem
            obtain ⟨d, hd, rfl⟩ := htype.plan_eq hrt hj
            have hmem := Cell.ids_subset_children hv (List.mem_singleton_self id)
            exact ⟨hs, hchild id hmem, le_rfl, d, hd, hheld (by simp [hshape]) helem hj⟩
    | fixedList n hshape _ _ hstored =>
        rw [Field.step_fixedList hshape] at h ⊢
        cases helem : f.elem with
        | primitive t =>
            rw [helem] at h
            cases h
        | message type =>
            rw [helem] at h
            cases h with
            | slot cell list filled =>
                obtain rfl := Option.some.inj (hc.symm.trans cell)
                obtain ⟨v, hv, htyped⟩ := hcell.stored f hf hstored
                obtain ⟨items, rfl, -, -, hall⟩ := htyped.fixedList hshape
                rw [list_of_value? hv] at list
                subst list
                obtain ⟨j, hj⟩ := hrt.elem hcell.plan hf helem
                obtain ⟨hs', hz, hle, d, hd, rfl⟩ := slot_ready hrt hfill hlocal hexact hs hj
                  (helem ▸ hall) (fun id hid => hchild id (Cell.ids_subset_children hv hid)) filled
                exact ⟨hs', hz, hle, d, hd, hheld (by simp [hshape]) helem hj⟩
    | variableList k hshape hstored =>
        rw [Field.step_variableList hshape] at h ⊢
        cases helem : f.elem with
        | primitive t =>
            rw [helem] at h
            cases h
        | message type =>
            rw [helem] at h
            cases h with
            | @element _ _ _ n k _ _ s₀ _ _ _ counted length accepted lt elements made =>
                obtain ⟨j, hj⟩ := hrt.elem hcell.plan hf helem
                obtain rfl := readCount_accepted length accepted
                obtain ⟨hs', hz, hle, d, hd⟩ := element_ready hrt hfill hlocal hexact hs hj
                  elements made
                exact ⟨hs', hz, hle, d, hd, n, counted⟩

/-- **Less is left wherever reading goes on.** -/
theorem Enters.below (hrt : rt.Sound) (hfill : Filling rt U fill inner reads)
    (hlocal : Local reads) (hexact : ∀ j, Exact (inner j)) (hs : Ready rt U s) (hy : U y)
    {before : List DecodeStep} {step : DecodeStep} (h : Enters rt fill y s before step z s') :
    Ready rt U s' ∧ U z ∧ Below rt y s before step z s' := by
  obtain ⟨p, after, counts, s₁, hplan, hsplit, hrun, henters⟩ := h
  obtain ⟨c, hc, hp⟩ := planOf?_eq.mp hplan
  obtain ⟨p', hcell⟩ := (hs.typed y c hy hc).1
  obtain rfl : p' = p := Option.some.inj (hcell.plan.symm.trans hp)
  have hmem : ∀ step' ∈ before ++ step :: after, step' ∈ p'.decode := fun _ h => hsplit ▸ h
  obtain ⟨hs₁, ⟨c₁, hc₁, hplan₁, hcell₁⟩, hle₁, hlookup⟩ :=
    runSteps_ready hrt hfill hlocal hexact hy before
      (fun _ h => hmem _ (List.mem_append_left _ h)) hs hc hcell hrun
  have hstep := hmem step (List.mem_append_right _ List.mem_cons_self)
  obtain ⟨hs', hz, hle, d, hd, hallowed⟩ :=
    henters.ready hrt hfill hlocal hexact hs₁ hy hc₁ hcell₁ hstep
  refine ⟨hs', hz, c, p', d, hc, hp, hd, ?_⟩
  cases step with
  | variableList f e count =>
      obtain ⟨n, hn⟩ := hallowed
      rcases hlookup count n hn with hnone | ⟨list, t, hcount, hbytes⟩
      · cases hnone
      · obtain rfl := counted_eq (hrt.plan hp) hstep (hmem _ (List.mem_append_left _ hcount))
        exact ⟨t, hcount, Wire.bytes_pos t.kind, by omega⟩
  | parent name => exact ⟨hallowed, hle.trans hle₁⟩
  | primitive f t => exact ⟨hallowed, hle.trans hle₁⟩
  | count f list t discard => exact ⟨hallowed, hle.trans hle₁⟩
  | reference f type => exact ⟨hallowed, hle.trans hle₁⟩
  | fixedList f n e => exact ⟨hallowed, hle.trans hle₁⟩

end Below

end WireSchema.Message
