import Mathlib
import WireSchema.Proofs.Codec.Fresh
import WireSchema.Proofs.Message.Causes

/-!
# Decoding comes to an end

The decoder recurses through parts of messages and through the elements of lists, and the lists are
as long as the bytes say.  Still every call it makes is one with less to do, so that the calls form
a finite tree, whatever the bytes are.  The depth that bounds the recursion is therefore never
reached, and the decoder is what its own recursive equation says.

## Main results

* `decodeDepth_eq` — every depth above what is left to do gives the same result.
* `decode_eq` — the recursive equation of the decoder.
* `decode_not_tooDeep` — the decoder never reports that messages nest too deep.
* `decode_terminates` — the calls of the decoder have an end.
-/

namespace WireSchema.Message

open Plan (Field DecodeStep)
open Wire (Reader)

/-! ## The depth does not matter -/

section Depth

variable {rt : Runtime} {U : Id → Prop} {rank : Nat → Nat} {s s' : Input} {y z : Id}

theorem reads_local (rt : Runtime) (n : Nat) : Local (Reads rt n) :=
  ⟨fun h => Reads.later n h, fun h => Reads.earlier n h⟩

/-- There is less to do wherever reading goes on. -/
theorem Below.effort_lt_of_ready (hrank : rt.Ranked rank) (hs' : Ready rt U s') (hz : U z)
    {before : List DecodeStep} {step : DecodeStep} (h : Below rt y s before step z s') :
    effort rt rank z s' < effort rt rank y s := by
  apply h.effort_lt hrank
  intro d hd
  obtain ⟨q, hcell⟩ := (hs'.typed z d hz hd).1
  exact ⟨q, hcell.plan⟩

/-- **Every depth above what is left to do gives the same result.** -/
theorem decodeDepth_eq (hrt : rt.Sound) (hrank : rt.Ranked rank) (n : Nat) :
    ∀ {m : Nat} {s : Input} {y : Id}, Ready rt U s → U y → effort rt rank y s < n →
      effort rt rank y s < m → decodeDepth rt n y s = decodeDepth rt m y s := by
  induction n with
  | zero =>
      intro m s y _ _ hn
      exact absurd hn (Nat.not_lt_zero _)
  | succ n ih =>
      intro m s y hs hy hn hm
      obtain ⟨m, rfl⟩ : ∃ l, m = l + 1 := ⟨m - 1, by omega⟩
      rw [decodeDepth, decodeDepth]
      apply decodeWith_congr
      intro before step z s' henters
      obtain ⟨hs', hz, hbelow⟩ := henters.below hrt (decodeDepth_settles hrt n) (reads_local rt n)
        (scan_bytes rt n) hs hy
      have hlt := hbelow.effort_lt_of_ready hrank hs' hz
      exact ih hs' hz (by omega) (by omega)

theorem effort_lt_startDepth (hrank : rt.Ranked rank) (hs : Ready rt U s) (hy : U y) :
    effort rt rank y s < startDepth rt s := by
  have hsmall : ((s.store.cell? y).map fun c => rank c.plan).getD 0 < rt.plans.size + 1 := by
    cases hc : s.store.cell? y with
    | none => exact Nat.succ_pos _
    | some c =>
        obtain ⟨p, hcell⟩ := (hs.typed y c hy hc).1
        exact Nat.lt_succ_of_lt (hrank _ p hcell.plan).1
  rw [effort, startDepth, Nat.succ_mul]
  omega

/-- The decoder is the same at every depth above what is left to do. -/
theorem decode_eq_decodeDepth (hrt : rt.Sound) (hrank : rt.Ranked rank) (hs : Ready rt U s)
    (hy : U y) {n : Nat} (hn : effort rt rank y s < n) : decode rt y s = decodeDepth rt n y s := by
  rw [decode_run]
  exact decodeDepth_eq hrt hrank (startDepth rt s) hs hy (effort_lt_startDepth hrank hs hy) hn

/-! ## The decoder by itself -/

/-- The scanner at a depth that suffices for the bytes it is given. -/
def scanAll (rt : Runtime) (i : Nat) : Scanner Content := fun bs =>
  scan rt ((bs.length + 1) * (rt.plans.size + 1)) i bs

theorem scan_eq_scanAll (hrt : rt.Sound) {s : Input} {i : Nat} :
    scan rt (startDepth rt s) i s.reader.rest = scanAll rt i s.reader.rest := by
  obtain ⟨rank, hrank⟩ := hrt.ranked
  cases hp : rt.plans[i]? with
  | none =>
      have hnone : ∀ n, scan rt n i s.reader.rest = none := by
        intro n
        cases n with
        | zero => rfl
        | succ n => rw [scan, hp, Option.bind_none]
      rw [scanAll, hnone, hnone]
  | some p =>
      have hsmall := (hrank i p hp).1
      apply Option.ext
      intro r
      constructor
      · apply scan_depth hrt hrank _ ?_ _ _ (Nat.lt_succ_self _)
        rw [Nat.succ_mul]
        omega
      · exact fun h => scan_startDepth hrt h

theorem scanAll_exact (rt : Runtime) (i : Nat) : Exact (scanAll rt i) :=
  fun bs ct rest h => scan_bytes rt _ i bs ct rest h

/-- What was read at some depth. -/
def ReadsSome (rt : Runtime) (s t : Store) (y : Id) (ct : Content) : Prop :=
  ∃ n, Reads rt n s t y ct

theorem readsSome_local (rt : Runtime) : Local (ReadsSome rt) :=
  ⟨fun h ⟨n, hread⟩ => ⟨n, hread.later n h⟩, fun h ⟨n, hread⟩ => ⟨n, hread.earlier n h⟩⟩

theorem decode_filling (hrt : rt.Sound) : Filling rt U (decode rt) (scanAll rt) (ReadsSome rt) := by
  intro s y c hs hy hc
  have h := decode_settles hrt hs hy hc
  rw [scan_eq_scanAll hrt] at h
  refine ⟨⟨h.grows, h.typed, h.failed, fun ct rest hscan => ?_⟩, h.clean⟩
  obtain ⟨a, ha, hadv, hread⟩ := h.done ct rest hscan
  refine ⟨a, ha, hadv, fun hunshared => ?_⟩
  obtain ⟨hchanged, hreads⟩ := hread hunshared
  exact ⟨hchanged, _, hreads⟩

/-- Wherever the decoder goes on it may go on, and less is left. -/
theorem Enters.below_decode (hrt : rt.Sound) (hs : Ready rt U s) (hy : U y)
    {before : List DecodeStep} {step : DecodeStep}
    (h : Enters rt (decode rt) y s before step z s') :
    Ready rt U s' ∧ U z ∧ Below rt y s before step z s' :=
  h.below hrt (decode_filling hrt) (readsSome_local rt) (scanAll_exact rt) hs hy

/-- **The decoder is what its recursive equation says**, and any other reader of messages may take
its place where reading goes on. -/
theorem decode_eq (hrt : rt.Sound) (hs : Ready rt U s) (hy : U y) {fill : Id → Fill Unit}
    (hfill : ∀ before step z s', Enters rt (decode rt) y s before step z s' →
      fill z s' = decode rt z s') : decodeWith rt fill y s = decode rt y s := by
  obtain ⟨rank, hrank⟩ := hrt.ranked
  have hself : decode rt y s = decodeWith rt (decode rt) y s := by
    rw [decode_eq_decodeDepth hrt hrank hs hy (Nat.lt_succ_self _), decodeDepth]
    apply decodeWith_congr
    intro before step z s' henters
    obtain ⟨hs', hz, hbelow⟩ := henters.below hrt (decodeDepth_settles hrt _) (reads_local rt _)
      (scan_bytes rt _) hs hy
    exact (decode_eq_decodeDepth hrt hrank hs' hz (hbelow.effort_lt_of_ready hrank hs' hz)).symm
  rw [hself]
  apply Eq.symm
  apply decodeWith_congr
  intro before step z s' henters
  exact (hfill before step z s' henters).symm

end Depth

/-! ## Nothing nests too deep -/

section TooDeep

variable {rt : Runtime} {fill : Id → Fill Unit}

/-- Nesting too deep is nothing that the steps of a plan bring about. -/
theorem tooDeep_uncommon : Uncommon (· = .tooDeep) :=
  ⟨by simp, by simp, by simp, by simp⟩

/-- The reader `fill`, with another failure where it nested too deep. -/
def blame (fill : Id → Fill Unit) (id : Id) : Fill Unit := fun s =>
  match fill id s with
  | (.error e, t) => (.error (if e.cause = .tooDeep then .missingPart else e), t)
  | r => r

theorem blame_ends (fill : Id → Fill Unit) (id : Id) :
    Ends (· = .tooDeep) (fun _ => True) (blame fill id) := by
  refine fun s => ⟨fun _ _ _ => trivial, fun e t h => ?_⟩
  rw [blame] at h
  split at h
  · cases h
    split
    · exact Cause.noConfusion
    · assumption
  · rename_i hok
    exact absurd h (hok e t)

/-- **The decoder never reports that messages nest too deep.** -/
theorem decode_not_tooDeep (hrt : rt.Sound) {U : Id → Prop} {rank : Nat → Nat}
    (hrank : rt.Ranked rank) (n : Nat) : ∀ {s : Input} {y : Id}, Ready rt U s → U y →
      effort rt rank y s < n → ∀ e t, decode rt y s = (.error e, t) → e.cause ≠ .tooDeep := by
  induction n with
  | zero =>
      intro s y _ _ hn
      exact absurd hn (Nat.not_lt_zero _)
  | succ n ih =>
      intro s y hs hy hn e t h
      -- Where reading goes on no such failure comes up, so another one may as well stand for it.
      have hsame : decodeWith rt (blame (decode rt)) y s = decode rt y s := by
        apply decode_eq hrt hs hy
        intro before step z s' henters
        obtain ⟨hs', hz, hbelow⟩ := henters.below_decode hrt hs hy
        have hlt := hbelow.effort_lt_of_ready hrank hs' hz
        rcases hrun : decode rt z s' with ⟨e' | a, t'⟩
        · have hcause := ih hs' hz (by omega) e' t' hrun
          rw [blame, hrun]
          simp only [if_neg hcause]
        · rw [blame, hrun]
      rw [← hsame] at h
      exact (decodeWith_ends tooDeep_uncommon hrt (blame_ends (decode rt)) y s).2 e t h

end TooDeep

/-! ## The calls of the decoder -/

/-- The decoder reads the message `a.1` from the state `a.2` on, and on the way it reads the message
`b.1` from the state `b.2` on. -/
def Descends (rt : Runtime) (b a : Id × Input) : Prop :=
  ∃ before step, Enters rt (decode rt) a.1 a.2 before step b.1 b.2

section Descends

variable {rt : Runtime} {U : Id → Prop}

/-- The calls below one of the decoder's calls have an end. -/
theorem descends_acc (hrt : rt.Sound) {rank : Nat → Nat} (hrank : rt.Ranked rank) (n : Nat) :
    ∀ {s : Input} {y : Id}, Ready rt U s → U y → effort rt rank y s < n →
      Acc (Descends rt) (y, s) := by
  induction n with
  | zero =>
      intro s y _ _ hn
      exact absurd hn (Nat.not_lt_zero _)
  | succ n ih =>
      intro s y hs hy hn
      refine .intro _ fun (z, s') ⟨before, step, henters⟩ => ?_
      obtain ⟨hs', hz, hbelow⟩ := henters.below_decode hrt hs hy
      have hlt : effort rt rank z s' < effort rt rank y s :=
        hbelow.effort_lt_of_ready hrank hs' hz
      exact ih hs' hz (by omega)

/-- Every call that is reached starts from a state to start from. -/
theorem descends_ready (hrt : rt.Sound) {a b : Id × Input} (hs : Ready rt U a.2) (ha : U a.1)
    (h : Relation.ReflTransGen (fun a b => Descends rt b a) a b) : Ready rt U b.2 ∧ U b.1 := by
  induction h with
  | refl => exact ⟨hs, ha⟩
  | tail _ hlast ih =>
      obtain ⟨before, step, henters⟩ := hlast
      obtain ⟨hs', hz, -⟩ := henters.below_decode hrt ih.1 ih.2
      exact ⟨hs', hz⟩

end Descends

/-- **Decoding comes to an end on every input.**  The calls of the decoder, starting with a
well-typed message, have no infinite descent.  Each of them reads a new element of a variable list
only after the count of that list was taken, and everything else in the order of containment by
value, in which a rank falls.  It depends on nothing but these calls, and never reports that
messages nest too deep. -/
theorem decode_terminates {catalog : Catalog} {limit : Int} {raw : Model} {sized : Bool}
    {S : PlanSet} (hresolve : (Resolve.run catalog limit raw).succeeded = true)
    (hderive : PlanSet.derive sized (Resolve.run catalog limit raw).model = .ok S) {st : Store}
    {y : Id} (hy : WellTyped (.ofSet S) st y) (bytes : List UInt8) :
    (∃ rank, (Runtime.ofSet S).Ranked rank) ∧
      Acc (Descends (.ofSet S)) (y, ⟨st, .ofBytes bytes⟩) ∧
      ∀ z s, Relation.ReflTransGen (fun a b => Descends (.ofSet S) b a)
          (y, ⟨st, .ofBytes bytes⟩) (z, s) →
        (∀ before step w s', Enters (.ofSet S) (decode (.ofSet S)) z s before step w s' →
          Below (.ofSet S) z s before step w s') ∧
        (∀ fill, (∀ before step w s', Enters (.ofSet S) (decode (.ofSet S)) z s before step w s' →
          fill w s' = decode (.ofSet S) w s') →
            decodeWith (.ofSet S) fill z s = decode (.ofSet S) z s) ∧
        ∀ e t, decode (.ofSet S) z s = (.error e, t) → e.cause ≠ .tooDeep := by
  have hrt := Runtime.ofSet_sound (Resolve.run_bound hresolve) hderive
  obtain ⟨rank, hrank⟩ := hrt.ranked
  have hready : Ready (.ofSet S) (fun w => Reach st y w ∨ st.size ≤ w) ⟨st, .ofBytes bytes⟩ :=
    ⟨fun w hw => .inr hw, hy.typedOn, rfl⟩
  have hstart : Reach st y y ∨ st.size ≤ y := .inl (Reach.refl st y)
  refine ⟨⟨rank, hrank⟩, descends_acc hrt hrank _ hready hstart (Nat.lt_succ_self _),
    fun z s hreach => ?_⟩
  obtain ⟨hs, hz⟩ := descends_ready hrt hready hstart hreach
  refine ⟨fun before step w s' henters => ?_, fun fill hfill => decode_eq hrt hs hz hfill,
    decode_not_tooDeep hrt hrank _ hs hz (Nat.lt_succ_self _)⟩
  exact (henters.below_decode hrt hs hz).2.2

/-- A node is read in three steps, and at the third reading goes on in the node in it. -/
theorem enters_node : ∃ z s', Enters Sample.runtime (decode Sample.runtime) 1
    ⟨Sample.start, .ofBytes Sample.bytes⟩
    [.parent "Base", .count "n" "kids" ⟨"unsigned byte", .uint8⟩ false]
    (.variableList "kids" (.message "Node") "n") z s' := by
  let before : List DecodeStep :=
    [.parent "Base", .count "n" "kids" ⟨"unsigned byte", .uint8⟩ false]
  let steps (p : Plan) := runSteps Sample.runtime (decode Sample.runtime) p 1 [] before
    ⟨Sample.start, .ofBytes Sample.bytes⟩
  let length (p : Plan) := readCount 1 0 (steps p).2
  let made (p : Plan) := build (new Sample.runtime "Node") (length p).2
  have hrun : ∃ p ∈ Sample.runtime.planOf? Sample.start 1,
      p.decode = before ++ [.variableList "kids" (.message "Node") "n"] ∧
      (steps p).1.toOption = some [("n", 1)] ∧ (length p).1.toOption = some 1 ∧
      (length p).2.reader.error? = none ∧ (made p).1.toOption = some 3 := by
    decide +kernel
  obtain ⟨p, hp, hdecode, hsteps, hlength, haccepted, hmade⟩ := hrun
  refine ⟨3, (made p).2, p, [], _, _, hp, hdecode, Prod.ext (ok_of_toOption hsteps) rfl, ?_⟩
  exact .element rfl (Prod.ext (ok_of_toOption hlength) rfl) haccepted Nat.one_pos rfl
    (Prod.ext (ok_of_toOption hmade) rfl)

/-- The node in a node is read after its count was. -/
theorem decode_terminates_node :
    Acc (Descends Sample.runtime) (1, ⟨Sample.start, .ofBytes Sample.bytes⟩) ∧
      ∃ z s', Below Sample.runtime 1 ⟨Sample.start, .ofBytes Sample.bytes⟩
        [.parent "Base", .count "n" "kids" ⟨"unsigned byte", .uint8⟩ false]
        (.variableList "kids" (.message "Node") "n") z s' := by
  obtain ⟨-, hacc, hcalls⟩ := decode_terminates Sample.resolves Sample.derives
    (new_fresh Sample.sound Sample.makes).typed Sample.bytes
  obtain ⟨z, s', henters⟩ := enters_node
  exact ⟨hacc, z, s', (hcalls 1 _ .refl).1 _ _ _ _ henters⟩

end WireSchema.Message
