import Mathlib
import WireSchema.Message.Decode
import WireSchema.Proofs.Message.Construct
import WireSchema.Proofs.Message.Encode
import WireSchema.Proofs.Wire.Reader

/-!
# Scanning contents

Decoding changes a store, but which bytes it takes, and whether it succeeds, depends on the plan of
the message alone.  `scan` is that part of decoding: it reads the content of a message of a plan
from bytes, without a store.  The decoder is compared with it in `Decode`; here `scan` is compared
with contents.

## Main results

* `scan_bytes` — a content that was read has exactly the bytes that were taken.
* `scan_counted` — a list that was read is as long as the count before it says.
* `scan_of_shows` — the bytes of a message are read as its content, whatever follows them.
* `scan_depth` — a depth that grows with the number of bytes suffices.
-/

namespace WireSchema.Message

open Plan (Field DecodeStep)
open Wire (maxListLength)

/-! ## The scanner -/

/-- Reads something from the front of some bytes. -/
abbrev Scanner (α : Type) : Type := List UInt8 → Option (α × List UInt8)

/-- Reads a number. -/
def scanScalar (k : Kind) : Scanner Scalar := fun bs =>
  (Wire.Reader.splitAt? k.bytes bs).map fun r => (Wire.scalarOfBytes k r.1, r.2)

/-- Reads a number as a content. -/
def scanNumber (k : Kind) : Scanner Content := fun bs =>
  (scanScalar k bs).map fun r => (.number r.1, r.2)

/-- Reads `n` things. -/
def scanMany (item : Scanner Content) : (n : Nat) → Scanner (List Content)
  | 0, bs => some ([], bs)
  | n + 1, bs => (item bs).bind fun r => (scanMany item n r.2).map fun rs => (r.1 :: rs.1, rs.2)

/-- Reads a message of a type; messages of a plan are read by `inner`. -/
def scanType (rt : Runtime) (inner : Nat → Scanner Content) (type : String) : Scanner Content :=
  fun bs => (rt.position? type).bind fun j => inner j bs

/-- Reads an element that is already there. -/
def scanElement (rt : Runtime) (inner : Nat → Scanner Content) : Element → Scanner Content
  | .primitive t => scanNumber t.kind
  | .message type => scanType rt inner type

/-- Reads an element that has to be made first. -/
def scanNewElement (rt : Runtime) (inner : Nat → Scanner Content) : Element → Scanner Content
  | .primitive t => scanNumber t.kind
  | .message type =>
      scanType rt (fun j bs => if makeable rt (rt.plans.size + 1) j then inner j bs else none) type

/-- Reads what one step of the plan `p` reads; counts are kept for the lists to come. -/
def scanStep (rt : Runtime) (inner : Nat → Scanner Content) (p : Plan) (counts : Counts) :
    DecodeStep → Scanner (Content × Counts)
  | .parent _, bs => (p.parent?.bind fun j => inner j bs).map fun r => ((r.1, counts), r.2)
  | .primitive _ t, bs => (scanNumber t.kind bs).map fun r => ((r.1, counts), r.2)
  | .count f _ t discard, bs =>
      (scanScalar t.kind bs).map fun r =>
        ((.number r.1, if discard then counts else (f, r.1.toWord) :: counts), r.2)
  | .reference _ cls, bs => (scanType rt inner cls bs).map fun r => ((r.1, counts), r.2)
  | .fixedList _ n e, bs =>
      (scanMany (scanElement rt inner e) n.toNat bs).map fun r => ((.group r.1, counts), r.2)
  | .variableList _ e count, bs =>
      (counts.lookup count).bind fun n =>
        if n.toNat ≤ maxListLength then
          (scanMany (scanNewElement rt inner e) n.toNat bs).map fun r => ((.group r.1, counts), r.2)
        else none

/-- Reads what some steps read. -/
def scanSteps (rt : Runtime) (inner : Nat → Scanner Content) (p : Plan) :
    Counts → List DecodeStep → Scanner (List Content)
  | _, [], bs => some ([], bs)
  | counts, step :: steps, bs =>
      (scanStep rt inner p counts step bs).bind fun r =>
        (scanSteps rt inner p r.1.2 steps r.2).map fun rs => (r.1.1 :: rs.1, rs.2)

/-- Reads the content of a message of the plan at a position. -/
def scan (rt : Runtime) : (depth : Nat) → Nat → Scanner Content
  | 0, _, _ => none
  | depth + 1, i, bs =>
      (rt.plans[i]?).bind fun p =>
        (scanSteps rt (scan rt depth) p [] p.decode bs).map fun r => (.group r.1, r.2)

/-! ## What was taken -/

theorem splitAt?_eq_some {α : Type} {n : Nat} {xs front rest : List α} :
    Wire.Reader.splitAt? n xs = some (front, rest) ↔ xs = front ++ rest ∧ front.length = n := by
  rw [Wire.Reader.splitAt?_eq]
  constructor
  · intro h
    split at h
    · cases h
      exact ⟨(List.take_append_drop n xs).symm, List.length_take_of_le ‹_›⟩
    · cases h
  · rintro ⟨rfl, rfl⟩
    simp

/-- A number is read from exactly its bytes. -/
theorem scanScalar_eq_some {k : Kind} {bs rest : List UInt8} {s : Scalar} :
    scanScalar k bs = some (s, rest) ↔ bs = Wire.scalarBytes s ++ rest ∧ s.kind = k := by
  simp only [scanScalar, Option.map_eq_some_iff]
  constructor
  · rintro ⟨⟨front, rest'⟩, hsplit, heq⟩
    obtain ⟨rfl, rfl⟩ := Prod.mk.inj heq
    obtain ⟨rfl, hlen⟩ := splitAt?_eq_some.mp hsplit
    exact ⟨by rw [Wire.scalarBytes_scalarOfBytes hlen], rfl⟩
  · rintro ⟨rfl, rfl⟩
    refine ⟨(Wire.scalarBytes s, rest), splitAt?_eq_some.mpr ⟨rfl, by simp⟩, ?_⟩
    rw [Wire.scalarOfBytes_scalarBytes]

theorem scanNumber_eq_some {k : Kind} {bs rest : List UInt8} {ct : Content} :
    scanNumber k bs = some (ct, rest) ↔
      ∃ s, ct = .number s ∧ bs = Wire.scalarBytes s ++ rest ∧ s.kind = k := by
  simp only [scanNumber, Option.map_eq_some_iff]
  constructor
  · rintro ⟨⟨s, rest'⟩, hscan, heq⟩
    obtain ⟨rfl, rfl⟩ := Prod.mk.inj heq
    exact ⟨s, rfl, scanScalar_eq_some.mp hscan⟩
  · rintro ⟨s, rfl, hbytes⟩
    exact ⟨(s, rest), scanScalar_eq_some.mpr hbytes, rfl⟩

/-- What a scanner reads has the bytes that it takes. -/
def Exact (scanner : Scanner Content) : Prop :=
  ∀ bs ct rest, scanner bs = some (ct, rest) → bs = ct.bytes ++ rest

section Taken

variable {rt : Runtime} {inner : Nat → Scanner Content}

theorem scanNumber_exact (k : Kind) : Exact (scanNumber k) := by
  intro bs ct rest h
  obtain ⟨s, rfl, hbytes, -⟩ := scanNumber_eq_some.mp h
  rw [Content.bytes_number, hbytes]

theorem scanMany_bytes {item : Scanner Content} (hitem : Exact item) (n : Nat) :
    ∀ {bs rest : List UInt8} {parts : List Content}, scanMany item n bs = some (parts, rest) →
      bs = Content.allBytes parts ++ rest ∧ parts.length = n := by
  induction n with
  | zero =>
      intro bs rest parts h
      obtain ⟨rfl, rfl⟩ := Prod.mk.inj (Option.some.inj h)
      exact ⟨by simp, rfl⟩
  | succ n ih =>
      intro bs rest parts h
      simp only [scanMany, Option.bind_eq_some_iff, Option.map_eq_some_iff] at h
      obtain ⟨⟨ct, bs₁⟩, hfirst, ⟨parts', rest'⟩, hrest, heq⟩ := h
      cases heq
      obtain ⟨hbytes, hlen⟩ := ih hrest
      refine ⟨?_, by rw [List.length_cons, hlen]⟩
      rw [hitem bs ct bs₁ hfirst, show bs₁ = _ from hbytes, Content.allBytes_cons,
        List.append_assoc]

theorem scanType_exact (hinner : ∀ j, Exact (inner j)) (type : String) :
    Exact (scanType rt inner type) := by
  intro bs ct rest h
  simp only [scanType, Option.bind_eq_some_iff] at h
  obtain ⟨j, -, hscan⟩ := h
  exact hinner j bs ct rest hscan

theorem scanElement_exact (hinner : ∀ j, Exact (inner j)) (e : Element) :
    Exact (scanElement rt inner e) := by
  cases e with
  | primitive t => exact scanNumber_exact t.kind
  | message type => exact scanType_exact hinner type

theorem scanNewElement_exact (hinner : ∀ j, Exact (inner j)) (e : Element) :
    Exact (scanNewElement rt inner e) := by
  cases e with
  | primitive t => exact scanNumber_exact t.kind
  | message type =>
      refine scanType_exact (fun j bs ct rest h => ?_) type
      split at h
      · exact hinner j bs ct rest h
      · cases h

theorem scanStep_bytes (hinner : ∀ j, Exact (inner j)) {p : Plan} {counts counts' : Counts}
    {step : DecodeStep} {bs rest : List UInt8} {ct : Content}
    (h : scanStep rt inner p counts step bs = some ((ct, counts'), rest)) :
    bs = ct.bytes ++ rest := by
  cases step with
  | parent name =>
      simp only [scanStep, Option.map_eq_some_iff, Option.bind_eq_some_iff] at h
      obtain ⟨⟨ct', rest'⟩, ⟨j, -, hscan⟩, heq⟩ := h
      cases heq
      exact hinner j bs _ _ hscan
  | primitive f t =>
      simp only [scanStep, Option.map_eq_some_iff] at h
      obtain ⟨⟨ct', rest'⟩, hscan, heq⟩ := h
      cases heq
      exact scanNumber_exact t.kind bs _ _ hscan
  | count f list t discard =>
      simp only [scanStep, Option.map_eq_some_iff] at h
      obtain ⟨⟨s, rest'⟩, hscan, heq⟩ := h
      cases heq
      rw [Content.bytes_number]
      exact (scanScalar_eq_some.mp hscan).1
  | reference f cls =>
      simp only [scanStep, Option.map_eq_some_iff] at h
      obtain ⟨⟨ct', rest'⟩, hscan, heq⟩ := h
      cases heq
      exact scanType_exact hinner cls bs _ _ hscan
  | fixedList f n e =>
      simp only [scanStep, Option.map_eq_some_iff] at h
      obtain ⟨⟨parts, rest'⟩, hscan, heq⟩ := h
      cases heq
      rw [Content.bytes_group]
      exact (scanMany_bytes (scanElement_exact hinner e) n.toNat hscan).1
  | variableList f e count =>
      simp only [scanStep, Option.bind_eq_some_iff] at h
      obtain ⟨n, -, h⟩ := h
      split at h
      · rw [Option.map_eq_some_iff] at h
        obtain ⟨⟨parts, rest'⟩, hscan, heq⟩ := h
        cases heq
        rw [Content.bytes_group]
        exact (scanMany_bytes (scanNewElement_exact hinner e) n.toNat hscan).1
      · cases h

theorem scanSteps_bytes (hinner : ∀ j, Exact (inner j)) {p : Plan} (steps : List DecodeStep) :
    ∀ {counts : Counts} {bs rest : List UInt8} {parts : List Content},
      scanSteps rt inner p counts steps bs = some (parts, rest) →
      bs = Content.allBytes parts ++ rest ∧ parts.length = steps.length := by
  induction steps with
  | nil =>
      intro counts bs rest parts h
      obtain ⟨rfl, rfl⟩ := Prod.mk.inj (Option.some.inj h)
      exact ⟨by simp, rfl⟩
  | cons step steps ih =>
      intro counts bs rest parts h
      simp only [scanSteps, Option.bind_eq_some_iff, Option.map_eq_some_iff] at h
      obtain ⟨⟨⟨ct, counts'⟩, bs₁⟩, hfirst, ⟨parts', rest'⟩, hrest, heq⟩ := h
      cases heq
      obtain ⟨hbytes, hlen⟩ := ih hrest
      refine ⟨?_, by rw [List.length_cons, List.length_cons, hlen]⟩
      rw [scanStep_bytes hinner hfirst, show bs₁ = _ from hbytes, Content.allBytes_cons,
        List.append_assoc]

/-- **A content that was read has exactly the bytes that were taken.** -/
theorem scan_bytes (rt : Runtime) (n : Nat) : ∀ i, Exact (scan rt n i) := by
  induction n with
  | zero =>
      intro i bs ct rest h
      cases h
  | succ n ih =>
      intro i bs ct rest h
      simp only [scan, Option.bind_eq_some_iff, Option.map_eq_some_iff] at h
      obtain ⟨p, -, ⟨parts, rest'⟩, hsteps, heq⟩ := h
      obtain ⟨rfl, rfl⟩ := Prod.mk.inj heq
      rw [Content.bytes_group]
      exact (scanSteps_bytes ih p.decode hsteps).1

end Taken

/-! ## Counts before lists -/

section Counted

variable {rt : Runtime} {inner : Nat → Scanner Content} {p : Plan}

theorem scanMany_length {item : Scanner Content} (n : Nat) :
    ∀ {bs rest : List UInt8} {parts : List Content}, scanMany item n bs = some (parts, rest) →
      parts.length = n := by
  induction n with
  | zero =>
      intro bs rest parts h
      cases h
      rfl
  | succ n ih =>
      intro bs rest parts h
      simp only [scanMany, Option.bind_eq_some_iff, Option.map_eq_some_iff] at h
      obtain ⟨⟨ct, bs₁⟩, -, ⟨parts', rest'⟩, hrest, heq⟩ := h
      cases heq
      rw [List.length_cons, ih hrest]

/-- The counts after a step. -/
theorem scanStep_counts {counts counts' : Counts} {step : DecodeStep} {bs rest : List UInt8}
    {ct : Content} (h : scanStep rt inner p counts step bs = some ((ct, counts'), rest)) :
    counts' = counts ∨ ∃ f list t s, step = .count f list t false ∧ ct = .number s ∧
      counts' = (f, s.toWord) :: counts := by
  cases step with
  | parent name | primitive f t | reference f cls | fixedList f n e =>
      simp only [scanStep, Option.map_eq_some_iff] at h
      obtain ⟨r, hr, heq⟩ := h
      cases heq
      exact .inl rfl
  | count f list t discard =>
      simp only [scanStep, Option.map_eq_some_iff] at h
      obtain ⟨⟨s, rest'⟩, -, heq⟩ := h
      cases heq
      cases discard with
      | true => exact .inl rfl
      | false => exact .inr ⟨f, list, t, s, rfl, rfl, rfl⟩
  | variableList f e count =>
      simp only [scanStep, Option.bind_eq_some_iff] at h
      obtain ⟨n, -, h⟩ := h
      split at h
      · rw [Option.map_eq_some_iff] at h
        obtain ⟨r, hr, heq⟩ := h
        cases heq
        exact .inl rfl
      · cases h

/-- **A list that was read is as long as its count says**, and the count was kept before or is
among the steps. -/
theorem scanSteps_counted (steps : List DecodeStep) :
    ∀ {counts : Counts} {bs rest : List UInt8} {parts : List Content},
      scanSteps rt inner p counts steps bs = some (parts, rest) →
      ∀ l e f ct, (DecodeStep.variableList l e f, ct) ∈ steps.zip parts →
        ∃ xs, ct = .group xs ∧ xs.length ≤ maxListLength ∧
          ((∃ w, counts.lookup f = some w ∧ xs.length = w.toNat) ∨
            ∃ list t s, (DecodeStep.count f list t false, Content.number s) ∈ steps.zip parts ∧
              xs.length = s.toWord.toNat) := by
  induction steps with
  | nil =>
      intro counts bs rest parts _ l e f ct hmem
      cases hmem
  | cons step steps ih =>
      intro counts bs rest parts h l e f ct hmem
      simp only [scanSteps, Option.bind_eq_some_iff, Option.map_eq_some_iff] at h
      obtain ⟨⟨⟨ct₁, counts'⟩, bs₁⟩, hfirst, ⟨parts', rest'⟩, hrest, heq⟩ := h
      cases heq
      rw [List.zip_cons_cons, List.mem_cons] at hmem
      rcases hmem with heq | hmem
      · obtain ⟨rfl, rfl⟩ := Prod.mk.inj heq
        simp only [scanStep, Option.bind_eq_some_iff] at hfirst
        obtain ⟨n, hn, hfirst⟩ := hfirst
        split at hfirst
        · rename_i hle
          rw [Option.map_eq_some_iff] at hfirst
          obtain ⟨⟨xs, bs₂⟩, hscan, heq⟩ := hfirst
          cases heq
          have hlen := scanMany_length _ hscan
          exact ⟨xs, rfl, hlen ▸ hle, .inl ⟨n, hn, hlen⟩⟩
        · cases hfirst
      · obtain ⟨xs, hxs, hle, hcount⟩ := ih hrest l e f ct hmem
        refine ⟨xs, hxs, hle, ?_⟩
        rcases hcount with ⟨w, hw, hlen⟩ | ⟨list, t, s, hin, hlen⟩
        · rcases scanStep_counts hfirst with hsame | ⟨f', list, t, s, rfl, rfl, hnew⟩
          · exact .inl ⟨w, hsame ▸ hw, hlen⟩
          · rw [show counts' = _ from hnew, List.lookup_cons] at hw
            by_cases hf : f = f'
            · subst hf
              rw [beq_self_eq_true] at hw
              obtain rfl := Option.some.inj hw
              exact .inr ⟨list, t, s, List.mem_cons_self, hlen⟩
            · rw [beq_eq_false_iff_ne.mpr hf] at hw
              exact .inl ⟨w, hw, hlen⟩
        · exact .inr ⟨list, t, s, List.mem_cons_of_mem _ hin, hlen⟩

end Counted

/-! ## Reading what a message shows -/

/-- Every serialized variable list, in every message that is written, may be read again. -/
def ListsFit (rt : Runtime) (st : Store) (x : Id) : Prop :=
  ∀ z p c f, Encoded rt st x z → rt.planOf? st z = some p → st.cell? z = some c → f ∈ p.fields →
    f.serialized = true → f.shape = .variableList → (c.list f.name).length ≤ maxListLength

/-- A scanner reads a content from its bytes, whatever follows them. -/
def Recovers (scanner : Scanner Content) (ct : Content) : Prop :=
  ∀ s, scanner (ct.bytes ++ s) = some (ct, s)

section Recovered

variable {rt : Runtime} {st : Store} {inner : Nat → Scanner Content} {p : Plan} {c : Cell}
  {shows_ : Id → Content → Prop}

theorem scanMany_recovers {item : Scanner Content} {parts : List Content}
    (h : ∀ ct ∈ parts, Recovers item ct) (s : List UInt8) :
    scanMany item parts.length (Content.allBytes parts ++ s) = some (parts, s) := by
  induction parts with
  | nil => simp [scanMany]
  | cons ct parts ih =>
      have hrest := ih fun d hd => h d (List.mem_cons_of_mem _ hd)
      rw [List.length_cons, scanMany, Content.allBytes_cons, List.append_assoc,
        h ct List.mem_cons_self, Option.bind_some]
      simp [hrest]

theorem scanNumber_recovers {k : Kind} {s : Scalar} (hkind : s.kind = k) :
    Recovers (scanNumber k) (.number s) :=
  fun rest => scanNumber_eq_some.mpr ⟨s, rfl, by rw [Content.bytes_number], hkind⟩

/-- What is known of the messages that a message holds. -/
def InnerRecovers (rt : Runtime) (st : Store) (inner : Nat → Scanner Content)
    (shows_ : Id → Content → Prop) (id : Id) : Prop :=
  ∀ ct d, shows_ id ct → st.cell? id = some d →
    Recovers (inner d.plan) ct ∧ makeable rt (rt.plans.size + 1) d.plan = true

theorem InnerRecovers.of_position (hrt : rt.Sound) {id : Id} {type : String} {j : Nat}
    {ct : Content} (h : InnerRecovers rt st inner shows_ id) (htype : OfType rt st id type)
    (hj : rt.position? type = some j) (hshow : shows_ id ct) :
    Recovers (inner j) ct ∧ makeable rt (rt.plans.size + 1) j = true := by
  obtain ⟨d, hd, rfl⟩ := htype.plan_eq hrt hj
  exact h ct d hshow hd

theorem element_recovers (hrt : rt.Sound) {e : Element} {i : Item} {ct : Content}
    (hpos : ∀ type, e = .message type → ∃ j, rt.position? type = some j)
    (hinner : ∀ id ∈ i.ids, InnerRecovers rt st inner shows_ id)
    (htyped : ItemTyped rt st e i) (hshow : ItemShows shows_ e i ct) :
    Recovers (scanElement rt inner e) ct ∧ Recovers (scanNewElement rt inner e) ct := by
  cases e with
  | primitive t =>
      obtain ⟨n, rfl, hkind⟩ := htyped.exists_scalar
      obtain ⟨rfl, -⟩ := hshow
      exact ⟨scanNumber_recovers hkind, scanNumber_recovers hkind⟩
  | message type =>
      obtain ⟨id, rfl, htype⟩ := htyped.exists_message
      obtain ⟨j, hj⟩ := hpos type rfl
      obtain ⟨hscan, hmake⟩ :=
        (hinner id (List.mem_singleton_self id)).of_position hrt htype hj hshow
      refine ⟨fun s => ?_, fun s => ?_⟩
      · simp only [scanElement, scanType, hj, Option.bind_some]
        exact hscan s
      · simp only [scanNewElement, scanType, hj, Option.bind_some, hmake, if_true]
        exact hscan s

/-- The items of a list, typed and shown, are recovered one by one. -/
theorem items_recover (hrt : rt.Sound) {e : Element} {items : List Item} {parts : List Content}
    (hpos : ∀ type, e = .message type → ∃ j, rt.position? type = some j)
    (hinner : ∀ id ∈ (Value.list items).ids, InnerRecovers rt st inner shows_ id)
    (htyped : ∀ i ∈ items, ItemTyped rt st e i)
    (hshown : List.Forall₂ (ItemShows shows_ e) items parts) : ∀ ct ∈ parts,
      Recovers (scanElement rt inner e) ct ∧ Recovers (scanNewElement rt inner e) ct := by
  intro ct hct
  obtain ⟨k, hk⟩ := List.mem_iff_getElem?.mp hct
  obtain ⟨i, hi, hishow⟩ :=
    Plan.forall₂_getElem? (R := fun ct i => ItemShows shows_ e i ct) hshown.flip hk
  have himem := List.mem_of_getElem? hi
  exact element_recovers hrt hpos
    (fun id hid => hinner id (List.mem_flatMap.mpr ⟨i, himem, hid⟩)) (htyped i himem) hishow

/-- The counts of the fields `pre` are those of their lists. -/
def Counting (p : Plan) (c : Cell) (pre : List Field) (counts : Counts) : Prop :=
  ∀ k ∈ pre, k.serialized = true → k.stored = false → p.discardsCount k = false →
    ∃ w, counts.lookup k.name = some w ∧ w.toNat = (c.list k.countOf).length

theorem Counting.skip {pre : List Field} {counts : Counts} {f : Field}
    (h : Counting p c pre counts) (hf : f.serialized = false ∨ f.stored = true) :
    Counting p c (pre ++ [f]) counts := by
  intro k hk hser hstored hkept
  rcases List.mem_append.mp hk with hk | hk
  · exact h k hk hser hstored hkept
  · rw [List.mem_singleton.mp hk] at hser hstored
    rcases hf with hf | hf
    · rw [hf] at hser
      cases hser
    · rw [hf] at hstored
      cases hstored

/-- A list that is on the wire does not have its count discarded. -/
theorem discardsCount_eq_false (hp : p.Sound) {l k : Field} (hl : l ∈ p.fields)
    (hser : l.serialized = true) (hname : k.countOf = l.name) : p.discardsCount k = false := by
  rw [hp.discardsCount_eq hl hname.symm, hser]
  rfl

/-- A count that was read is the one kept for its list. -/
theorem Counting.keep {pre post : List Field} {counts : Counts} {f : Field} {w : UInt64}
    (hp : p.Sound) (hsplit : p.fields = pre ++ f :: post) (h : Counting p c pre counts)
    (hw : w.toNat = (c.list f.countOf).length) :
    Counting p c (pre ++ [f]) ((f.name, w) :: counts) := by
  intro k hk hser hstored hkept
  rw [List.lookup_cons]
  rcases List.mem_append.mp hk with hk | hk
  · have hne : k.name ≠ f.name := by
      intro heq
      have hnodup := hp.nodup
      rw [hsplit, List.map_append, List.map_cons] at hnodup
      refine (List.nodup_append.mp hnodup).2.2 _ (List.mem_map_of_mem hk) _ List.mem_cons_self heq
    rw [beq_eq_false_iff_ne.mpr hne]
    exact h k hk hser hstored hkept
  · obtain rfl := List.mem_singleton.mp hk
    rw [beq_self_eq_true]
    exact ⟨w, rfl, hw⟩

/-- So is one that may be discarded. -/
theorem Counting.read {pre post : List Field} {counts : Counts} {f : Field} {w : UInt64}
    (hp : p.Sound) (hsplit : p.fields = pre ++ f :: post) (h : Counting p c pre counts)
    (hw : w.toNat = (c.list f.countOf).length) :
    Counting p c (pre ++ [f]) (if p.discardsCount f then counts else (f.name, w) :: counts) := by
  cases hdiscard : p.discardsCount f with
  | false => exact h.keep hp hsplit hw
  | true =>
      intro k hk hser hstored hkept
      rcases List.mem_append.mp hk with hk | hk
      · exact h k hk hser hstored hkept
      · rw [List.mem_singleton.mp hk, hdiscard] at hkept
        cases hkept

/-- The count of a list on the wire was kept when the list comes up. -/
theorem Counting.length_list {pre post : List Field} {counts : Counts} {f : Field} (hp : p.Sound)
    (hsplit : p.fields = pre ++ f :: post) (h : Counting p c pre counts)
    (hser : f.serialized = true) (hshape : f.shape = .variableList) :
    ∃ w, counts.lookup f.countField = some w ∧ w.toNat = (c.list f.name).length := by
  have hf : f ∈ p.fields := hsplit ▸ List.mem_append_right _ List.mem_cons_self
  obtain ⟨k, hk, hkser, hkname, hkstored, hkof⟩ := hp.counted pre f post hsplit hser hshape
  rw [← hkname, ← hkof]
  exact h k hk hkser hkstored (discardsCount_eq_false hp hf hser hkof)

theorem scanStep_recovers (hrt : rt.Sound) {i : Nat} (hplan : rt.plans[i]? = some p)
    (hcell : CellTyped rt st p c) {pre post : List Field} {f : Field}
    (hsplit : p.fields = pre ++ f :: post) (hser : f.serialized = true)
    (hinner : ∀ v, c.value? f.name = some v → ∀ id ∈ v.ids, InnerRecovers rt st inner shows_ id)
    (hlist : f.shape = .variableList → (c.list f.name).length ≤ maxListLength) {counts : Counts}
    (hcounts : Counting p c pre counts) {ct : Content}
    (hshow : StepShows true shows_ c (f.step (p.discardsCount f)) ct) (s : List UInt8) :
    ∃ counts', scanStep rt inner p counts (f.step (p.discardsCount f)) (ct.bytes ++ s) =
      some ((ct, counts'), s) ∧ Counting p c (pre ++ [f]) counts' := by
  have hp := hrt.plan hplan
  have hf : f ∈ p.fields := hsplit ▸ List.mem_append_right _ List.mem_cons_self
  have hpos : ∀ type, f.elem = .message type → ∃ j, rt.position? type = some j :=
    fun type helem => hrt.elem hplan hf helem
  cases hp.field f hf with
  | number t hshape helem hstored =>
      rw [Field.step_number hshape helem hstored] at hshow ⊢
      obtain ⟨v, hv, hvshow⟩ := hshow
      refine ⟨counts, ?_, hcounts.skip (.inr hstored)⟩
      cases v with
      | message id => exact hvshow.elim
      | scalar n =>
          obtain ⟨rfl, hkind⟩ := hvshow
          simp only [scanStep, scanNumber_recovers hkind s, Option.map_some]
  | count t l hshape helem hunstored hint hl hname =>
      rw [Field.step_count hshape helem hunstored] at hshow ⊢
      obtain ⟨n, rfl, hcount⟩ := hshow
      obtain ⟨rfl, hfits⟩ := hcount (.inl rfl)
      have hscan : ∀ rest, scanScalar t.kind (Wire.scalarBytes _ ++ rest) = some (_, rest) :=
        fun rest => scanScalar_eq_some.mpr
          ⟨rfl, Wire.kind_ofWord t.kind (UInt64.ofNat (c.list f.countOf).length)⟩
      simp only [scanStep, Content.bytes_number, hscan, Option.map_some]
      exact ⟨_, rfl, hcounts.read hp hsplit (Wire.toWord_ofWord hint hfits)⟩
  | reference type hshape helem hstored =>
      rw [Field.step_reference hshape, helem] at hshow ⊢
      obtain ⟨id, hv, hshown⟩ := hshow
      obtain ⟨id', heq, htype⟩ := (hcell.value hp hf hv).message hshape helem
      cases heq
      obtain ⟨j, hj⟩ := hpos type helem
      obtain ⟨hrecovers, -⟩ :=
        (hinner _ hv id (List.mem_singleton_self id)).of_position hrt htype hj hshown
      refine ⟨counts, ?_, hcounts.skip (.inr hstored)⟩
      simp only [scanStep, scanType, Element.name, hj, Option.bind_some, hrecovers s,
        Option.map_some]
  | fixedList n hshape hlength hpos' hstored =>
      rw [Field.step_fixedList hshape] at hshow ⊢
      obtain ⟨parts, rfl, hshown⟩ := hshow
      obtain ⟨v, hv, htyped⟩ := hcell.stored f hf hstored
      obtain ⟨items, rfl, hlen, -, hall⟩ := htyped.fixedList hshape
      rw [list_of_value? hv] at hshown
      have hparts : parts.length = n.toNat := by
        rw [← hshown.length_eq]
        omega
      have hitems := items_recover hrt hpos (hinner _ hv) hall hshown
      have hscan := scanMany_recovers (fun ct hct => (hitems ct hct).1) s
      rw [hparts] at hscan
      refine ⟨counts, ?_, hcounts.skip (.inr hstored)⟩
      simp only [scanStep, Content.bytes_group, hscan, Option.map_some]
  | variableList k hshape hstored =>
      obtain ⟨w, hw, hlen⟩ := hcounts.length_list hp hsplit hser hshape
      rw [Field.step_variableList hshape] at hshow ⊢
      obtain ⟨parts, rfl, hshown⟩ := hshow
      obtain ⟨v, hv, htyped⟩ := hcell.stored f hf hstored
      obtain ⟨items, rfl, hall⟩ := htyped.variableList hshape
      have hle := hlist hshape
      rw [← hlen] at hle
      rw [list_of_value? hv] at hshown hlen
      have hparts : parts.length = w.toNat := by rw [← hshown.length_eq, hlen]
      have hitems := items_recover hrt hpos (hinner _ hv) hall hshown
      have hscan := scanMany_recovers (fun ct hct => (hitems ct hct).2) s
      rw [hparts] at hscan
      refine ⟨counts, ?_, hcounts.skip (.inr hstored)⟩
      simp only [scanStep, hw, Option.bind_some, if_pos hle, Content.bytes_group, hscan,
        Option.map_some]

/-- The fields after `pre`, from the front to the back. -/
theorem scanSteps_recovers (hrt : rt.Sound) {i : Nat} (hplan : rt.plans[i]? = some p)
    (hcell : CellTyped rt st p c)
    (hinner : ∀ f ∈ p.fields, f.serialized = true → ∀ v, c.value? f.name = some v →
      ∀ id ∈ v.ids, InnerRecovers rt st inner shows_ id)
    (hlist : ∀ f ∈ p.fields, f.serialized = true → f.shape = .variableList →
      (c.list f.name).length ≤ maxListLength) (post : List Field) :
    ∀ {pre : List Field} {counts : Counts} {parts : List Content}, p.fields = pre ++ post →
      Counting p c pre counts →
      List.Forall₂ (StepShows true shows_ c)
        ((post.filter (·.serialized)).map fun f => f.step (p.discardsCount f)) parts →
      ∀ s, scanSteps rt inner p counts
          ((post.filter (·.serialized)).map fun f => f.step (p.discardsCount f))
          (Content.allBytes parts ++ s) = some (parts, s) := by
  induction post with
  | nil =>
      intro pre counts parts _ _ hshows s
      cases hshows
      simp [scanSteps]
  | cons f post ih =>
      intro pre counts parts hsplit hcounts hshows s
      have hnext : p.fields = (pre ++ [f]) ++ post := by rw [hsplit, List.append_assoc]; rfl
      have hf : f ∈ p.fields := hsplit ▸ List.mem_append_right _ List.mem_cons_self
      cases hser : f.serialized with
      | false =>
          rw [List.filter_cons_of_neg (by simp [hser])] at hshows ⊢
          exact ih hnext (hcounts.skip (.inl hser)) hshows s
      | true =>
          rw [List.filter_cons_of_pos hser, List.map_cons] at hshows ⊢
          cases hshows with
          | cons hshow hrest =>
              rename_i ct parts
              obtain ⟨counts', hscan, hcounts'⟩ :=
                scanStep_recovers hrt hplan hcell hsplit hser (hinner f hf hser) (hlist f hf hser)
                  hcounts hshow (Content.allBytes parts ++ s)
              rw [scanSteps, Content.allBytes_cons, List.append_assoc, hscan, Option.bind_some]
              simp only [ih hnext hcounts' hrest s, Option.map_some]

end Recovered

/-- **The bytes of a message are read as its content**, whatever follows them. -/
theorem scan_of_shows {rt : Runtime} {st : Store} (hrt : rt.Sound) (n : Nat) :
    ∀ {x : Id} {c : Cell} {ct : Content}, Shows true rt st n x ct → WellTyped rt st x →
      ListsFit rt st x → st.cell? x = some c → Recovers (scan rt n c.plan) ct := by
  obtain ⟨rank, hrank⟩ := hrt.ranked
  induction n with
  | zero =>
      intro x c ct h
      exact h.elim
  | succ n ih =>
      intro x c ct h hx hfit hc s
      obtain ⟨p, c', hc', hcell⟩ := hx.cell
      obtain rfl := Option.some.inj (hc.symm.trans hc')
      have hp := hrt.plan hcell.plan
      obtain ⟨n', parts, hn, rfl, hshows⟩ := h.steps hc hcell.plan
      obtain rfl := Nat.succ.inj hn
      have hmake : ∀ id d, id ∈ c.children → st.cell? id = some d →
          makeable rt (rt.plans.size + 1) d.plan = true := by
        intro id d hid hd
        have hchild := hx.child hc hid
        obtain ⟨q, d', hd', hdcell⟩ := hchild.cell
        rw [hd] at hd'
        obtain rfl := Option.some.inj hd'
        have hlt := (hrank _ q hdcell.plan).1
        exact hchild.makeable hrt hrank _ hd (by omega)
      have hinner : ∀ f ∈ p.fields, f.serialized = true → ∀ v, c.value? f.name = some v →
          ∀ id ∈ v.ids, InnerRecovers rt st (scan rt n) (Shows true rt st n) id := by
        intro f hf hser v hv id hid ct d hshow hd
        have hmem := Cell.ids_subset_children hv hid
        refine ⟨ih hshow (hx.child hc hmem) ?_ hd, hmake id d hmem hd⟩
        intro z q e g hz
        exact hfit z q e g (.field hc hcell.plan hf hser hv hid hz)
      have hlist : ∀ f ∈ p.fields, f.serialized = true → f.shape = .variableList →
          (c.list f.name).length ≤ maxListLength :=
        fun f hf => hfit x p c f (.self x) (planOf?_eq.mpr ⟨c, hc, hcell.plan⟩) hc hf
      have hstart : Counting p c [] [] := fun k hk => absurd hk List.not_mem_nil
      have hsteps : scanSteps rt (scan rt n) p [] p.decode (Content.allBytes parts ++ s) =
          some (parts, s) := by
        rw [hp.decode, Plan.parentSteps] at hshows ⊢
        cases hhas : p.hasParent with
        | false =>
            rw [hhas] at hshows
            exact scanSteps_recovers hrt hcell.plan hcell hinner hlist p.fields rfl hstart hshows s
        | true =>
            rw [hhas] at hshows
            cases hshows with
            | cons hshow hrest =>
                rename_i ct parts
                obtain ⟨q, hq, hqshow⟩ := hshow
                have hparent := hcell.parent
                rw [hq] at hparent
                obtain ⟨d, hd, hlink⟩ := hparent
                have hscan := ih hqshow (hx.child hc (Cell.parent_mem_children hq))
                  (fun z q e g hz => hfit z q e g (.parent hc hq hz)) hd
                  (Content.allBytes parts ++ s)
                have hown := scanSteps_recovers hrt hcell.plan hcell hinner hlist p.fields rfl
                  hstart hrest s
                simp only [if_true, List.singleton_append, scanSteps, scanStep, hlink,
                  Option.bind_some, Content.allBytes_cons, List.append_assoc, hscan,
                  Option.map_some, hown]
      simp only [scan, hcell.plan, Option.bind_some, Content.bytes_group, hsteps, Option.map_some]

/-! ## Deep enough -/

/-- What a scanner reads from fewer than `k` bytes another one reads as well. -/
def Refines {α : Type} (k : Nat) (scanner scanner' : Scanner α) : Prop :=
  ∀ bs r, bs.length < k → scanner bs = some r → scanner' bs = some r

section Deep

variable {rt : Runtime} {inner inner' : Nat → Scanner Content} {p : Plan} {k : Nat}

theorem scanMany_refines {item item' : Scanner Content} (hexact : Exact item)
    (h : Refines k item item') (n : Nat) : Refines k (scanMany item n) (scanMany item' n) := by
  induction n with
  | zero => exact fun bs r _ hscan => hscan
  | succ n ih =>
      intro bs r hlt hscan
      simp only [scanMany, Option.bind_eq_some_iff, Option.map_eq_some_iff] at hscan ⊢
      obtain ⟨⟨ct, bs₁⟩, hfirst, rs, hrest, heq⟩ := hscan
      have hbytes := congrArg List.length (hexact bs ct bs₁ hfirst)
      rw [List.length_append] at hbytes
      exact ⟨(ct, bs₁), h bs _ hlt hfirst, rs, ih bs₁ rs (by omega) hrest, heq⟩

theorem scanType_refines {type : String}
    (h : ∀ j, rt.position? type = some j → Refines k (inner j) (inner' j)) :
    Refines k (scanType rt inner type) (scanType rt inner' type) := by
  intro bs r hlt hscan
  simp only [scanType, Option.bind_eq_some_iff] at hscan ⊢
  obtain ⟨j, hj, hscan⟩ := hscan
  exact ⟨j, hj, h j hj bs r hlt hscan⟩

theorem scanElement_refines {e : Element}
    (h : ∀ type j, e = .message type → rt.position? type = some j →
      Refines k (inner j) (inner' j)) :
    Refines k (scanElement rt inner e) (scanElement rt inner' e) := by
  cases e with
  | primitive t => exact fun bs r _ hscan => hscan
  | message type => exact scanType_refines fun j hj => h type j rfl hj

theorem scanNewElement_refines {e : Element}
    (h : ∀ type j, e = .message type → rt.position? type = some j →
      Refines k (inner j) (inner' j)) :
    Refines k (scanNewElement rt inner e) (scanNewElement rt inner' e) := by
  cases e with
  | primitive t => exact fun bs r _ hscan => hscan
  | message type =>
      refine scanType_refines fun j hj bs r hlt hscan => ?_
      split at hscan
      · rename_i hmake
        rw [if_pos hmake]
        exact h type j rfl hj bs r hlt hscan
      · cases hscan

/-- Messages held by value are read from at most as many bytes as there are, elements of a list
from fewer: their count was read before. -/
theorem scanStep_refines (hp : p.Sound) (hexact : ∀ j, Exact (inner j))
    (hvalue : ∀ j, rt.Contains p j → Refines (k + 1) (inner j) (inner' j))
    (hlist : ∀ f ∈ p.fields, ∀ type j, f.elem = .message type → rt.position? type = some j →
      Refines k (inner j) (inner' j))
    {counts : Counts} {step : DecodeStep} (hstep : step ∈ p.decode) {bs : List UInt8}
    {r : (Content × Counts) × List UInt8} (hle : bs.length < k + 1)
    (hlt : counts ≠ [] → bs.length < k) (h : scanStep rt inner p counts step bs = some r) :
    scanStep rt inner' p counts step bs = some r := by
  rcases (mem_decode hp).mp hstep with ⟨-, rfl⟩ | ⟨f, hf, -, rfl⟩
  · simp only [scanStep, Option.map_eq_some_iff, Option.bind_eq_some_iff] at h ⊢
    obtain ⟨rs, ⟨j, hj, hscan⟩, heq⟩ := h
    exact ⟨rs, ⟨j, hj, hvalue j (.inl hj) bs rs hle hscan⟩, heq⟩
  · have hheld : f.shape ≠ .variableList → ∀ type j, f.elem = .message type →
        rt.position? type = some j → Refines (k + 1) (inner j) (inner' j) :=
      fun hshape type j helem hj => hvalue j (.inr ⟨f, hf, hshape, type, helem, hj⟩)
    cases hp.field f hf with
    | number t hshape helem hstored =>
        rw [Field.step_number hshape helem hstored] at h ⊢
        exact h
    | count t l hshape helem hunstored =>
        rw [Field.step_count hshape helem hunstored] at h ⊢
        exact h
    | reference type hshape helem =>
        simp only [Field.step_reference hshape, helem, scanStep, Option.map_eq_some_iff] at h ⊢
        obtain ⟨rs, hscan, heq⟩ := h
        have hrefines := scanType_refines fun j hj => hheld (by simp [hshape]) type j helem hj
        exact ⟨rs, hrefines bs rs hle hscan, heq⟩
    | fixedList n hshape =>
        simp only [Field.step_fixedList hshape, scanStep, Option.map_eq_some_iff] at h ⊢
        obtain ⟨rs, hscan, heq⟩ := h
        have hitem := scanElement_refines (hheld (by simp [hshape]))
        exact ⟨rs, scanMany_refines (scanElement_exact hexact _) hitem _ bs rs hle hscan, heq⟩
    | variableList c hshape =>
        simp only [Field.step_variableList hshape, scanStep, Option.bind_eq_some_iff] at h ⊢
        obtain ⟨n, hn, h⟩ := h
        have hcounts : counts ≠ [] := by
          rintro rfl
          cases hn
        refine ⟨n, hn, ?_⟩
        split at h
        · rename_i hmax
          rw [Option.map_eq_some_iff] at h
          obtain ⟨rs, hscan, heq⟩ := h
          have hitem := scanNewElement_refines (hlist f hf)
          rw [if_pos hmax, Option.map_eq_some_iff]
          exact ⟨rs, scanMany_refines (scanNewElement_exact hexact _) hitem _ bs rs (hlt hcounts)
            hscan, heq⟩
        · cases h

theorem scanSteps_refines (hp : p.Sound) (hexact : ∀ j, Exact (inner j))
    (hvalue : ∀ j, rt.Contains p j → Refines (k + 1) (inner j) (inner' j))
    (hlist : ∀ f ∈ p.fields, ∀ type j, f.elem = .message type → rt.position? type = some j →
      Refines k (inner j) (inner' j)) (steps : List DecodeStep) :
    ∀ {counts : Counts} {bs : List UInt8} {r : List Content × List UInt8}, steps ⊆ p.decode →
      bs.length < k + 1 → (counts ≠ [] → bs.length < k) →
      scanSteps rt inner p counts steps bs = some r →
      scanSteps rt inner' p counts steps bs = some r := by
  induction steps with
  | nil =>
      intro counts bs r _ _ _ h
      exact h
  | cons step steps ih =>
      intro counts bs r hsub hle hlt h
      simp only [scanSteps, Option.bind_eq_some_iff, Option.map_eq_some_iff] at h ⊢
      obtain ⟨⟨⟨ct, counts'⟩, bs₁⟩, hfirst, rs, hrest, heq⟩ := h
      have hbytes := congrArg List.length (scanStep_bytes hexact hfirst)
      rw [List.length_append] at hbytes
      have hlt' : counts' ≠ [] → bs₁.length < k := by
        intro hcounts
        rcases scanStep_counts hfirst with rfl | ⟨f, list, t, s, -, rfl, -⟩
        · have := hlt hcounts
          omega
        · have hpos := Wire.bytes_pos s.kind
          rw [Content.bytes_number, Wire.length_scalarBytes] at hbytes
          omega
      have hle' : bs₁.length < k + 1 := by omega
      exact ⟨_, scanStep_refines hp hexact hvalue hlist (hsub List.mem_cons_self) hle hlt hfirst,
        rs, ih (fun _ hs => hsub (List.mem_cons_of_mem _ hs)) hle' hlt' hrest, heq⟩

end Deep

/-- **A depth that grows with the number of bytes suffices.**  Between two elements of lists, which
take a byte each, messages nest as deep as there are plans. -/
theorem scan_depth {rt : Runtime} (hrt : rt.Sound) {rank : Nat → Nat} (hrank : rt.Ranked rank)
    (n : Nat) : ∀ {m i k : Nat}, k * (rt.plans.size + 1) + rank i < m →
      Refines (k + 1) (scan rt n i) (scan rt m i) := by
  induction n with
  | zero =>
      intro m i k _ bs r _ h
      cases h
  | succ n ih =>
      intro m i k hm bs r hlen h
      obtain ⟨m, rfl⟩ : ∃ l, m = l + 1 := ⟨m - 1, by omega⟩
      simp only [scan, Option.bind_eq_some_iff, Option.map_eq_some_iff] at h ⊢
      obtain ⟨p, hp, rs, hsteps, heq⟩ := h
      obtain ⟨-, hfall⟩ := hrank i p hp
      refine ⟨p, hp, rs, ?_, heq⟩
      refine scanSteps_refines (k := k) (hrt.plan hp) (scan_bytes rt n) ?_ ?_ p.decode
        (fun _ hs => hs) hlen (fun hne => absurd rfl hne) hsteps
      · intro j hj
        have := hfall j hj
        exact ih (by omega)
      · intro f hf type j helem hj
        obtain ⟨q, hq, -⟩ := hrt.position hj
        have hsmall := (hrank j q hq).1
        cases k with
        | zero => exact fun bs r hlt => absurd hlt (Nat.not_lt_zero _)
        | succ k =>
            refine ih ?_
            rw [Nat.succ_mul] at hm
            omega

end WireSchema.Message
