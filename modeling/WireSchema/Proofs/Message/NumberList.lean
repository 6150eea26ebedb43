import Mathlib
import WireSchema.Proofs.Message.Decode
import WireSchema.Proofs.Wire.Reader

/-!
# Lists of numbers are read whole or not at all

The length of a variable list comes from the bytes that are read, so it can be any word; a negative
count is a large one.  Before anything is read the reader vets it: no list may be longer than
`maxListLength`, and the bytes of its elements must be there.  The product is taken in machine words
and does not wrap, since the first bound holds where the second is asked.  After that no element can
fail, so the check behind each of them never leaves the loop early, and the list is replaced as a
whole.

## Main results

* `Reader.count_eq` — which lengths are accepted, in unbounded numbers.
* `not_fits_of_negative` — a negative count is refused.
* `breaks_iff` — the loop is left early exactly if an element fails.
* `readElements_eq` — where the bytes are there, all elements are read.
* `variableList_all_or_nothing` — what a variable list of numbers does to a message.
-/

namespace WireSchema

/-! ## Vetting a length -/

namespace Wire.Reader

/-- A list of `n` elements of `w` bytes can follow: lists may be so long, and the bytes are
there. -/
def Fits (r : Reader) (n w : Nat) : Prop := n ≤ 2 ^ 24 ∧ n * w ≤ r.remaining

/-- The error of a length that is refused. -/
def refusal (r : Reader) (n w : Nat) : ReadError := .shortList n w r.offset r.remaining

/-- **A length is accepted exactly if such a list can follow.** -/
theorem count_eq {r : Reader} (hok : r.error? = none) (n : UInt64) {w : Nat} (hw : w ≤ 8) :
    (r.Fits n.toNat w → r.count n w = (n.toNat, r)) ∧
      (¬ r.Fits n.toNat w →
        r.count n w = (0, { r with error? := some (r.refusal n.toNat w) })) := by
  have hlimit : maxListLength = 2 ^ 24 := rfl
  have hrefused : (maxListLength < n.toNat ∨
      ((0 : Int) < w ∧ r.remaining < (n * UInt64.ofInt w).toNat)) ↔ ¬ r.Fits n.toNat w := by
    unfold Fits
    rw [hlimit]
    by_cases hn : n.toNat ≤ 2 ^ 24
    · rw [Message.toNat_mul_width (hlimit ▸ hn) hw]
      rcases Nat.eq_zero_or_pos w with rfl | hpos
      · simp
      · omega
    · omega
  rw [count, hok]
  dsimp only
  refine ⟨fun hfits => if_neg fun h => hrefused.mp h hfits, fun hfits => ?_⟩
  rw [if_pos (hrefused.mpr hfits)]
  rfl

end Wire.Reader

/-- A negative number is a large word. -/
theorem Scalar.toWord_of_negative {c : Scalar} (hneg : c.toInt < 0) :
    2 ^ 63 ≤ c.toWord.toNat := by
  have hword := Wire.toNat_toWord c
  unfold Scalar.toInt at hneg
  cases hsigned : c.kind.isSigned with
  | false =>
      rw [hsigned, if_neg Bool.false_ne_true] at hneg
      omega
  | true =>
      have hpow : 2 ^ c.kind.bits ≤ 2 ^ 64 :=
        Nat.pow_le_pow_right (by decide) (Wire.bits_le c.kind)
      rw [hsigned, if_pos rfl, BitVec.toInt_eq_toNat_cond] at hneg
      have hlt : c.bits.toNat < 2 ^ c.kind.bits := c.bits.isLt
      have hhigh : 2 ^ c.kind.bits ≤ 2 * c.pattern := by
        unfold Scalar.pattern
        by_contra hlow
        rw [if_pos (by omega)] at hneg
        omega
      rw [if_pos ⟨hsigned, hhigh⟩] at hword
      omega

/-- A negative count is refused. -/
theorem Scalar.not_fits_of_negative {c : Scalar} (hneg : c.toInt < 0) (r : Wire.Reader) (w : Nat) :
    ¬ r.Fits c.toWord.toNat w := by
  have hlarge := c.toWord_of_negative hneg
  rintro ⟨hn, -⟩
  omega

namespace Message

open Wire (Reader)

/-! ## Reading the elements -/

/-- While `n` numbers are read, the check behind one of them leaves the loop early. -/
inductive Breaks (k : Kind) : (n : Nat) → Input → Prop where
  | here {n : Nat} {s t : Input} {v : Scalar} (read : readScalar k s = (.ok v, t))
      (failed : readFailed t = (.ok true, t)) : Breaks k (n + 1) s
  | later {n : Nat} {s t : Input} {v : Scalar} (read : readScalar k s = (.ok v, t))
      (going : readFailed t = (.ok false, t)) (breaks : Breaks k n t) : Breaks k (n + 1) s

/-- The first `n` numbers of a kind in some bytes, one behind the other. -/
def numbersIn (k : Kind) (n : Nat) (bytes : List UInt8) : List Scalar :=
  (List.range n).map fun i => Wire.scalarOfBytes k ((bytes.drop (i * k.bytes)).take k.bytes)

theorem length_numbersIn (k : Kind) (n : Nat) (bytes : List UInt8) :
    (numbersIn k n bytes).length = n := by
  rw [numbersIn, List.length_map, List.length_range]

theorem numbersIn_succ (k : Kind) (n : Nat) (bytes : List UInt8) :
    numbersIn k (n + 1) bytes =
      Wire.scalarOfBytes k (bytes.take k.bytes) :: numbersIn k n (bytes.drop k.bytes) := by
  rw [numbersIn, List.range_succ_eq_map, List.map_cons, List.map_map, Nat.zero_mul, List.drop_zero,
    numbersIn]
  congr 1
  refine List.map_congr_left fun i _ => ?_
  rw [Function.comp_apply, List.drop_drop, Nat.succ_mul, Nat.add_comm]

section Elements

variable {k : Kind} {n : Nat} {s : Input}

/-- Reading a number always ends. -/
theorem readScalar_ok (k : Kind) (s : Input) :
    readScalar k s = (.ok (s.reader.scalar k).1, ⟨s.store, (s.reader.scalar k).2⟩) := rfl

/-- An element that fails is the last one. -/
theorem readElements_stop (n : Nat) {e : Wire.ReadError}
    (hfailed : (s.reader.scalar k).2.error? = some e) : readElements k (n + 1) s =
      (.ok [.scalar (s.reader.scalar k).1], ⟨s.store, (s.reader.scalar k).2⟩) := by
  rw [readElements, Action.run_bind_ok (readScalar_ok k s),
    Action.run_bind_ok (readFailed_run _), hfailed]
  rfl

/-- An element before others. -/
theorem readElements_next (hok : (s.reader.scalar k).2.error? = none) {items : List Item}
    {t : Input} (hrest : readElements k n ⟨s.store, (s.reader.scalar k).2⟩ = (.ok items, t)) :
    readElements k (n + 1) s = (.ok (.scalar (s.reader.scalar k).1 :: items), t) := by
  rw [readElements, Action.run_bind_ok (readScalar_ok k s),
    Action.run_bind_ok (readFailed_run _), hok]
  exact Action.run_bind_ok hrest

/-- **The loop is left early exactly if an element fails.** -/
theorem breaks_iff (n : Nat) : ∀ {s : Input}, s.reader.error? = none →
    (Breaks k n s ↔ (readElements k n s).2.reader.error? ≠ none) := by
  induction n with
  | zero =>
      intro s hok
      exact ⟨fun h => (nomatch h), fun h => absurd hok h⟩
  | succ n ih =>
      intro s hok
      have hread := readScalar_ok k s
      have hcheck := readFailed_run ⟨s.store, (s.reader.scalar k).2⟩
      cases herr : (s.reader.scalar k).2.error? with
      | some e =>
          rw [readElements_stop n herr, herr]
          dsimp only at hcheck
          rw [herr] at hcheck
          exact ⟨fun _ => Option.some_ne_none e, fun _ => .here hread hcheck⟩
      | none =>
          obtain ⟨items, r, hrest, -⟩ := readElements_takes (fun _ _ => False) ⟨"", k⟩ n
            ⟨s.store, (s.reader.scalar k).2⟩
          have hiff := ih (s := ⟨s.store, (s.reader.scalar k).2⟩) herr
          rw [hrest] at hiff
          rw [readElements_next herr hrest, ← hiff]
          dsimp only at hcheck
          rw [herr] at hcheck
          refine ⟨fun h => ?_, .later hread hcheck⟩
          cases h with
          | here read failed =>
              cases read.symm.trans hread
              cases failed.symm.trans hcheck
          | later read going breaks =>
              cases read.symm.trans hread
              exact breaks

/-- A number whose bytes are there. -/
theorem scalar_eq {r : Reader} (hok : r.error? = none) (hfits : k.bytes ≤ r.rest.length) :
    r.scalar k = (Wire.scalarOfBytes k (r.rest.take k.bytes),
      ⟨r.offset + k.bytes, r.rest.drop k.bytes, none⟩) := by
  rw [Reader.scalar, Reader.take, hok]
  dsimp only
  rw [Reader.splitAt?_eq, if_pos hfits]

/-- **Where the bytes are there, all elements are read.** -/
theorem readElements_eq (n : Nat) : ∀ {s : Input}, s.reader.error? = none →
    n * k.bytes ≤ s.reader.rest.length → readElements k n s =
      (.ok ((numbersIn k n s.reader.rest).map .scalar), ⟨s.store,
        s.reader.offset + n * k.bytes, s.reader.rest.drop (n * k.bytes), none⟩) := by
  induction n with
  | zero =>
      intro s hok _
      obtain ⟨st, offset, rest, _⟩ := s
      obtain rfl := hok
      rw [Nat.zero_mul]
      rfl
  | succ n ih =>
      intro s hok hfits
      rw [Nat.succ_mul] at hfits
      have hread := scalar_eq (k := k) hok (by omega)
      have hrest := ih (s := ⟨s.store, (s.reader.scalar k).2⟩) (by rw [hread])
        (by rw [hread, List.length_drop]; omega)
      rw [readElements_next (by rw [hread]) hrest, hread, numbersIn_succ, List.map_cons,
        List.drop_drop, Nat.succ_mul, Nat.add_comm (n * k.bytes), Nat.add_assoc]

end Elements

/-! ## A whole list -/

/-- **A variable list of numbers is read whole or not at all.**  Whatever word its count is, the
reader accepts it exactly if such a list can follow.  If not, the reader fails where it stands and
nothing changes.  If so, the list is replaced by that many numbers, read from the bytes that come
next, and the loop that reads them is not left early. -/
theorem variableList_all_or_nothing (rt : Runtime) (fill : Id → Fill Unit) (id : Id)
    (counts : Counts) (field count : String) (t : Primitive) {n : UInt64}
    (hcount : counts.lookup count = some n) {s : Input} (hok : s.reader.error? = none) :
    let fits := s.reader.Fits n.toNat t.wireBytes
    let vetted := s.reader.count n t.wireBytes
    let step := decodeStep rt fill id counts (.variableList field (.primitive t) count) s
    (vetted.1 = n.toNat ∧ vetted.2.error? = none ↔ fits) ∧
    (¬ fits → (∃ e, vetted = (0, { s.reader with error? := some e }) ∧ e.isShort = true) ∧
      step = (.ok counts, ⟨s.store, vetted.2⟩)) ∧
    (fits → vetted = (n.toNat, s.reader) ∧
      (∃ items, items.length = n.toNat ∧ items = numbersIn t.kind n.toNat s.reader.rest ∧
        step = (.ok counts, ⟨s.store.put id field (.list (items.map .scalar)),
          s.reader.offset + n.toNat * t.wireBytes, s.reader.rest.drop (n.toNat * t.wireBytes),
          none⟩)) ∧
      ¬ Breaks t.kind n.toNat s) ∧
    ∀ c : Scalar, c.toWord = n → c.toInt < 0 → ¬ fits := by
  intro fits vetted step
  obtain ⟨haccept, hrefuse⟩ := Reader.count_eq hok n (Wire.bytes_le t.kind)
  have hcounted : readCount n (listWidth (.primitive t)) s =
      (.ok vetted.1, ⟨s.store, vetted.2⟩) := rfl
  have hstep : ∀ u, readList rt fill id field (.primitive t) n s = (.ok (), u) →
      step = (.ok counts, u) := by
    intro u hlist
    simp only [step, decodeStep, hcount]
    exact Action.run_bind_ok hlist
  rw [readList_eq] at hstep
  refine ⟨⟨fun haccepted => ?_, fun hfits => ?_⟩, fun hfits => ?_, fun hfits => ?_, ?_⟩
  · by_contra hfits
    have hclean := haccepted.2
    rw [show vetted = _ from hrefuse hfits] at hclean
    cases hclean
  · rw [show vetted = _ from haccept hfits]
    exact ⟨rfl, hok⟩
  · have hvetted : vetted = _ := hrefuse hfits
    refine ⟨⟨_, hvetted, rfl⟩, hstep _ ?_⟩
    rw [Action.run_bind_ok hcounted, Action.run_bind_ok (readFailed_run _), hvetted]
    rfl
  · have hvetted : vetted = _ := haccept hfits
    have hread := readElements_eq (k := t.kind) n.toNat hok hfits.2
    refine ⟨hvetted, ⟨_, length_numbersIn _ _ _, rfl, hstep _ ?_⟩, ?_⟩
    · rw [Action.run_bind_ok hcounted, hvetted, Action.run_bind_ok (readFailed_run _), hok]
      exact Action.run_bind_ok hread
    · rw [breaks_iff n.toNat hok, hread]
      exact fun h => h rfl
  · rintro c rfl hneg
    exact c.not_fits_of_negative hneg _ _

/-- Two short integers are read, and the byte behind them is left. -/
theorem variableList_all_or_nothing_shorts :
    [("n", (2 : UInt64))].lookup "n" = some 2 ∧
      decodeStep (.ofPlans []) (fun _ => pure ()) 0 [("n", 2)]
        (.variableList "marks" (.primitive ⟨"short", .int16⟩) "n")
        ⟨⟨#[⟨0, none, [("marks", .list [])]⟩]⟩, .ofBytes [0, 1, 0xff, 0xfe, 7]⟩ =
      (.ok [("n", 2)], ⟨⟨#[⟨0, none, [("marks", .list [.scalar (.ofPattern .int16 1),
        .scalar (.ofPattern .int16 0xfffe)])]⟩]⟩, ⟨4, [7], none⟩⟩) := by
  obtain ⟨-, -, hread, -⟩ := variableList_all_or_nothing (.ofPlans []) (fun _ => pure ()) 0
    [("n", 2)] "marks" "n" ⟨"short", .int16⟩ (n := 2) rfl
    (s := ⟨⟨#[⟨0, none, [("marks", .list [])]⟩]⟩, .ofBytes [0, 1, 0xff, 0xfe, 7]⟩) rfl
  obtain ⟨-, ⟨items, -, rfl, hstep⟩, -⟩ := hread ⟨by decide, by decide⟩
  exact ⟨rfl, hstep⟩

end Message

end WireSchema
