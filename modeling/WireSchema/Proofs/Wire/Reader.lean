import Mathlib
import WireSchema.Proofs.Wire.Bytes

/-!
# A reader stops at its first failure

Whatever is asked of a reader, and in whatever order, it stands at a place of its buffer, behind the
bytes of the reads that succeeded.  A read succeeds just if nothing failed before and its bytes are
there, and then it is answered from exactly these bytes.  From the first failure on every operation
has a blank answer and leaves the reader as it is, so that a caller may ask for the error once, at
the end.

`Op` is what can be asked of a reader, `perform` answers it, and `run` answers a list.  A typed read
and a read into a buffer take bytes, `Op.width?` many; a count and a report of an error take none.

## Main results

* `performed` — the five ways in which an operation is answered.
* `At.run` — a run leaves a reader behind the bytes of the reads that succeeded.
* `run_stopped` — a reader that failed stays as it is.
* `reads_until_failure` — all of it, at every operation of every run.
-/

namespace WireSchema.Wire

/-- Big-endian bytes are the digits of their number in base 256, the last one first. -/
theorem ofBigEndian_eq_ofDigits (bs : List UInt8) :
    ofBigEndian bs = Nat.ofDigits 256 (bs.reverse.map UInt8.toNat) := by
  induction bs using List.reverseRecOn with
  | nil => rfl
  | append_singleton bs b ih =>
      rw [ofBigEndian_append, ih, List.reverse_append, List.reverse_singleton,
        List.singleton_append, List.map_cons, Nat.ofDigits_cons, Nat.add_comm, Nat.mul_comm]

namespace Reader

theorem splitAt?_eq {α : Type} (n : Nat) (xs : List α) :
    splitAt? n xs = if n ≤ xs.length then some (xs.take n, xs.drop n) else none := by
  induction n generalizing xs with
  | zero => rfl
  | succ n ih =>
      cases xs with
      | nil => rfl
      | cons x xs =>
          rw [splitAt?, ih]
          by_cases hn : n ≤ xs.length
          · rw [if_pos hn, if_pos (by simpa using hn)]
            rfl
          · rw [if_neg hn, if_neg (by simpa using hn)]
            rfl

/-! ## Operations -/

/-- What can be asked of a reader. -/
inductive Op where
  /-- The next number of a kind. -/
  | number (k : Kind)
  /-- As many bytes as a buffer has. -/
  | data (buffer : List UInt8)
  /-- Whether a list of `n` elements can follow. -/
  | count (n : UInt64) (width : Int)
  /-- Reports an error of the caller, or none. -/
  | setError (e? : Option ReadError)
  deriving DecidableEq, Repr

/-- What a reader answers. -/
inductive Answer where
  | number (s : Scalar)
  | data (bytes : List UInt8)
  | count (n : Nat)
  | none
  deriving DecidableEq, Repr

namespace Op

/-- How many bytes an operation reads; nothing if it is no read. -/
def width? : Op → Option Nat
  | .number k => some k.bytes
  | .data buffer => some buffer.length
  | .count .. | .setError _ => none

/-- The answer that is given without reading: zero, or the buffer as it was. -/
def blank : Op → Answer
  | .number k => .number (.zero k)
  | .data buffer => .data buffer
  | .count .. => .count 0
  | .setError _ => .none

end Op

/-- The answer of a read to the bytes it took: the number of a kind with their pattern, whether or
not it is signed or floating point, or the bytes themselves. -/
inductive Returns : Op → List UInt8 → Answer → Prop where
  | number (s : Scalar) (window : List UInt8)
      (digits : s.pattern = Nat.ofDigits 256 (window.reverse.map UInt8.toNat)) :
      Returns (.number s.kind) window (.number s)
  | data (buffer window : List UInt8) : Returns (.data buffer) window (.data window)

/-- Answers an operation. -/
def perform (r : Reader) : Op → Answer × Reader
  | .number k => (r.scalar k).map .number id
  | .data buffer => (r.data buffer).map .data id
  | .count n width => (r.count n width).map .count id
  | .setError e? => (.none, (e?.map r.setError).getD r)

/-- Answers operations in order. -/
def run (r : Reader) : List Op → List Answer × Reader
  | [] => ([], r)
  | op :: ops => (((r.perform op).2.run ops).map (((r.perform op).1) :: ·) id)

/-- How many bytes are taken by those reads of a run that succeed: they leave no error. -/
def taken (r : Reader) : List Op → Nat
  | [] => 0
  | op :: ops =>
      (if (r.perform op).2.error? = none then op.width?.getD 0 else 0) + (r.perform op).2.taken ops

/-- A reader stands at a place of a buffer. -/
structure At (bytes : List UInt8) (r : Reader) : Prop where
  offset_le : r.offset ≤ bytes.length
  rest : r.rest = bytes.drop r.offset

theorem at_ofBytes (bytes : List UInt8) : At bytes (ofBytes bytes) := ⟨Nat.zero_le _, rfl⟩

/-! ## One operation -/

/-- How a reader at a place of a buffer answers an operation, and what it leaves behind. -/
inductive Performed (bytes : List UInt8) (r : Reader) (op : Op) : Answer → Reader → Prop where
  /-- It failed before. -/
  | stopped (e : ReadError) (failed : r.error? = some e) : Performed bytes r op op.blank r
  /-- The bytes of a read are there. -/
  | read (w : Nat) (answer : Answer) (ok : r.error? = none) (reads : op.width? = some w)
      (fits : w ≤ bytes.length - r.offset)
      (returns : Returns op ((bytes.drop r.offset).take w) answer) :
      Performed bytes r op answer ⟨r.offset + w, bytes.drop (r.offset + w), none⟩
  /-- The bytes of a read are not there. -/
  | short (w : Nat) (e : ReadError) (ok : r.error? = none) (reads : op.width? = some w)
      (short : bytes.length - r.offset < w) :
      Performed bytes r op op.blank { r with error? := some e }
  /-- Nothing is read. -/
  | other (answer : Answer) (ok : r.error? = none) (reads : op.width? = none) :
      Performed bytes r op answer r
  /-- Nothing is read, and a count is refused or an error reported. -/
  | refused (e : ReadError) (ok : r.error? = none) (reads : op.width? = none) :
      Performed bytes r op op.blank { r with error? := some e }

section Step

variable {bytes : List UInt8} {r : Reader} {op : Op} {w : Nat}

/-- A reader that failed gives blank answers and stays as it is. -/
theorem perform_stopped {e : ReadError} (h : r.error? = some e) (op : Op) :
    r.perform op = (op.blank, r) := by
  obtain ⟨offset, rest, error?⟩ := r
  obtain rfl : error? = some e := h
  cases op with
  | number k => rfl
  | data buffer => rfl
  | count n width => rfl
  | setError e? => cases e? <;> rfl

theorem take_eq (h : At bytes r) (hok : r.error? = none) (n : Nat) :
    r.take n =
      if n ≤ bytes.length - r.offset then
        (some ((bytes.drop r.offset).take n), ⟨r.offset + n, bytes.drop (r.offset + n), none⟩)
      else (none, { r with error? := some (.short n r.offset r.remaining) }) := by
  rw [take, hok]
  dsimp only
  rw [splitAt?_eq, h.rest, List.length_drop, List.drop_drop]
  by_cases hn : n ≤ bytes.length - r.offset
  · rw [if_pos hn, if_pos hn]
  · rw [if_neg hn, if_neg hn]

theorem performed_number (h : At bytes r) (hok : r.error? = none) (k : Kind) :
    Performed bytes r (.number k) (r.perform (.number k)).1 (r.perform (.number k)).2 := by
  by_cases hfit : k.bytes ≤ bytes.length - r.offset
  · have htake : r.take k.bytes = _ := (take_eq h hok _).trans (if_pos hfit)
    have hlen : ((bytes.drop r.offset).take k.bytes).length = k.bytes := by
      rw [List.length_take, List.length_drop, Nat.min_eq_left hfit]
    have hlt := ofBigEndian_lt ((bytes.drop r.offset).take k.bytes)
    rw [hlen, ← two_pow_bits] at hlt
    rw [perform, scalar, htake]
    refine .read k.bytes _ hok rfl hfit (.number (scalarOfBytes k _) _ ?_)
    rw [← ofBigEndian_eq_ofDigits, scalarOfBytes, pattern_ofPattern hlt]
  · have htake : r.take k.bytes = _ := (take_eq h hok _).trans (if_neg hfit)
    rw [perform, scalar, htake]
    exact .short k.bytes _ hok rfl (by omega)

theorem performed_data (h : At bytes r) (hok : r.error? = none) (buffer : List UInt8) :
    Performed bytes r (.data buffer) (r.perform (.data buffer)).1 (r.perform (.data buffer)).2 := by
  by_cases hfit : buffer.length ≤ bytes.length - r.offset
  · have htake : r.take buffer.length = _ := (take_eq h hok _).trans (if_pos hfit)
    rw [perform, data, htake]
    exact .read buffer.length _ hok rfl hfit (.data buffer _)
  · have htake : r.take buffer.length = _ := (take_eq h hok _).trans (if_neg hfit)
    rw [perform, data, htake]
    exact .short buffer.length _ hok rfl (by omega)

theorem performed_count (hok : r.error? = none) (n : UInt64) (width : Int) :
    Performed bytes r (.count n width) (r.perform (.count n width)).1
      (r.perform (.count n width)).2 := by
  rw [perform, count, hok]
  dsimp only
  split
  · exact .refused _ hok rfl
  · exact .other _ hok rfl

/-- **How a reader answers an operation**, and what it leaves behind. -/
theorem performed (h : At bytes r) (op : Op) :
    Performed bytes r op (r.perform op).1 (r.perform op).2 := by
  cases hok : r.error? with
  | some e =>
      rw [perform_stopped hok]
      exact .stopped e hok
  | none =>
      cases op with
      | number k => exact performed_number h hok k
      | data buffer => exact performed_data h hok buffer
      | count n width => exact performed_count hok n width
      | setError e? =>
          cases e? with
          | none => exact .other _ hok rfl
          | some e =>
              rw [perform, Option.map_some, setError, hok]
              exact .refused e hok rfl

end Step

/-! ## What an operation keeps -/

namespace Performed

variable {bytes : List UInt8} {r next : Reader} {op : Op} {answer : Answer} {w : Nat}

/-- Every operation leaves a reader at a place of its buffer, behind what it took. -/
theorem stands (hp : Performed bytes r op answer next) (h : At bytes r) :
    At bytes next ∧
      next.offset = r.offset + if next.error? = none then op.width?.getD 0 else 0 := by
  have hle := h.offset_le
  cases hp with
  | stopped e failed => exact ⟨h, by simp [failed]⟩
  | read w answer ok reads fits returns => exact ⟨⟨by dsimp only; omega, rfl⟩, by simp [reads]⟩
  | short w e ok reads short => exact ⟨⟨hle, h.rest⟩, rfl⟩
  | other answer ok reads => exact ⟨h, by simp [reads]⟩
  | refused e ok reads => exact ⟨⟨hle, h.rest⟩, rfl⟩

/-- A read succeeds just if nothing failed before and its bytes are there. -/
theorem ok_iff (hp : Performed bytes r op answer next) (hw : op.width? = some w) :
    next.error? = none ↔ r.error? = none ∧ w ≤ bytes.length - r.offset := by
  cases hp with
  | stopped e failed => simp [failed]
  | read w' answer ok reads fits returns =>
      obtain rfl := Option.some.inj (reads.symm.trans hw)
      simp [ok, fits]
  | short w' e ok reads short =>
      obtain rfl := Option.some.inj (reads.symm.trans hw)
      simp [Nat.not_le.mpr short]
  | other answer ok reads => cases reads.symm.trans hw
  | refused e ok reads => cases reads.symm.trans hw

/-- What a read that succeeds answers, and where it leaves the reader. -/
theorem returned (hp : Performed bytes r op answer next) (hw : op.width? = some w)
    (hok : next.error? = none) :
    Returns op ((bytes.drop r.offset).take w) answer ∧ next.offset = r.offset + w := by
  cases hp with
  | stopped e failed => cases failed.symm.trans hok
  | read w' answer ok reads fits returns =>
      obtain rfl := Option.some.inj (reads.symm.trans hw)
      exact ⟨returns, rfl⟩
  | short w' e ok reads short => cases hok
  | other answer ok reads => cases reads.symm.trans hw
  | refused e ok reads => cases hok

/-- An operation that leaves an error has a blank answer and moves nothing. -/
theorem failed_blank (hp : Performed bytes r op answer next) (hfailed : next.error? ≠ none) :
    answer = op.blank ∧ next.offset = r.offset := by
  cases hp with
  | read w answer ok reads fits returns => exact absurd rfl hfailed
  | other answer ok reads => exact absurd ok hfailed
  | stopped | short | refused => exact ⟨rfl, rfl⟩

end Performed

/-! ## Runs -/

/-- **A run leaves a reader behind the bytes of the reads that succeeded.** -/
theorem At.run {bytes : List UInt8} {r : Reader} (h : At bytes r) (ops : List Op) :
    At bytes (r.run ops).2 ∧ (r.run ops).2.offset = r.offset + r.taken ops := by
  induction ops generalizing r with
  | nil => exact ⟨h, rfl⟩
  | cons op ops ih =>
      obtain ⟨hnext, hoffset⟩ := (performed h op).stands h
      obtain ⟨hlast, hrest⟩ := ih hnext
      refine ⟨hlast, ?_⟩
      calc (r.run (op :: ops)).2.offset
          = (r.perform op).2.offset + (r.perform op).2.taken ops := hrest
        _ = r.offset + r.taken (op :: ops) := by rw [hoffset, taken, Nat.add_assoc]

/-- A reader that failed gives blank answers to whatever follows, and stays as it is. -/
theorem run_stopped {r : Reader} {e : ReadError} (h : r.error? = some e) (ops : List Op) :
    r.run ops = (ops.map Op.blank, r) := by
  induction ops with
  | nil => rfl
  | cons op ops ih => rw [run, perform_stopped h, ih, List.map_cons, Prod.map, id]

/-- **A reader answers what its buffer says and stops at its first failure**, at every operation of
every run. -/
theorem reads_until_failure (bytes : List UInt8) (before : List Op) (op : Op) (later : List Op) :
    let r := ((ofBytes bytes).run before).2
    let answer := (r.perform op).1
    let next := (r.perform op).2
    r.offset = (ofBytes bytes).taken before ∧ r.offset ≤ next.offset ∧
      next.offset ≤ bytes.length ∧
    (∀ w, op.width? = some w →
      (next.error? = none ↔ r.error? = none ∧ w ≤ bytes.length - r.offset) ∧
      (next.error? = none →
        Returns op ((bytes.drop r.offset).take w) answer ∧ next.offset = r.offset + w)) ∧
    (next.error? ≠ none → answer = op.blank ∧ next.offset = r.offset) ∧
    ∀ e, r.error? = some e → r.run (op :: later) = ((op :: later).map Op.blank, r) := by
  intro r answer next
  obtain ⟨hat, hplace⟩ := (at_ofBytes bytes).run before
  have hp : Performed bytes r op answer next := performed hat op
  obtain ⟨hnext, hmoved⟩ := hp.stands hat
  refine ⟨?_, ?_, hnext.offset_le, fun w hw => ⟨hp.ok_iff hw, hp.returned hw⟩, hp.failed_blank,
    fun e he => run_stopped he (op :: later)⟩
  · rw [hplace, ofBytes, Nat.zero_add]
  · rw [hmoved]
    exact Nat.le_add_right _ _

/-- The second read wants four bytes where two are left; what follows is blank. -/
example : (ofBytes [1, 2, 3]).run [.number .int8, .number .uint32, .setError none, .number .uint16,
      .data [7], .count 1 0] =
    ([.number (.ofPattern .int8 1), .number (.zero .uint32), .none, .number (.zero .uint16),
      .data [7], .count 0], ⟨1, [2, 3], some (.short 4 1 2)⟩) := by
  decide

end Reader

end WireSchema.Wire
