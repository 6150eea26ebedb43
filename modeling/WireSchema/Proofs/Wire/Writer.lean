import Mathlib
import WireSchema.Proofs.Wire.Reader
import WireSchema.Wire.Writer

/-!
# What was written is read

A writer holds the bytes of what was written since it was reset last, one piece after the other.  A
reader that is asked for the same pieces in the same order, numbers by their kinds and bytes by how
many there are, answers each of them as it was written, whatever follows in its buffer.

`Piece` is what can be written and `Writer.Op` what can be done with a writer; what counts of a
history is `unreset`.  `AsksFor` relates the operations of a reader to pieces.

## Main results

* `Writer.bytes_run` — what a writer holds after any history.
* `Reader.run_pieces` — pieces in front of a buffer are answered one after the other.
* `reads_written` — both together: what was written since the last reset is read.
-/

namespace WireSchema.Wire

/-! ## Pieces -/

/-- What can be written: a number of any kind, or bytes as they are. -/
inductive Piece where
  | number (s : Scalar)
  | data (bytes : List UInt8)
  deriving DecidableEq, Repr

namespace Piece

/-- How many bytes a piece takes. -/
def width : Piece → Nat
  | .number s => s.kind.bytes
  | .data bytes => bytes.length

/-- The bytes of a piece. -/
def bytes : Piece → List UInt8
  | .number s => scalarBytes s
  | .data bytes => bytes

/-- A piece as a reader answers it. -/
def answer : Piece → Reader.Answer
  | .number s => .number s
  | .data bytes => .data bytes

theorem length_bytes (p : Piece) : p.bytes.length = p.width := by
  cases p with
  | number s => exact length_scalarBytes s
  | data bytes => rfl

end Piece

/-! ## Writing -/

namespace Writer

/-- What can be done with a writer. -/
inductive Op where
  | write (p : Piece)
  /-- Forgets what was written. -/
  | reset
  deriving DecidableEq, Repr

/-- Does one thing. -/
def perform (w : Writer) : Op → Writer
  | .write (.number s) => w.scalar s
  | .write (.data bytes) => w.data bytes
  | .reset => w.reset

/-- Does things in order. -/
def run (w : Writer) (ops : List Op) : Writer := ops.foldl perform w

/-- The pieces that no reset follows. -/
def unreset : List Op → List Piece
  | [] => []
  | .write p :: ops => if .reset ∈ ops then unreset ops else p :: unreset ops
  | .reset :: ops => unreset ops

theorem bytes_write (w : Writer) (p : Piece) :
    (w.perform (.write p)).bytes = w.bytes ++ p.bytes := by
  cases p with
  | number s => exact bytes_scalar w s
  | data bytes => exact bytes_data w bytes

/-- **A writer holds the bytes of what was written since it was reset last.** -/
theorem bytes_run (ops : List Op) : ∀ w : Writer, (w.run ops).bytes =
    (if .reset ∈ ops then [] else w.bytes) ++ (unreset ops).flatMap Piece.bytes := by
  induction ops with
  | nil => exact fun w => (List.append_nil w.bytes).symm
  | cons op ops ih =>
      intro w
      have hnext : (w.run (op :: ops)).bytes = ((w.perform op).run ops).bytes := rfl
      rw [hnext, ih]
      by_cases hreset : Op.reset ∈ ops
      · rw [if_pos hreset, if_pos (List.mem_cons_of_mem op hreset)]
        cases op with
        | write p => rw [unreset, if_pos hreset]
        | reset => rw [unreset]
      · rw [if_neg hreset]
        cases op with
        | write p =>
            rw [if_neg (by simpa using hreset), unreset, if_neg hreset, bytes_write,
              List.flatMap_cons, List.append_assoc]
        | reset => rw [if_pos List.mem_cons_self, unreset, perform, reset, bytes_empty]

/-- A new writer holds nothing but what was written since it was reset last. -/
theorem bytes_run_empty (ops : List Op) :
    (empty.run ops).bytes = (unreset ops).flatMap Piece.bytes := by
  rw [bytes_run, bytes_empty, ite_self, List.nil_append]

end Writer

/-! ## Reading -/

namespace Reader

/-- An operation asks for a piece: for a number by its kind, for bytes by a buffer as long. -/
inductive AsksFor : Op → Piece → Prop where
  | number (s : Scalar) : AsksFor (.number s.kind) (.number s)
  | data (buffer bytes : List UInt8) (same : buffer.length = bytes.length) :
      AsksFor (.data buffer) (.data bytes)

section Pieces

variable {r : Reader} {rest : List UInt8}

/-- Bytes that come next are taken. -/
theorem take_append {bytes : List UInt8} (hok : r.error? = none) (hrest : r.rest = bytes ++ rest) :
    r.take bytes.length = (some bytes, ⟨r.offset + bytes.length, rest, none⟩) := by
  have hfits : bytes.length ≤ r.rest.length := by simp [hrest]
  rw [take, hok]
  dsimp only
  rw [splitAt?_eq, if_pos hfits, hrest, List.take_left, List.drop_left]

/-- A piece that comes next is answered as it was written. -/
theorem perform_piece {op : Op} {p : Piece} (h : AsksFor op p) (hok : r.error? = none)
    (hrest : r.rest = p.bytes ++ rest) :
    r.perform op = (p.answer, ⟨r.offset + p.width, rest, none⟩) := by
  have htake := take_append hok hrest
  rw [p.length_bytes] at htake
  cases h with
  | number s =>
      have hread : r.scalar s.kind = (s, ⟨r.offset + s.kind.bytes, rest, none⟩) := by
        rw [scalar, show r.take s.kind.bytes = _ from htake]
        exact congrArg (·, _) (scalarOfBytes_scalarBytes s)
      rw [perform, hread]
      rfl
  | data buffer bytes same =>
      have hread : r.data buffer = (bytes, ⟨r.offset + bytes.length, rest, none⟩) := by
        rw [data, same, show r.take bytes.length = _ from htake]
        rfl
      rw [perform, hread]
      rfl

/-- **Pieces that come next are answered one after the other.** -/
theorem run_pieces {ops : List Op} {ps : List Piece} (h : List.Forall₂ AsksFor ops ps) :
    ∀ {r : Reader}, r.error? = none → r.rest = ps.flatMap Piece.bytes ++ rest →
      r.run ops = (ps.map Piece.answer, ⟨r.offset + (ps.map Piece.width).sum, rest, none⟩) := by
  induction h with
  | nil =>
      intro r hok hrest
      obtain ⟨offset, _, _⟩ := r
      obtain rfl := hok
      obtain rfl := hrest
      rfl
  | @cons op p ops ps hop _ ih =>
      intro r hok hrest
      rw [List.flatMap_cons, List.append_assoc] at hrest
      rw [run, perform_piece hop hok hrest, ih rfl rfl, List.map_cons, List.map_cons,
        List.sum_cons, Nat.add_assoc]
      rfl

end Pieces

end Reader

/-- **What was written is read**, whatever follows it: after any history of a writer, the pieces
that were written since it was new or was reset last are answered as they were written, nothing
fails, and just what follows is left.  The writer's length is the sum of their widths. -/
theorem reads_written (history : List Writer.Op) {asked : List Reader.Op}
    (hasked : List.Forall₂ Reader.AsksFor asked (Writer.unreset history)) (rest : List UInt8) :
    let w := Writer.empty.run history
    let read := (Reader.ofBytes (w.bytes ++ rest)).run asked
    read.1 = (Writer.unreset history).map Piece.answer ∧ read.2.error? = none ∧
      read.2.rest = rest ∧ read.2.remaining = rest.length ∧
      w.length = ((Writer.unreset history).map Piece.width).sum := by
  intro w read
  have hbytes : w.bytes = (Writer.unreset history).flatMap Piece.bytes :=
    Writer.bytes_run_empty history
  have hread : read = ((Writer.unreset history).map Piece.answer,
      ⟨0 + ((Writer.unreset history).map Piece.width).sum, rest, none⟩) :=
    Reader.run_pieces hasked rfl (congrArg (· ++ rest) hbytes)
  refine ⟨by rw [hread], by rw [hread], by rw [hread], by rw [hread]; rfl, ?_⟩
  rw [Writer.length_eq, hbytes, List.length_flatMap]
  simp only [Piece.length_bytes]

/-- A negative number, a float by its pattern and two bytes, after something that was forgotten. -/
theorem reads_written_mixed :
    ((Reader.ofBytes ((Writer.empty.run [.write (.data [9]), .reset,
        .write (.number (.ofPattern .int16 0xfed4)),
        .write (.number (.ofPattern .float32 0x7fc00001)),
        .write (.data [7, 8])]).bytes ++ [1])).run
      [.number .int16, .number .float32, .data [0, 0]]).1 =
    [.number (.ofPattern .int16 0xfed4), .number (.ofPattern .float32 0x7fc00001), .data [7, 8]] :=
  (reads_written [.write (.data [9]), .reset, .write (.number (.ofPattern .int16 0xfed4)),
    .write (.number (.ofPattern .float32 0x7fc00001)), .write (.data [7, 8])]
    (.cons (.number (.ofPattern .int16 0xfed4)) (.cons (.number (.ofPattern .float32 0x7fc00001))
      (.cons (.data [0, 0] [7, 8] rfl) .nil))) [1]).1

end WireSchema.Wire
