import ProgramExplorer.ByteStore

/-!
# A writer with a buffer

`std::io::BufWriter`: small writes are collected and reach the file when the
buffer has no room, when it is flushed, or when the file is taken back.
`settled` is the file as it will be once nothing is held back.
-/

set_option autoImplicit false

namespace ProgramExplorer.BufferedWriter
open ByteStrings ByteStore

def defaultBufSize : ℕ := 8192

structure BufWriter where
  inner : Writer
  buf : Bytes

def BufWriter.new (inner : Writer) : BufWriter := ⟨inner, []⟩

def BufWriter.flush (w : BufWriter) : BufWriter := ⟨w.inner.writeAll w.buf, []⟩

def BufWriter.spareCapacity (w : BufWriter) : ℕ := defaultBufSize - w.buf.length

def BufWriter.writeAllCold (w : BufWriter) (bs : Bytes) : BufWriter :=
  let w := if bs.length > w.spareCapacity then w.flush else w
  if bs.length ≥ defaultBufSize then { w with inner := w.inner.writeAll bs }
  else { w with buf := w.buf ++ bs }

def BufWriter.writeAll (w : BufWriter) (bs : Bytes) : BufWriter :=
  if bs.length < w.spareCapacity then { w with buf := w.buf ++ bs }
  else w.writeAllCold bs

def BufWriter.intoInner (w : BufWriter) : Writer := w.flush.inner

def BufWriter.settled (w : BufWriter) : Writer := w.inner.writeAll w.buf

theorem writeAll_nil (w : Writer) : w.writeAll [] = w := by
  simp [Writer.writeAll, overwrite]

@[simp] theorem settled_new (inner : Writer) : (BufWriter.new inner).settled = inner :=
  writeAll_nil inner

@[simp] theorem settled_flush (w : BufWriter) : w.flush.settled = w.settled :=
  writeAll_nil _

@[simp] theorem inner_flush (w : BufWriter) : w.flush.inner = w.settled := rfl

@[simp] theorem intoInner_eq (w : BufWriter) : w.intoInner = w.settled := rfl

/-- A write that does not go through the buffer needs it to be empty. -/
theorem settled_direct {w : BufWriter} (h : w.buf = []) (bs : Bytes) :
    BufWriter.settled { w with inner := w.inner.writeAll bs } = w.settled.writeAll bs := by
  simp only [BufWriter.settled, h, writeAll_nil]

theorem settled_buffered (w : BufWriter) (bs : Bytes) :
    BufWriter.settled { w with buf := w.buf ++ bs } = w.settled.writeAll bs :=
  (w.inner.writeAll_append w.buf bs).symm

theorem settled_writeAllCold (w : BufWriter) (bs : Bytes) :
    (w.writeAllCold bs).settled = w.settled.writeAll bs := by
  unfold BufWriter.writeAllCold
  by_cases hspare : bs.length > w.spareCapacity
  · simp only [hspare, if_true]
    split_ifs
    · rw [settled_direct rfl, settled_flush]
    · rw [settled_buffered, settled_flush]
  · simp only [hspare, if_false]
    split_ifs with hbig
    · -- a buffer with that much room is empty
      have hnil : w.buf = [] := by
        unfold BufWriter.spareCapacity at hspare
        rw [← List.length_eq_zero_iff]
        simp only [defaultBufSize] at *
        omega
      exact settled_direct hnil bs
    · exact settled_buffered w bs

/-- Once nothing is held back, the bytes have been written one after another. -/
@[simp] theorem settled_writeAll (w : BufWriter) (bs : Bytes) :
    (w.writeAll bs).settled = w.settled.writeAll bs := by
  unfold BufWriter.writeAll
  split_ifs
  · exact settled_buffered w bs
  · exact settled_writeAllCold w bs

end ProgramExplorer.BufferedWriter
