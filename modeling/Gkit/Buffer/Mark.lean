import Gkit.Buffer.Fifo

/-!
`Mark` and `Restore` of the `ioBuffer`. The mark is an absolute index into the slice, and
two things move the bytes under it without touching it: `Read` resets a drained buffer
(and clears the mark), and `copy` moves the unread bytes to the front of a slice. After
either, `Restore` does not rewind to the bytes that were unread at the `Mark`.
-/

namespace Gkit.Buffer

open GoSlice

namespace IoBuffer

@[simp] theorem mark_buffer (i : IoBuffer) : i.Mark.buffer = i.buffer := rfl
@[simp] theorem mark_off (i : IoBuffer) : i.Mark.off = i.off := rfl
@[simp] theorem mark_offMark (i : IoBuffer) : i.Mark.offMark = i.off := rfl
@[simp] theorem contents_mark (i : IoBuffer) : i.Mark.contents = i.contents := rfl

@[simp] theorem reset_offMark (i : IoBuffer) : i.Reset.offMark = ResetOffMark := rfl

theorem Wf.mark {i : IoBuffer} (h : i.Wf) : i.Mark.Wf := ⟨h.off_nonneg,h.off_le,h.cap_le⟩

theorem read_of_unread {i : IoBuffer} (h : i.Wf) (hlt : i.off < i.buffer.len) (p : Nat) :
    i.Read p = .ok ({ i with off := i.off + min p i.contents.length },
      i.contents.take (min p i.contents.length),false) := by
  unfold Read
  rw [if_neg (by omega),Slice.suffix_ok h.off_nonneg h.off_le,ok_bind]
  rfl

theorem read_of_drained {i : IoBuffer} (hend : i.buffer.len ≤ i.off) (hpos : 0 < i.off) (p : Nat) :
    i.Read p = .ok (i.Reset,[],p ≠ 0) := by
  unfold Read
  rw [if_pos hend,if_pos hpos]

theorem restore_of_cleared {i : IoBuffer} (h : i.offMark = ResetOffMark) : i.Restore = i := by
  unfold Restore
  rw [if_neg (not_not.mpr h)]

@[simp] theorem bytes_reset (i : IoBuffer) : i.Reset.Bytes = .ok [] := by
  unfold Bytes Reset
  rw [Slice.suffix_ok (Int.le_refl 0) (by simp)]
  simp [Slice.elems]

/-- `Mark`, a `Read` of every unread byte, one more `Read`, and `Restore`: the second `Read`
finds the buffer drained and resets it, so `Restore` has no mark left and `Bytes` is empty,
where the bytes unread at the `Mark` were not. -/
theorem mark_lost_by_drained_read {i : IoBuffer} (h : i.Wf) (hne : i.contents ≠ []) (p : Nat) :
    ∃ j₁ j₂, i.Mark.Read i.contents.length = .ok j₁ ∧ j₁.1.Read p = .ok j₂ ∧
      j₂.1.Restore.Bytes = .ok [] := by
  have hlc := h.length_contents
  have hpos : 0 < i.contents.length := List.length_pos_iff.mpr hne
  have := h.off_nonneg
  unfold Len at hlc
  have hr₁ := read_of_unread h.mark (by rw [mark_off,mark_buffer]; omega) i.contents.length
  rw [contents_mark,Nat.min_self,List.take_length] at hr₁
  refine ⟨_,_,hr₁,read_of_drained ?_ ?_ p,?_⟩
  · show (i.buffer.len : Int) ≤ i.off + i.contents.length
    omega
  · show 0 < i.off + i.contents.length
    omega
  · rw [restore_of_cleared (reset_offMark _),bytes_reset]

/-- The buffer of `NewIoBufferBytes([]byte("abcdef"))`, marked, read to the end twice. -/
theorem mark_lost_by_drained_read_abcdef :
    ∃ i, NewIoBufferBytes (some [97,98,99,100,101,102]) = .ok i ∧ i.Wf ∧ i.contents ≠ [] ∧
      ∃ j₁ j₂, i.Mark.Read i.contents.length = .ok j₁ ∧ j₁.1.Read 1 = .ok j₂ ∧
        j₂.1.Restore.Bytes = .ok [] := by
  have hw : IoBuffer.Wf ⟨⟨[97,98,99,100,101,102].map some,6,by decide⟩,0,ResetOffMark,false⟩ :=
    ⟨by decide,by decide,by decide⟩
  exact ⟨_,rfl,hw,by decide,mark_lost_by_drained_read hw (by decide) 1⟩

/-- Compaction under a mark: six of eight bytes read, `Mark`, and a one-byte `Write` that
moves the two unread bytes to the front; the mark still says six, past the three bytes
left, and `Bytes` after `Restore` panics on `buffer[off:]`. -/
example : (do
    let i ← NewIoBufferBytes (some [97,98,99,100,101,102,103,104])
    let (i,_,_) ← i.Read 6
    let (i,_) ← i.Mark.Write [120]
    i.Restore.Bytes) = .error .bounds := by decide

end IoBuffer

end Gkit.Buffer
