import LociWireBuf.Capacity

/-!
# What `of_wire_buffer_move_end` relocates

Its comment promises to move the data from `start_offset` to the end of the buffer to
`new_offset`. The body moves `|new_offset - start_offset|` bytes, not the
`current_bytes - start_offset` bytes of the tail, and changes `alloc_bytes` where the extent in
use is `current_bytes`.

* `move_end_moves_shift_not_tail`: moving the tail of `10 11 12 13` from 2 to 1 moves one byte
  and leaves `10 12 12 13`, with `current_bytes` still 4 and `alloc_bytes` 3.
* `move_end_forward_aborts`: moving forward checks `alloc_bytes + (new_offset - start_offset)`
  against `current_bytes`, which no buffer with `current_bytes ≤ alloc_bytes` passes while the
  `int` subtraction does not overflow.
* `move_end_backward_unchecked`: moving back checks nothing, and copies the
  `start_offset - new_offset` bytes at `start_offset` to `new_offset`, in the block or not.
-/

namespace Loci

/-- Moving the tail of `boundFour` from offset 2 to offset 1 copies one byte: the buffer reads
`10 12 12 13` rather than `10 12 13`, `current_bytes` stays 4 and `alloc_bytes` becomes 3. -/
theorem move_end_moves_shift_not_tail :
    (ofWireBufferMoveEnd 2 1).run boundFour =
      .ok () { boundFour with buf := memmove fourBytes 1 2 1, allocBytes := 3 } ∧
    (memmove fourBytes 1 2 1).read 0 4 = [10, 12, 12, 13] :=
  ⟨boundFour_moveEnd_run, by decide⟩

/-- Moving forward never passes the check on a buffer with `current_bytes ≤ alloc_bytes`, for
every `start_offset < new_offset` whose `int` difference does not overflow: the call aborts and
leaves the buffer as it was. The model subtracts in unbounded `Int`, which is the C subtraction
exactly when `new_offset - start_offset ≤ INT_MAX`; past it, C wraps the count to a negative
`int` and the check can pass. A sum `alloc_bytes + (new_offset - start_offset)` above `INT_MAX`
wraps to a negative extent, which fails the check as the model's sum does. -/
theorem move_end_forward_aborts (wb : OfWireBuffer) (startOffset newOffset : Int)
    (hc : wb.currentBytes ≤ wb.allocBytes) (hlt : startOffset < newOffset)
    (hno : newOffset - startOffset ≤ intMax) :
    (ofWireBufferMoveEnd startOffset newOffset).run wb = .error () wb := by
  rw [ofWireBufferMoveEnd_run, if_pos hlt, if_neg (by simp; omega)]

/-- Moving the tail of `boundFour` forward by one byte aborts. -/
theorem move_end_forward_aborts_boundFour :
    (4 : Int) ≤ 4 ∧ (0 : Int) < 1 ∧ (1 : Int) - 0 ≤ intMax ∧
      (ofWireBufferMoveEnd 0 1).run boundFour = .error () boundFour :=
  ⟨by decide, by decide, by decide,
    move_end_forward_aborts boundFour 0 1 (by decide) (by decide) (by decide)⟩

/-- Moving back checks nothing: for every buffer and every `new_offset ≤ start_offset` the call
returns, whatever the extents and wherever the two ranges lie. It leaves at `new_offset + k` the
byte that was at `start_offset + k`, for `k < start_offset - new_offset`, and every other byte,
`current_bytes` and the block as they were; `alloc_bytes` drops by `start_offset - new_offset`. -/
theorem move_end_backward_unchecked (wb : OfWireBuffer) (startOffset newOffset : Int)
    (hle : newOffset ≤ startOffset) :
    ∃ wb', (ofWireBufferMoveEnd startOffset newOffset).run wb = .ok () wb' ∧
      wb'.currentBytes = wb.currentBytes ∧
      wb'.allocBytes = wb.allocBytes - (startOffset - newOffset) ∧ wb'.buf.size = wb.buf.size ∧
      (∀ k : Nat, k < startOffset - newOffset →
        wb'.buf.byte (newOffset + k) = wb.buf.byte (startOffset + k)) ∧
      ∀ i, (i < newOffset ∨ startOffset ≤ i) → wb'.buf.byte i = wb.buf.byte i := by
  rw [ofWireBufferMoveEnd_run, if_neg (by omega)]
  refine ⟨_, rfl, rfl, rfl, rfl, fun k hk => byte_memmove (by omega), fun i hi => ?_⟩
  exact Store.byte_write_of_not_mem (by rw [Store.length_read]; omega)

end Loci
