import LociWireBuf.Access

/-!
# `of_wire_buffer_move_end`

The header's only length-changing edit: its comment reads "Relocate data from start offset to
the end of the buffer to a new position". The body moves `|new_offset - start_offset|` bytes from
`start_offset` to `new_offset` with `MEMMOVE` and moves `alloc_bytes` (not `current_bytes`) by
`new_offset - start_offset`, without reallocating. Moving forward, it first checks the extent
`alloc_bytes + (new_offset - start_offset)` against `current_bytes`; moving back, it checks
nothing.

`ofWireBufferMoveEnd_run` states what one call does; `Relocate.lean` draws the consequences.
-/

namespace Loci

/-- `of_wire_buffer_move_end(wbuf, start_offset, new_offset)`. -/
def ofWireBufferMoveEnd (startOffset newOffset : Int) : WireM Unit := do
  let wb ← get
  let (bytes, newLength) ←
    if newOffset > startOffset then do
      let bytes := newOffset - startOffset
      let newLength := wb.allocBytes + bytes
      ofWireBufferAccessCheck newLength
      pure (bytes, newLength)
    else
      let bytes := startOffset - newOffset
      pure (bytes, wb.allocBytes - bytes)
  modify fun wb =>
    { wb with buf := memmove wb.buf newOffset startOffset (toSizeT bytes), allocBytes := newLength }

theorem ofWireBufferMoveEnd_run (wb : OfWireBuffer) (startOffset newOffset : Int) :
    (ofWireBufferMoveEnd startOffset newOffset).run wb =
    if startOffset < newOffset then
      if accessOk wb (wb.allocBytes + (newOffset - startOffset)) then
        .ok () { wb with buf := memmove wb.buf newOffset startOffset (newOffset - startOffset).toNat,
                         allocBytes := wb.allocBytes + (newOffset - startOffset) }
      else .error () wb
    else
      .ok () { wb with buf := memmove wb.buf newOffset startOffset (startOffset - newOffset).toNat,
                       allocBytes := wb.allocBytes - (startOffset - newOffset) } := by
  by_cases hlt : startOffset < newOffset
  · have hs : toSizeT (newOffset - startOffset) = (newOffset - startOffset).toNat :=
      toSizeT_of_nonneg (by omega)
    by_cases hc : accessOk wb (wb.allocBytes + (newOffset - startOffset)) <;>
      simp [ofWireBufferMoveEnd, ofWireBufferAccessCheck_run, hlt, hc, hs]
  · have hs : toSizeT (startOffset - newOffset) = (startOffset - newOffset).toNat :=
      toSizeT_of_nonneg (by omega)
    simp [ofWireBufferMoveEnd, hlt, hs]

end Loci
