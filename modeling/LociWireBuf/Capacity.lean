import LociWireBuf.Atomic

/-!
# The capacity invariant over runs

* `Call`: every call of the header on a buffer, by family: the getters, `of_match_bytes`, and
  the `MutOp`s.
* `Reachable allowed wb`: `wb` was made by `of_wire_buffer_new`, or by
  `of_wire_buffer_new_bind` over a block of exactly `bytes` bytes, and then changed by calls
  that `allowed` admits and that each returned.
* `CapacityInv`: `0 ≤ current_bytes ≤ alloc_bytes`, and `alloc_bytes` is the size of the block
  `buf` holds.
* `Call.exec_cases`: what a returning call can do to the extents and the block.
  `capacityInv_exec`: a returning call other than `of_wire_buffer_move_end` keeps the invariant;
  `capacityInv_of_reachable` follows by induction over the run.
* `extent_never_shrinks`: from any state, along every run, `current_bytes` never decreases and
  the block keeps its size.
* `move_end_breaks_capacity`: `of_wire_buffer_move_end` on a freshly bound buffer leaves
  `alloc_bytes` below both the block's size and `current_bytes`.
-/

namespace Loci

/-- Every call of the header on one buffer, with its arguments. -/
inductive Call where
  | scalarGet (w : Nat) (offset : Int)
  | octetsDataGet (offset : Int) (value : OfOctets)
  | versionedGet (width : Int → Option Nat) (version offset : Int)
  | u128Get (offset : Int)
  | matchBytes (formula : UInt16 → Int) (offset : Int)
  | mutate (op : MutOp)

/-- The call, its result dropped. -/
def Call.exec : Call → WireM Unit
  | .scalarGet w offset => (fun _ => ()) <$> Loci.scalarGet w offset
  | .octetsDataGet offset value => (fun _ => ()) <$> ofWireBufferOctetsDataGet offset value
  | .versionedGet width version offset => (fun _ => ()) <$> Loci.versionedGet width version offset
  | .u128Get offset => (fun _ => ()) <$> Loci.u128Get offset
  | .matchBytes formula offset => (fun _ => ()) <$> ofMatchBytes formula offset
  | .mutate op => op.exec

/-- `of_wire_buffer_move_end`, the one call that moves `alloc_bytes`. -/
def Call.isMoveEnd : Call → Bool
  | .mutate (.moveEnd _ _) => true
  | _ => false

/-- The buffers a program can hold, building its runs from the calls `allowed` admits. -/
inductive Reachable (allowed : Call → Prop) : OfWireBuffer → Prop
  | new {m : Malloc} {aBytes : Int} {wb : OfWireBuffer} :
      ofWireBufferNew m aBytes = some wb → Reachable allowed wb
  | newBind {m : Malloc} {buf : Store} {bytes : Int} {bufFree : Option OfBufferFree}
      {wb : OfWireBuffer} :
      bytes = buf.size → ofWireBufferNewBind m buf bytes bufFree = some wb → Reachable allowed wb
  | step {wb wb' : OfWireBuffer} {c : Call} :
      Reachable allowed wb → allowed c → c.exec.run wb = .ok () wb' → Reachable allowed wb'

/-- The capacity invariant of §3. -/
structure CapacityInv (wb : OfWireBuffer) : Prop where
  current_nonneg : 0 ≤ wb.currentBytes
  current_le_alloc : wb.currentBytes ≤ wb.allocBytes
  alloc_eq_size : wb.allocBytes = wb.buf.size

theorem capacityInv_new {m : Malloc} {aBytes : Int} {wb : OfWireBuffer}
    (h : ofWireBufferNew m aBytes = some wb) : CapacityInv wb := by
  simp only [ofWireBufferNew, Option.bind_eq_bind, Option.bind_eq_some, Option.pure_def,
    Option.some.injEq] at h
  obtain ⟨_, -, blk, hblk, rfl⟩ := h
  have hs := m.size_block _ _ hblk
  refine ⟨Int.le_refl 0, ?_, ?_⟩ <;> simp [memset, hs, ofWireBufferMinAllocBytes] <;> split <;> omega

theorem capacityInv_newBind {m : Malloc} {buf : Store} {bytes : Int} {bufFree : Option OfBufferFree}
    {wb : OfWireBuffer} (hb : bytes = buf.size) (h : ofWireBufferNewBind m buf bytes bufFree = some wb) :
    CapacityInv wb := by
  simp only [ofWireBufferNewBind, Option.bind_eq_bind, Option.bind_eq_some, Option.pure_def,
    Option.some.injEq] at h
  obtain ⟨_, -, rfl⟩ := h
  exact ⟨by simp only [hb]; omega, Int.le_refl _, hb⟩

/-! ## Calls that change only bytes -/

/-- When `x` returns, it has changed at most bytes: the block keeps its size, and both extents
and the release function stay. -/
def BytesOnly {α : Type} (x : WireM α) : Prop :=
  ∀ wb a wb', x.run wb = .ok a wb' →
    wb'.buf.size = wb.buf.size ∧ wb'.allocBytes = wb.allocBytes ∧
      wb'.currentBytes = wb.currentBytes ∧ wb'.free = wb.free

theorem BytesOnly.bind {α β : Type} {x : WireM α} {f : α → WireM β} (hx : BytesOnly x)
    (hf : ∀ a, BytesOnly (f a)) : BytesOnly (x >>= f) := by
  intro wb b wb'' h
  rw [run_bind] at h
  split at h
  · next a wb' hrun =>
    obtain ⟨h1, h2, h3, h4⟩ := hx _ _ _ hrun
    obtain ⟨h5, h6, h7, h8⟩ := hf a _ _ _ h
    exact ⟨h5.trans h1, h6.trans h2, h7.trans h3, h8.trans h4⟩
  · cases h

theorem BytesOnly.map {α β : Type} {x : WireM α} (f : α → β) (hx : BytesOnly x) :
    BytesOnly (f <$> x) := by
  intro wb b wb' h
  rw [run_map] at h
  split at h
  · next a wb₁ hrun => cases h; exact hx _ _ _ hrun
  · cases h

/-- A checked call that returns `a` with `g` applied to the block, `g` keeping its size. -/
theorem bytesOnly_of_run {α : Type} {x : WireM α} (c : OfWireBuffer → Bool) (a : OfWireBuffer → α)
    (g : Store → Store) (hg : ∀ s, (g s).size = s.size)
    (hrun : ∀ wb, x.run wb = if c wb then .ok (a wb) { wb with buf := g wb.buf } else .error () wb) :
    BytesOnly x := by
  intro wb b wb' h
  rw [hrun] at h
  split at h
  · cases h; exact ⟨hg _, rfl, rfl, rfl⟩
  · cases h

theorem scalarGet_bytesOnly (w : Nat) (offset : Int) : BytesOnly (scalarGet w offset) :=
  bytesOnly_of_run (accessOk · (offset + w)) (fun wb => bufGet w wb.buf offset) id (fun _ => rfl)
    fun wb => scalarGet_run wb w offset

theorem scalarSet_bytesOnly (w : Nat) (offset : Int) (v : Nat) : BytesOnly (scalarSet w offset v) :=
  bytesOnly_of_run (accessOk · (offset + w)) (fun _ => ()) (bufSet w · offset v) (fun _ => rfl)
    fun wb => scalarSet_run wb w offset v

theorem versionedGet_bytesOnly (width : Int → Option Nat) (version offset : Int) :
    BytesOnly (versionedGet width version offset) := by
  intro wb a wb' h
  rw [versionedGet_run] at h
  split at h
  · exact scalarGet_bytesOnly _ _ _ _ _ h
  · cases h

theorem versionedSet_bytesOnly (width : Int → Option Nat) (version offset : Int) (value : Nat) :
    BytesOnly (versionedSet width version offset value) := by
  intro wb a wb' h
  rw [versionedSet_run] at h
  split at h
  · exact scalarSet_bytesOnly _ _ _ _ _ _ h
  · cases h

theorem u128Get_bytesOnly (offset : Int) : BytesOnly (u128Get offset) :=
  ((scalarGet_bytesOnly 8 offset).map _).bind fun _ =>
    ((scalarGet_bytesOnly 8 (offset + 8)).map _).bind fun _ => fun _ _ _ h => by cases h; simp

theorem u128Set_bytesOnly (offset : Int) (hi lo : UInt64) : BytesOnly (u128Set offset hi lo) :=
  (scalarSet_bytesOnly 8 offset _).bind fun _ => scalarSet_bytesOnly 8 (offset + 8) _

/-! ## What one call can do -/

/-- A returning call changes only bytes, or it is `of_wire_buffer_grow` and moves
`current_bytes` up to a target within `alloc_bytes`, or it is `of_wire_buffer_move_end`: it
keeps `current_bytes`, the release function and the block's size, and moves `alloc_bytes` down,
or up to at most `current_bytes`. -/
theorem Call.exec_cases {c : Call} {wb wb' : OfWireBuffer} (h : c.exec.run wb = .ok () wb') :
    (wb'.buf.size = wb.buf.size ∧ wb'.allocBytes = wb.allocBytes ∧
      wb'.currentBytes = wb.currentBytes ∧ wb'.free = wb.free) ∨
    (∃ bytes, c = .mutate (.grow bytes) ∧ bytes ≤ wb.allocBytes ∧
      wb' = { wb with currentBytes := max wb.currentBytes bytes }) ∨
    (∃ startOffset newOffset, c = .mutate (.moveEnd startOffset newOffset) ∧
      wb'.buf.size = wb.buf.size ∧ wb'.currentBytes = wb.currentBytes ∧ wb'.free = wb.free ∧
      (wb'.allocBytes ≤ wb.allocBytes ∨ wb'.allocBytes ≤ wb.currentBytes)) := by
  cases c with
  | scalarGet w offset => exact .inl ((scalarGet_bytesOnly w offset).map _ _ _ _ h)
  | octetsDataGet offset value =>
    exact .inl ((bytesOnly_of_run _ _ id (fun _ => rfl)
      fun wb => ofWireBufferOctetsDataGet_run wb offset value).map _ _ _ _ h)
  | versionedGet width version offset =>
    exact .inl ((versionedGet_bytesOnly width version offset).map _ _ _ _ h)
  | u128Get offset => exact .inl ((u128Get_bytesOnly offset).map _ _ _ _ h)
  | matchBytes formula offset =>
    exact .inl ((bytesOnly_of_run _ _ id (fun _ => rfl)
      fun wb => ofMatchBytes_run wb offset formula).map _ _ _ _ h)
  | mutate op =>
    cases op with
    | scalarSet w offset v => exact .inl (scalarSet_bytesOnly w offset v _ _ _ h)
    | octetsDataSet offset value curLen =>
      exact .inl (bytesOnly_of_run _ (fun _ => ())
        (fun s => bufOctetsSet s offset value.data value.bytes) (fun _ => rfl)
        (fun wb => ofWireBufferOctetsDataSet_run wb offset value curLen) _ _ _ h)
    | versionedSet width version offset value =>
      exact .inl (versionedSet_bytesOnly width version offset value _ _ _ h)
    | u128Set offset hi lo => exact .inl (u128Set_bytesOnly offset hi lo _ _ _ h)
    | grow bytes =>
      rw [Call.exec, MutOp.exec, ofWireBufferGrow_run] at h
      split at h
      · next hle => cases h; exact .inr (.inl ⟨bytes, rfl, hle, rfl⟩)
      · cases h
    | moveEnd startOffset newOffset =>
      rw [Call.exec, MutOp.exec, ofWireBufferMoveEnd_run] at h
      refine .inr (.inr ⟨startOffset, newOffset, rfl, ?_⟩)
      split at h
      · split at h
        · next hc => cases h; exact ⟨rfl, rfl, rfl, .inr (accessOk_iff.mp hc).2⟩
        · cases h
      · next hge => cases h; exact ⟨rfl, rfl, rfl, .inl (show wb.allocBytes - _ ≤ _ by omega)⟩

/-! ## The invariant along a run -/

/-- A returning call other than `of_wire_buffer_move_end` keeps the capacity invariant. -/
theorem capacityInv_exec {c : Call} {wb wb' : OfWireBuffer} (hc : c.isMoveEnd = false)
    (hi : CapacityInv wb) (h : c.exec.run wb = .ok () wb') : CapacityInv wb' := by
  have := hi.current_nonneg
  have := hi.current_le_alloc
  obtain ⟨h1, h2, h3, -⟩ | ⟨bytes, rfl, hle, rfl⟩ | ⟨_, _, rfl, -⟩ := Call.exec_cases h
  · exact ⟨by omega, by omega, by rw [h2, h1]; exact hi.alloc_eq_size⟩
  · exact ⟨show 0 ≤ max wb.currentBytes bytes by omega,
      show max wb.currentBytes bytes ≤ wb.allocBytes by omega, hi.alloc_eq_size⟩
  · cases hc

/-- Along every run that does not call `of_wire_buffer_move_end`, `0 ≤ current_bytes ≤
alloc_bytes` and `alloc_bytes` is the size of the block `buf` holds. -/
theorem capacityInv_of_reachable {wb : OfWireBuffer}
    (h : Reachable (fun c => c.isMoveEnd = false) wb) : CapacityInv wb := by
  induction h with
  | new h => exact capacityInv_new h
  | newBind hb h => exact capacityInv_newBind hb h
  | step _ hc hrun ih => exact capacityInv_exec hc ih hrun

/-! ## Runs from any state -/

/-- `wb'` is reached from `wb` by calls, of every kind, that each returned. -/
inductive Steps : OfWireBuffer → OfWireBuffer → Prop
  | refl (wb : OfWireBuffer) : Steps wb wb
  | step {wb wb' wb'' : OfWireBuffer} (c : Call) :
      c.exec.run wb = .ok () wb' → Steps wb' wb'' → Steps wb wb''

theorem Call.exec_extent_mono {c : Call} {wb wb' : OfWireBuffer}
    (h : c.exec.run wb = .ok () wb') :
    wb.currentBytes ≤ wb'.currentBytes ∧ wb'.buf.size = wb.buf.size := by
  obtain ⟨h1, -, h3, -⟩ | ⟨bytes, -, -, rfl⟩ | ⟨_, _, -, h1, h3, -⟩ := Call.exec_cases h
  · exact ⟨by omega, h1⟩
  · exact ⟨show wb.currentBytes ≤ max wb.currentBytes bytes by omega, rfl⟩
  · exact ⟨by omega, h1⟩

/-- From any state, along every run of returning calls, `of_wire_buffer_move_end` included,
`current_bytes` never decreases and the block keeps its size: no call of the header shrinks the
extent in use or reallocates the block. -/
theorem extent_never_shrinks {wb wb' : OfWireBuffer} (h : Steps wb wb') :
    wb.currentBytes ≤ wb'.currentBytes ∧ wb'.buf.size = wb.buf.size := by
  induction h with
  | refl => exact ⟨Int.le_refl _, rfl⟩
  | step c hrun _ ih =>
    obtain ⟨h1, h2⟩ := Call.exec_extent_mono hrun
    exact ⟨Int.le_trans h1 ih.1, ih.2.trans h2⟩

/-! ## A bound buffer and a fresh one -/

theorem boundFour_reachable (allowed : Call → Prop) : Reachable allowed boundFour :=
  .newBind (show (4 : Int) = fourBytes.size from rfl)
    (show ofWireBufferNewBind plentifulMalloc fourBytes 4 none = some boundFour from rfl)

/-- `of_wire_buffer_move_end(wbuf, 2, 1)` on `boundFour` moves one byte and sets `alloc_bytes`
to 3. -/
theorem boundFour_moveEnd_run : (Call.mutate (.moveEnd 2 1)).exec.run boundFour =
    .ok () { boundFour with buf := memmove fourBytes 1 2 1, allocBytes := 3 } := by
  rw [Call.exec, MutOp.exec, ofWireBufferMoveEnd_run, if_neg (by decide)]; rfl

/-- `grownFresh` is reached without `of_wire_buffer_move_end`. -/
theorem grownFresh_reachable : Reachable (fun c => c.isMoveEnd = false) grownFresh := by
  have hnew : ofWireBufferNew plentifulMalloc 0 = some { grownFresh with currentBytes := 0 } := rfl
  have hgrow : (Call.mutate (.grow 16)).exec.run { grownFresh with currentBytes := 0 } =
      .ok () grownFresh := by
    rw [Call.exec, MutOp.exec, ofWireBufferGrow_run, if_pos (by decide)]; rfl
  exact .step (.new hnew) (by rfl) hgrow

/-- `of_wire_buffer_move_end(wbuf, 2, 1)` on `boundFour` returns with `alloc_bytes` 3, below both
`current_bytes` and the size of the block, which are still 4. -/
theorem move_end_breaks_capacity :
    Reachable (fun _ => True) { boundFour with buf := memmove fourBytes 1 2 1, allocBytes := 3 } ∧
      ¬ CapacityInv { boundFour with buf := memmove fourBytes 1 2 1, allocBytes := 3 } := by
  exact ⟨.step (boundFour_reachable _) trivial boundFour_moveEnd_run,
    fun h => absurd h.current_le_alloc (by decide)⟩

/-- Moving the tail of `boundFour` back by one byte leaves `current_bytes` at 4. -/
theorem boundFour_move_end_keeps_extent :
    Steps boundFour { boundFour with buf := memmove fourBytes 1 2 1, allocBytes := 3 } ∧
      boundFour.currentBytes ≤
        ({ boundFour with buf := memmove fourBytes 1 2 1, allocBytes := 3 } : OfWireBuffer).currentBytes ∧
      ({ boundFour with buf := memmove fourBytes 1 2 1, allocBytes := 3 } : OfWireBuffer).buf.size =
        boundFour.buf.size := by
  have hs := Steps.step _ boundFour_moveEnd_run (.refl _)
  exact ⟨hs, extent_never_shrinks hs⟩

end Loci
