import LociWireBuf.Bytes

/-!
# The wire buffer

`of_wire_buffer_t` and the calls on it that are not field accessors: construction, release and
`of_wire_buffer_grow`. A call of the header is a `WireM` computation on the buffer structure: it
returns, or it fails a `LOCI_ASSERT` and aborts. `EStateM` keeps the buffer as it was at the
abort, so what a failed call leaves behind can be stated (`Atomic.lean`).

* `OfWireBuffer`: the structure; its `buf` always holds a block in the model.
* `lociAssert` and `ofWireBufferAccessCheck`, whose condition is `accessOk`.
* `ofWireBufferNew`/`ofWireBufferNewBind` over an allocator `Malloc`, `ofWireBufferFree`,
  `ofWireBufferSteal` and `ofWireBufferGrow`; `OfWireObject`, the slice a nested object reads
  the buffer through.
* `new_empty_zeroed`: `of_wire_buffer_new` gives an empty, zeroed buffer of at least
  `OF_WIRE_BUFFER_MIN_ALLOC_BYTES` bytes, or `NULL` exactly when memory cannot be obtained.
* `grow_sequence`: what a sequence of `of_wire_buffer_grow` calls does, aborting or not.
* The `*_run` lemmas state what one call does; later proofs cite them and never unfold a call.
-/

namespace Loci

/-- `of_buffer_free_f`: the function a bound buffer's data is released with, by its name. -/
structure OfBufferFree where
  fn : Nat
  deriving DecidableEq, Repr

/-- `of_wire_buffer_t`. `buf` is never `NULL` in the model: `of_wire_buffer_new` returns `NULL`
rather than a buffer without data, `of_wire_buffer_new_bind` binds an existing buffer, and
`of_wire_buffer_steal` clears `buf` only to free the structure right after. -/
structure OfWireBuffer where
  buf : Store
  allocBytes : Int
  currentBytes : Int
  free : Option OfBufferFree

/-- `of_wire_object_t`, the slice of a buffer a nested object is read through: its offset in the
buffer. The buffer is the one the calls run on. -/
structure OfWireObject where
  objOffset : Int

/-- `OF_OBJECT_ABSOLUTE_OFFSET(obj, offset)`: an object-relative offset as a buffer offset. -/
def ofObjectAbsoluteOffset (obj : OfWireObject) (offset : Int) : Int := obj.objOffset + offset

/-- A call of the header on one wire buffer: it returns a value, or it aborts on a failed
`LOCI_ASSERT`, with the buffer as it was at that point. -/
abbrev WireM := EStateM Unit OfWireBuffer

section Monad

variable {α β : Type} {wb : OfWireBuffer}

@[simp] theorem run_pure (a : α) : (pure a : WireM α).run wb = .ok a wb := rfl

@[simp] theorem run_bind (x : WireM α) (f : α → WireM β) : (x >>= f).run wb =
    match x.run wb with
    | .ok a wb' => (f a).run wb'
    | .error e wb' => .error e wb' := by
  show EStateM.bind x f wb = _
  unfold EStateM.bind EStateM.run; cases x wb <;> rfl

@[simp] theorem run_map (x : WireM α) (f : α → β) : (f <$> x).run wb =
    match x.run wb with
    | .ok a wb' => .ok (f a) wb'
    | .error e wb' => .error e wb' := by
  show EStateM.map f x wb = _
  unfold EStateM.map EStateM.run; cases x wb <;> rfl

@[simp] theorem run_seqRight (x : WireM α) (y : WireM β) : (x *> y).run wb =
    match x.run wb with
    | .ok _ wb' => y.run wb'
    | .error e wb' => .error e wb' := by
  show EStateM.seqRight x (fun _ => y) wb = _
  unfold EStateM.seqRight EStateM.run; cases x wb <;> rfl

@[simp] theorem run_get : (get : WireM OfWireBuffer).run wb = .ok wb wb := rfl

@[simp] theorem run_set (wb' : OfWireBuffer) : (set wb' : WireM PUnit).run wb = .ok ⟨⟩ wb' := rfl

@[simp] theorem run_modify (f : OfWireBuffer → OfWireBuffer) :
    (modify f : WireM PUnit).run wb = .ok ⟨⟩ (f wb) := rfl

@[simp] theorem run_throw : (throw () : WireM α).run wb = .error () wb := rfl

end Monad

/-- Modelled from the spec: `LOCI_ASSERT` (`loci_base.h`, not under src/). A failed check aborts
at once, with no error code and no partial write after it (§7). -/
def lociAssert (c : Bool) : WireM Unit := if c then pure () else throw ()

/-- The condition `OF_WIRE_BUFFER_ACCESS_CHECK(wbuf, offset)` asserts: the extent `offset` is
positive and within the bytes in use. Its `wbuf != NULL` and `buf != NULL` conjuncts hold of every
`OfWireBuffer`. -/
def accessOk (wb : OfWireBuffer) (offset : Int) : Bool :=
  offset > 0 && wb.currentBytes ≥ offset

/-- `OF_WIRE_BUFFER_ACCESS_CHECK(wbuf, offset)`. -/
def ofWireBufferAccessCheck (offset : Int) : WireM Unit := do
  lociAssert (accessOk (← get) offset)

@[simp] theorem accessOk_iff {wb : OfWireBuffer} {e : Int} :
    accessOk wb e = true ↔ 0 < e ∧ e ≤ wb.currentBytes := by
  simp [accessOk]

theorem lociAssert_run (c : Bool) (wb : OfWireBuffer) :
    (lociAssert c).run wb = if c then .ok () wb else .error () wb := by
  cases c <;> rfl

theorem ofWireBufferAccessCheck_run (e : Int) (wb : OfWireBuffer) :
    (ofWireBufferAccessCheck e).run wb = if accessOk wb e then .ok () wb else .error () wb := by
  simp [ofWireBufferAccessCheck, lociAssert_run]

/-! ## Construction and release -/

/-- `MALLOC`: the allocator's answer to a request for `n` bytes, a block of that size with
unspecified contents, or `none` when memory cannot be obtained. -/
structure Malloc where
  block : Nat → Option Store
  size_block : ∀ n s, block n = some s → s.size = n

/-- `sizeof(of_wire_buffer_t)` on a 64-bit target: a pointer, two `int`s and a function pointer. -/
def sizeofOfWireBuffer : Nat := 24

/-- `OF_WIRE_BUFFER_MIN_ALLOC_BYTES`. -/
def ofWireBufferMinAllocBytes : Int := 128

/-- `of_wire_buffer_new(a_bytes)`: an empty buffer over at least
`OF_WIRE_BUFFER_MIN_ALLOC_BYTES` zeroed bytes, or `NULL` when an allocation fails. -/
def ofWireBufferNew (m : Malloc) (aBytes : Int) : Option OfWireBuffer := do
  let _ ← m.block sizeofOfWireBuffer
  let aBytes := if aBytes < ofWireBufferMinAllocBytes then ofWireBufferMinAllocBytes else aBytes
  let blk ← m.block aBytes.toNat
  pure { buf := memset blk 0 0 aBytes.toNat, currentBytes := 0, allocBytes := aBytes, free := none }

/-- `of_wire_buffer_new(a_bytes)` returns `NULL` exactly when one of its two allocations fails;
otherwise an empty buffer, with no release function, over
`max a_bytes OF_WIRE_BUFFER_MIN_ALLOC_BYTES` bytes, all zero. -/
theorem new_empty_zeroed (m : Malloc) (aBytes : Int) :
    (ofWireBufferNew m aBytes = none ↔ m.block sizeofOfWireBuffer = none ∨
      m.block (max aBytes ofWireBufferMinAllocBytes).toNat = none) ∧
    ∀ wb, ofWireBufferNew m aBytes = some wb →
      wb.currentBytes = 0 ∧ wb.allocBytes = max aBytes ofWireBufferMinAllocBytes ∧
      wb.free = none ∧ wb.buf.size = wb.allocBytes.toNat ∧
      wb.buf.read 0 wb.allocBytes.toNat = List.replicate wb.allocBytes.toNat 0 := by
  have hA : (if aBytes < ofWireBufferMinAllocBytes then ofWireBufferMinAllocBytes else aBytes) =
      max aBytes ofWireBufferMinAllocBytes := by split <;> omega
  simp only [ofWireBufferNew, hA]
  refine ⟨?_, fun wb h => ?_⟩
  · cases m.block sizeofOfWireBuffer <;> cases m.block (max aBytes ofWireBufferMinAllocBytes).toNat <;>
      simp
  · simp only [Option.bind_eq_bind, Option.bind_eq_some, Option.pure_def, Option.some.injEq] at h
    obtain ⟨_, -, blk, hblk, rfl⟩ := h
    have hw := Store.read_write_self blk 0 (List.replicate (max aBytes ofWireBufferMinAllocBytes).toNat 0)
    rw [List.length_replicate] at hw
    exact ⟨rfl, rfl, rfl, m.size_block _ blk hblk, hw⟩

/-- `of_wire_buffer_new_bind(buf, bytes, buf_free)`: a buffer over the caller's `buf`, all of whose
`bytes` bytes are in use. -/
def ofWireBufferNewBind (m : Malloc) (buf : Store) (bytes : Int) (bufFree : Option OfBufferFree) :
    Option OfWireBuffer := do
  let _ ← m.block sizeofOfWireBuffer
  pure { buf, free := bufFree, currentBytes := bytes, allocBytes := bytes }

/-- What `of_wire_buffer_free` does with the data: it hands it to the bound function, or else to
`FREE`, a bound buffer included. -/
inductive Release where
  | callback (f : OfBufferFree) (data : Store)
  | free (data : Store)

/-- `of_wire_buffer_free(wbuf)`: the release of the data; the structure is freed too. -/
def ofWireBufferFree (wb : OfWireBuffer) : Release :=
  match wb.free with
  | some f => .callback f wb.buf
  | none => .free wb.buf

/-- `of_wire_buffer_steal(wbuf, &buffer)`: the caller gets the data, which is not released; only
the structure is freed. -/
def ofWireBufferSteal (wb : OfWireBuffer) : Store := wb.buf

/-! ## Growth -/

/-- `of_wire_buffer_grow(wbuf, bytes)`: `bytes` is the new extent in use; it must fit in the
allocation, and the extent never shrinks. -/
def ofWireBufferGrow (bytes : Int) : WireM Unit := do
  let wb ← get
  lociAssert (wb.allocBytes ≥ bytes)
  if bytes > wb.currentBytes then set { wb with currentBytes := bytes }

theorem ofWireBufferGrow_run (bytes : Int) (wb : OfWireBuffer) :
    (ofWireBufferGrow bytes).run wb = if bytes ≤ wb.allocBytes
      then .ok () { wb with currentBytes := max wb.currentBytes bytes } else .error () wb := by
  by_cases ha : bytes ≤ wb.allocBytes
  · by_cases hc : wb.currentBytes < bytes
    · simp [ofWireBufferGrow, lociAssert_run, ha, hc, show max wb.currentBytes bytes = bytes by omega]
    · simp [ofWireBufferGrow, lociAssert_run, ha, hc, show max wb.currentBytes bytes = wb.currentBytes by omega]
  · simp [ofWireBufferGrow, lociAssert_run, ha]

/-- `of_wire_buffer_grow` called with the targets `ts` in turn. The calls all return exactly
when every target is within `alloc_bytes`, and the extent in use is then the largest of the old
one and the targets; otherwise the first target past `alloc_bytes` aborts, and the extent is the
largest of the old one and the targets before it (§8). -/
theorem grow_sequence (wb : OfWireBuffer) (ts : List Int) :
    (ts.forM ofWireBufferGrow).run wb =
      if ts.all (· ≤ wb.allocBytes) then
        .ok () { wb with currentBytes := ts.foldl max wb.currentBytes }
      else .error () { wb with currentBytes :=
        (ts.takeWhile (· ≤ wb.allocBytes)).foldl max wb.currentBytes } := by
  induction ts generalizing wb with
  | nil => rfl
  | cons t ts ih =>
    rw [List.forM_cons', run_bind, ofWireBufferGrow_run]
    by_cases ht : t ≤ wb.allocBytes
    · rw [if_pos ht]
      dsimp only
      rw [ih]
      simp [ht]
    · simp [ht]

/-! ## A bound buffer and a fresh one -/

/-- `MALLOC` that always finds memory. -/
def plentifulMalloc : Malloc := ⟨fun n => some ⟨fun _ => 0, n⟩, fun _ _ h => by cases h; rfl⟩

/-- The caller's block of the four bytes `10 11 12 13`. -/
def fourBytes : Store :=
  ⟨fun i => if i = 0 then 10 else if i = 1 then 11 else if i = 2 then 12 else if i = 3 then 13 else 0, 4⟩

/-- `of_wire_buffer_new_bind(fourBytes, 4, NULL)`. -/
def boundFour : OfWireBuffer := { buf := fourBytes, allocBytes := 4, currentBytes := 4, free := none }

/-- `of_wire_buffer_new(0)` grown to 16 bytes. -/
def grownFresh : OfWireBuffer :=
  { buf := memset ⟨fun _ => 0, 128⟩ 0 0 128, allocBytes := 128, currentBytes := 16, free := none }

end Loci
