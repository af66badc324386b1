import LociWireBuf.Access

/-!
# What an accepted access touches

`OF_WIRE_BUFFER_ACCESS_CHECK(wbuf, offset + n)` bounds the end of an access of `n` bytes at
`offset`: it asserts `0 < offset + n ≤ current_bytes`, and nothing about `offset` itself.

* `Within lo hi c wb`: every byte the call `c` reads or writes on `wb` lies in `[lo, hi)`, stated
  by what `c` does rather than by where it points: on every buffer that differs from `wb` only
  outside the range, `c` gives the same result and leaves the same bytes and extents in the range,
  and changes no byte outside it.
* `scalarGet_within` .. `octetsDataSet_within`: every accessor touches the bytes
  `[offset, offset + n)`, whether its check passes or not; `match_bytes_reads_length`: the
  length probe `of_match_bytes` reads only its 16-bit length field and writes nothing.
* `accepted_access_within_extent`: an accepted access of `n ≥ 0` bytes stays in
  `[offset, current_bytes)`, so in `[0, current_bytes)` when `0 ≤ offset`; for every accessor.
* `object_access_within_object`: through an object at a nonnegative offset whose bytes are in
  use, an access inside the object is accepted and stays inside it.
* `access_check_admits_out_of_range`: a 16-bit read at offset `-1` of a buffer with one byte in
  use passes the check and reads the byte before `buf`; an octet store of `-1` bytes at offset 2
  passes it too and, its count wrapped to `2 ^ 64 - 1` by `MEMCPY`, writes past the extent.
-/

namespace Loci

/-- `wb` and `wb'` differ at most in the bytes outside `[lo, hi)`. -/
def SameOn (lo hi : Int) (wb wb' : OfWireBuffer) : Prop :=
  wb'.allocBytes = wb.allocBytes ∧ wb'.currentBytes = wb.currentBytes ∧ wb'.free = wb.free ∧
    wb'.buf.size = wb.buf.size ∧ ∀ i, lo ≤ i → i < hi → wb'.buf.byte i = wb.buf.byte i

/-- The buffer a call leaves behind, whether it returned or aborted. -/
def final {α : Type} : EStateM.Result Unit OfWireBuffer α → OfWireBuffer
  | .ok _ wb => wb
  | .error _ wb => wb

/-- Every byte `c` reads or writes when run on `wb` lies in `[lo, hi)`, stated by what `c` does:
on every buffer that differs from `wb` only outside the range (`wb` itself included), `c` returns
the same value or aborts alike, leaves the same bytes in the range and the same extents, and
changes no byte outside the range. -/
def Within {α : Type} (lo hi : Int) (c : WireM α) (wb : OfWireBuffer) : Prop :=
  ∀ wb', SameOn lo hi wb wb' →
    c.run' wb' = c.run' wb ∧ SameOn lo hi (final (c.run wb)) (final (c.run wb')) ∧
      ∀ i, (i < lo ∨ hi ≤ i) → (final (c.run wb')).buf.byte i = wb'.buf.byte i

variable {α : Type} {lo hi : Int} {wb wb' : OfWireBuffer}

theorem run'_eq (c : WireM α) (wb : OfWireBuffer) :
    c.run' wb = match c.run wb with
      | .ok a _ => some a
      | .error _ _ => none := by
  unfold EStateM.run' EStateM.run; cases c wb <;> rfl

theorem SameOn.refl (lo hi : Int) (wb : OfWireBuffer) : SameOn lo hi wb wb :=
  ⟨rfl, rfl, rfl, rfl, fun _ _ _ => rfl⟩

theorem SameOn.accessOk (h : SameOn lo hi wb wb') (e : Int) : accessOk wb' e = accessOk wb e := by
  simp [Loci.accessOk, h.2.1]

theorem SameOn.read (h : SameOn lo hi wb wb') {p : Int} {n : Nat} (hp : lo ≤ p) (hn : p + n ≤ hi) :
    wb'.buf.read p n = wb.buf.read p n :=
  Store.read_congr fun i h1 h2 => h.2.2.2.2 i (by omega) (by omega)

/-- Buffers that agree on `[lo, hi)` still agree there after the same store. -/
theorem SameOn.write (h : SameOn lo hi wb wb') (p : Int) (bs : List UInt8) :
    SameOn lo hi { wb with buf := wb.buf.write p bs } { wb' with buf := wb'.buf.write p bs } := by
  refine ⟨h.1, h.2.1, h.2.2.1, h.2.2.2.1, fun i h1 h2 => ?_⟩
  simp only [Store.byte_write]
  split
  · rfl
  · exact h.2.2.2.2 i h1 h2

/-- What `Within` says of `wb` itself: the call changes no byte outside the range. -/
theorem Within.frame {c : WireM α} (h : Within lo hi c wb) :
    ∀ i, (i < lo ∨ hi ≤ i) → (final (c.run wb)).buf.byte i = wb.buf.byte i :=
  (h wb (SameOn.refl lo hi wb)).2.2

/-- A range that holds everything a call touches can be widened. -/
theorem Within.mono {c : WireM α} {lo' hi' : Int} (h : Within lo hi c wb) (hlo : lo' ≤ lo)
    (hhi : hi ≤ hi') : Within lo' hi' c wb := by
  intro wb' hs
  have hs' : SameOn lo hi wb wb' :=
    ⟨hs.1, hs.2.1, hs.2.2.1, hs.2.2.2.1, fun i h1 h2 => hs.2.2.2.2 i (by omega) (by omega)⟩
  obtain ⟨hrun, hfin, hframe⟩ := h wb' hs'
  refine ⟨hrun, ⟨hfin.1, hfin.2.1, hfin.2.2.1, hfin.2.2.2.1, fun i h1 h2 => ?_⟩,
    fun i hi => hframe i (by omega)⟩
  by_cases hin : lo ≤ i ∧ i < hi
  · exact hfin.2.2.2.2 i hin.1 hin.2
  · rw [hframe i (by omega), h.frame i (by omega)]
    exact hs.2.2.2.2 i h1 h2

/-- A call that either aborts or returns `get` of the buffer's bytes, leaving the buffer as it was,
is within `[lo, hi)` when its condition and `get` look only there. -/
theorem within_of_read {c : WireM α} (cond : OfWireBuffer → Bool) (get : Store → α)
    (hrun : ∀ wb, c.run wb = if cond wb then .ok (get wb.buf) wb else .error () wb)
    (hcond : ∀ wb', SameOn lo hi wb wb' → cond wb' = cond wb)
    (hget : ∀ wb', SameOn lo hi wb wb' → get wb'.buf = get wb.buf) : Within lo hi c wb := by
  have hfinal : ∀ wb, final (c.run wb) = wb := fun wb => by rw [hrun]; split <;> rfl
  refine fun wb' hs => ⟨?_, by rw [hfinal, hfinal]; exact hs, fun i _ => by rw [hfinal]⟩
  rw [run'_eq, run'_eq, hrun, hrun, hcond wb' hs, hget wb' hs]
  cases cond wb <;> rfl

/-- A call that either aborts leaving the buffer as it was, or stores `bs` at `p` and returns,
is within `[lo, hi)` when its condition looks only there and `bs` fits there. -/
theorem within_of_write {c : WireM Unit} (cond : OfWireBuffer → Bool) (p : Int) (bs : List UInt8)
    (hrun : ∀ wb, c.run wb = if cond wb then .ok () { wb with buf := wb.buf.write p bs } else .error () wb)
    (hcond : ∀ wb', SameOn lo hi wb wb' → cond wb' = cond wb)
    (hfit : lo ≤ p ∧ p + bs.length ≤ hi) : Within lo hi c wb := by
  intro wb' hs
  rw [run'_eq, run'_eq, hrun, hrun, hcond wb' hs]
  cases cond wb
  · exact ⟨rfl, hs, fun _ _ => rfl⟩
  · exact ⟨rfl, hs.write p bs, fun i hi => Store.byte_write_of_not_mem (by omega)⟩

/-! ## Footprints -/

/-- A fixed-width getter touches the `w` bytes at `offset` and nothing else, whether its check
passes or not. -/
theorem scalarGet_within (w : Nat) (offset : Int) (wb : OfWireBuffer) :
    Within offset (offset + w) (scalarGet w offset) wb :=
  within_of_read _ (fun s => bufGet w s offset) (fun wb => scalarGet_run wb w offset)
    (fun _ hs => hs.accessOk _) fun _ hs => congrArg fromBE (hs.read (Int.le_refl _) (Int.le_refl _))

theorem scalarSet_within (w : Nat) (offset : Int) (v : Nat) (wb : OfWireBuffer) :
    Within offset (offset + w) (scalarSet w offset v) wb :=
  within_of_write _ offset (bytesBE w v) (fun wb => scalarSet_run wb w offset v)
    (fun _ hs => hs.accessOk _) ⟨Int.le_refl _, by simp⟩

/-- An octet getter touches the `value->bytes` bytes at `offset`, the count taken as a `size_t`. -/
theorem octetsDataGet_within (offset : Int) (value : OfOctets) (wb : OfWireBuffer) :
    Within offset (offset + toSizeT value.bytes) (ofWireBufferOctetsDataGet offset value) wb :=
  within_of_read _ (fun s => bufOctetsGet s offset value.bytes)
    (fun wb => ofWireBufferOctetsDataGet_run wb offset value) (fun _ hs => hs.accessOk _)
    fun _ hs => hs.read (Int.le_refl _) (Int.le_refl _)

theorem octetsDataSet_within (offset : Int) (value : OfOctets) (curLen : Int) (wb : OfWireBuffer) :
    Within offset (offset + toSizeT value.bytes) (ofWireBufferOctetsDataSet offset value curLen) wb :=
  within_of_write _ offset _ (fun wb => ofWireBufferOctetsDataSet_run wb offset value curLen)
    (fun _ hs => by rw [hs.accessOk]) ⟨Int.le_refl _, by simp⟩

/-- `of_match_bytes(wbuf, offset)` reads the 16-bit length at `offset + 2` and nothing else, and
changes no byte: it leaves the buffer as it was, whether it returns or aborts. -/
theorem match_bytes_reads_length (matchBytes : UInt16 → Int) (offset : Int) (wb : OfWireBuffer) :
    Within (offset + 2) (offset + 2 + 2) (ofMatchBytes matchBytes offset) wb ∧
      final ((ofMatchBytes matchBytes offset).run wb) = wb := by
  refine ⟨within_of_read _ (fun s => matchBytes (bufGet 2 s (offset + 2)).toUInt16)
    (fun wb => ofMatchBytes_run wb offset matchBytes) (fun _ hs => hs.accessOk _)
    fun _ hs => by simp only [bufGet, hs.read (Int.le_refl _) (Int.le_refl _)], ?_⟩
  rw [ofMatchBytes_run]
  split <;> rfl

/-! ## Accepted accesses -/

/-- An accepted access of `n ≥ 0` bytes at `offset` touches only `[offset, current_bytes)`: never
a byte at or past the extent in use, and (`Within.mono`) never one before `buf` when
`0 ≤ offset`. The four calls are every accessor of the header: a fixed-width member is
`scalarGet`/`scalarSet` at its width, and `_wbuf_octets_*` and the fixed-length macros are the
octet calls. -/
theorem accepted_access_within_extent (wb : OfWireBuffer) (offset : Int) :
    (∀ w : Nat, accessOk wb (offset + w) →
      Within offset wb.currentBytes (scalarGet w offset) wb) ∧
    (∀ w v : Nat, accessOk wb (offset + w) →
      Within offset wb.currentBytes (scalarSet w offset v) wb) ∧
    (∀ value : OfOctets, 0 ≤ value.bytes → accessOk wb (offset + value.bytes) →
      Within offset wb.currentBytes (ofWireBufferOctetsDataGet offset value) wb) ∧
    (∀ (value : OfOctets) (curLen : Int), 0 ≤ value.bytes → accessOk wb (offset + value.bytes) →
      Within offset wb.currentBytes (ofWireBufferOctetsDataSet offset value curLen) wb) := by
  refine ⟨fun w h => ?_, fun w v h => ?_, fun value hn h => ?_, fun value curLen hn h => ?_⟩ <;>
    rw [accessOk_iff] at h
  · exact (scalarGet_within w offset wb).mono (Int.le_refl _) h.2
  · exact (scalarSet_within w offset v wb).mono (Int.le_refl _) h.2
  · have := toSizeT_of_nonneg hn
    exact (octetsDataGet_within offset value wb).mono (Int.le_refl _) (by omega)
  · have := toSizeT_of_nonneg hn
    exact (octetsDataSet_within offset value curLen wb).mono (Int.le_refl _) (by omega)

/-! ## Objects over the buffer -/

/-- A buffer with one byte in use, that byte and every byte around it zero. -/
def oneByteBuffer : OfWireBuffer :=
  { buf := ⟨fun _ => 0, 1⟩, allocBytes := 1, currentBytes := 1, free := none }


/-- An object at a nonnegative offset whose `len` bytes lie in the extent in use: an access
through it of `n` bytes at a relative offset `offset ≥ 0`, with `0 < offset + n ≤ len`, passes
the check and touches only the object's bytes, for every accessor. -/
theorem object_access_within_object (obj : OfWireObject) (len : Int) (wb : OfWireBuffer)
    (hobj : 0 ≤ obj.objOffset) (hlen : obj.objOffset + len ≤ wb.currentBytes) (offset : Int)
    (n : Nat) (hoff : 0 ≤ offset) (hpos : 0 < offset + n) (hfit : offset + n ≤ len) :
    accessOk wb (ofObjectAbsoluteOffset obj offset + n) = true ∧
    Within obj.objOffset (obj.objOffset + len)
      (scalarGet n (ofObjectAbsoluteOffset obj offset)) wb ∧
    (∀ v, Within obj.objOffset (obj.objOffset + len)
      (scalarSet n (ofObjectAbsoluteOffset obj offset) v) wb) ∧
    (∀ value : OfOctets, value.bytes = n → Within obj.objOffset (obj.objOffset + len)
      (ofWireBufferOctetsDataGet (ofObjectAbsoluteOffset obj offset) value) wb) ∧
    (∀ (value : OfOctets) (curLen : Int), value.bytes = n → Within obj.objOffset
      (obj.objOffset + len) (ofWireBufferOctetsDataSet (ofObjectAbsoluteOffset obj offset) value curLen) wb) := by
  have hlo : obj.objOffset ≤ ofObjectAbsoluteOffset obj offset := by
    rw [ofObjectAbsoluteOffset]; omega
  have hhi : ofObjectAbsoluteOffset obj offset + n ≤ obj.objOffset + len := by
    rw [ofObjectAbsoluteOffset]; omega
  refine ⟨by rw [accessOk_iff, ofObjectAbsoluteOffset]; omega, (scalarGet_within _ _ wb).mono hlo hhi,
    fun v => (scalarSet_within _ _ v wb).mono hlo hhi, fun value hn => ?_, fun value curLen hn => ?_⟩
  · exact (octetsDataGet_within _ value wb).mono hlo (by rw [hn, toSizeT_natCast]; exact hhi)
  · exact (octetsDataSet_within _ value curLen wb).mono hlo (by rw [hn, toSizeT_natCast]; exact hhi)

/-- A one-byte object at the start of `oneByteBuffer` reads its byte. -/
theorem object_access_oneByteBuffer :
    (0 : Int) ≤ 0 ∧ (0 : Int) + 1 ≤ oneByteBuffer.currentBytes ∧ (0 : Int) < 0 + (1 : Nat) ∧
    (0 : Int) + (1 : Nat) ≤ 1 ∧ Within 0 (0 + 1) (scalarGet 1 (ofObjectAbsoluteOffset ⟨0⟩ 0)) oneByteBuffer :=
  ⟨by decide, by decide, by decide, by decide,
    (object_access_within_object ⟨0⟩ 1 oneByteBuffer (by decide) (by decide) 0 1 (Int.le_refl 0)
      (by decide) (by decide)).2.1⟩

/-! ## The check does not bound the start -/

/-- `oneByteBuffer` with the byte before `buf` set. -/
def oneByteBufferMarked : OfWireBuffer :=
  { oneByteBuffer with buf := ⟨fun i => if i = -1 then 1 else 0, 1⟩ }

/-- Two accepted accesses of `oneByteBuffer` that leave `[0, current_bytes)`: the 16-bit read at
`-1` returns `0x0100` instead of `0` once the byte before `buf` is set, and the octet store of
`-1` bytes at offset 2 writes byte 2, past the extent. -/
theorem access_check_admits_out_of_range :
    accessOk oneByteBuffer (-1 + 2) = true ∧
      ¬ Within 0 oneByteBuffer.currentBytes (ofWireBufferU16Get (-1)) oneByteBuffer ∧
    accessOk oneByteBuffer (2 + -1) = true ∧
      ¬ Within 0 oneByteBuffer.currentBytes (wbufOctetsSet 2 (fun _ => 1) (-1)) oneByteBuffer := by
  refine ⟨by decide, fun h => ?_, by decide, fun h => ?_⟩
  · have hs : SameOn 0 1 oneByteBuffer oneByteBufferMarked :=
      ⟨rfl, rfl, rfl, rfl, fun i h1 _ => by simp [oneByteBufferMarked, oneByteBuffer]; omega⟩
    exact absurd (h _ hs).1 (by decide)
  · have hb := h.frame 2 (Or.inr (by decide))
    rw [wbufOctetsSet, ofWireBufferOctetsDataSet_run, if_pos (by decide)] at hb
    unfold final at hb
    dsimp only at hb
    rw [bufOctetsSet, Store.byte_write, List.length_map, List.length_range,
      if_pos (by simp [toSizeT]), List.getD_eq_getElem?_getD, List.getElem?_map,
      List.getElem?_range (by simp [toSizeT])] at hb
    exact absurd hb (by decide)

end Loci
