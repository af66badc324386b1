import LociWireBuf.Access

/-!
# The byte layout the accessors share

The fixed-width setters store their value in network byte order, and every getter reads the bytes
it covers in the same order. What one accessor stores is therefore visible to the others in a
fixed way, and the accessors of one range behave as one field of the buffer.

* `get_inside_stored_value`: a getter of any width inside a value just stored reads the matching
  base-256 digits of the value.
* `u128_network_order`: the 128-bit macros, two 64-bit halves with the high one first, store and
  read one 128-bit number in network byte order.
* `scalar_accessors_lawful`: storing back the value just read changes nothing, and a second store
  of the same width at the same offset replaces the first.
-/

namespace Loci

/-- The check reads only `current_bytes`: a store into the block leaves its verdict as it was. -/
theorem accessOk_with_buf (wb : OfWireBuffer) (s : Store) (e : Int) :
    accessOk { wb with buf := s } e = accessOk wb e := rfl

/-- The `w'` bytes at `offset + k` after a `w`-byte store of `v` at `offset`, read as a number:
the `w'` base-256 digits of `v` above its `w - k - w'` lowest ones. -/
theorem bufGet_bufSet_inside (s : Store) (w w' k : Nat) (offset : Int) (v : Nat) (hk : k + w' ≤ w) :
    bufGet w' (bufSet w s offset v) (offset + k) = v / 256 ^ (w - k - w') % 256 ^ w' := by
  rw [bufGet, bufSet, Store.read_write_inside _ _ _ (by rw [length_bytesBE]; exact hk),
    take_drop_bytesBE _ _ _ _ hk, fromBE_bytesBE]

/-- A getter of width `w'` that reads inside the `w` bytes a setter just stored at `offset`,
`k` bytes in, gets the base-256 digits `k .. k + w'` of the value, counted from the most
significant: every accessor sees the network byte order the setters write, whatever their
widths. -/
theorem get_inside_stored_value (wb : OfWireBuffer) (w w' k : Nat) (offset : Int) (v : Nat)
    (hk : k + w' ≤ w) (hpos : 0 < offset + k + w') (hw : offset + w ≤ wb.currentBytes) :
    (scalarSet w offset v *> scalarGet w' (offset + k)).run wb =
      .ok (v / 256 ^ (w - k - w') % 256 ^ w') { wb with buf := bufSet w wb.buf offset v } := by
  have hget : offset + k + w' ≤ wb.currentBytes := by omega
  rw [run_seqRight, scalarSet_run, if_pos (accessOk_iff.mpr ⟨by omega, hw⟩)]
  dsimp only
  rw [scalarGet_run, accessOk_with_buf, if_pos (accessOk_iff.mpr ⟨hpos, hget⟩),
    bufGet_bufSet_inside _ _ _ _ _ _ hk]

/-- `of_wire_buffer_u16_set(wbuf, 0, 0x1234)` on `grownFresh` and then
`of_wire_buffer_u8_get(wbuf, 1)` read the low byte `0x34`. -/
theorem grownFresh_u8_inside_u16 :
    1 + 1 ≤ 2 ∧ (0 : Int) < 0 + (1 : Nat) + (1 : Nat) ∧ (0 : Int) + (2 : Nat) ≤ grownFresh.currentBytes ∧
      (scalarSet 2 0 0x1234 *> scalarGet 1 (0 + (1 : Nat))).run grownFresh =
        .ok (0x1234 / 256 ^ (2 - 1 - 1) % 256 ^ 1) { grownFresh with buf := bufSet 2 grownFresh.buf 0 0x1234 } :=
  ⟨by decide, by decide, by decide,
    get_inside_stored_value grownFresh 2 1 1 0 0x1234 (by decide) (by decide) (by decide)⟩

/-! ## 128-bit values -/

/-- Two 8-byte stores of `hi` and `lo` side by side are the 16-byte store of
`hi * 2 ^ 64 + lo`. -/
theorem bufSet_halves (s : Store) (offset : Int) (hi lo : UInt64) :
    bufSet 8 (bufSet 8 s offset hi.toNat) (offset + 8) lo.toNat =
      s.write offset (bytesBE 16 (hi.toNat * 2 ^ 64 + lo.toNat)) := by
  have hlo : lo.toNat < 2 ^ 64 := lo.toNat_lt_size
  have hhi : (hi.toNat * 2 ^ 64 + lo.toNat) / 256 ^ 8 = hi.toNat := by omega
  have hmod : (hi.toNat * 2 ^ 64 + lo.toNat) % 256 ^ 8 = lo.toNat := by omega
  rw [bytesBE_add 8 8, hhi, ← bytesBE_mod 8 (hi.toNat * 2 ^ 64 + lo.toNat), hmod,
    ← Store.write_append, length_bytesBE]
  rfl

/-- Where both halves pass the check, the 128-bit setter macros store the 16 bytes of
`hi * 2 ^ 64 + lo` in network byte order, as one 128-bit store would; and the 128-bit getter
macros return the halves of the 128-bit number the 16 bytes at `offset` hold in network byte
order. -/
theorem u128_network_order (wb : OfWireBuffer) (offset : Int) (hpos : 0 < offset + 8)
    (hw : offset + 16 ≤ wb.currentBytes) :
    (∀ hi lo : UInt64, (u128Set offset hi lo).run wb =
      .ok () { wb with buf := wb.buf.write offset (bytesBE 16 (hi.toNat * 2 ^ 64 + lo.toNat)) }) ∧
    ∃ hi lo : UInt64, (u128Get offset).run wb = .ok (hi, lo) wb ∧
      hi.toNat * 2 ^ 64 + lo.toNat = fromBE (wb.buf.read offset 16) := by
  have h1 : accessOk wb (offset + 8) := accessOk_iff.mpr ⟨hpos, by omega⟩
  have h2 : accessOk wb (offset + 8 + 8) := accessOk_iff.mpr ⟨by omega, by omega⟩
  refine ⟨fun hi lo => ?_, (bufGet 8 wb.buf offset).toUInt64, (bufGet 8 wb.buf (offset + 8)).toUInt64,
    ?_, ?_⟩
  · rw [u128Set_run, if_pos h1, if_pos h2, bufSet_halves]
  · simp [u128Get, ofWireBufferU64Get, scalarGet_run, h1, h2]
  · have hhi := fromBE_lt (wb.buf.read offset 8)
    have hlo := fromBE_lt (wb.buf.read (offset + 8) 8)
    rw [Store.length_read] at hhi hlo
    rw [show (16 : Nat) = 8 + 8 from rfl, Store.read_add, fromBE_append_bytes, Store.length_read,
      Nat.cast_ofNat]
    show fromBE (wb.buf.read offset 8) % 2 ^ 64 * 2 ^ 64 + fromBE (wb.buf.read (offset + 8) 8) % 2 ^ 64 = _
    omega

/-- The 128-bit macros at offset 0 of `grownFresh`. -/
theorem grownFresh_u128_network_order :
    (0 : Int) < 0 + 8 ∧ (0 : Int) + 16 ≤ grownFresh.currentBytes ∧
      (u128Set 0 1 2).run grownFresh =
        .ok () { grownFresh with buf := grownFresh.buf.write 0 (bytesBE 16 ((1 : UInt64).toNat * 2 ^ 64 + (2 : UInt64).toNat)) } :=
  ⟨by decide, by decide, (u128_network_order grownFresh 0 (by decide) (by decide)).1 1 2⟩

/-! ## The accessors of one range as a field -/

/-- Storing back the `w` bytes at `offset` read as a number leaves the block as it was. -/
theorem bufSet_bufGet_self (s : Store) (w : Nat) (offset : Int) :
    bufSet w s offset (bufGet w s offset) = s := by
  have hbytes := bytesBE_fromBE (s.read offset w)
  rw [Store.length_read] at hbytes
  rw [bufSet, bufGet, hbytes, Store.write_read_self]

/-- The fixed-width accessors of one range behave as one field of the buffer. Where the check
passes, storing back the value just read leaves the buffer exactly as it was. For every buffer,
a second store of the same width at the same offset replaces the first: both abort alike when
the check fails, since the first store moves no extent. -/
theorem scalar_accessors_lawful (wb : OfWireBuffer) (w : Nat) (offset : Int) :
    (accessOk wb (offset + w) → (scalarGet w offset >>= scalarSet w offset).run wb = .ok () wb) ∧
    ∀ v v' : Nat, (scalarSet w offset v *> scalarSet w offset v').run wb =
      (scalarSet w offset v').run wb := by
  refine ⟨fun h => ?_, fun v v' => ?_⟩
  · rw [run_bind, scalarGet_run, if_pos h]
    dsimp only
    rw [scalarSet_run, if_pos h, bufSet_bufGet_self]
  · by_cases h : accessOk wb (offset + w)
    · rw [run_seqRight, scalarSet_run, if_pos h]
      dsimp only
      rw [scalarSet_run, accessOk_with_buf, if_pos h, scalarSet_run, if_pos h, bufSet, bufSet, bufSet,
        Store.write_write_of_length_eq _ _ (by rw [length_bytesBE, length_bytesBE])]
    · rw [run_seqRight, scalarSet_run, if_neg h, scalarSet_run, if_neg h]

/-- Reading the 4 bytes at 0 of `grownFresh` and storing them back leaves it as it was. -/
theorem grownFresh_u32_store_back :
    accessOk grownFresh (0 + (4 : Nat)) = true ∧
      (scalarGet 4 0 >>= scalarSet 4 0).run grownFresh = .ok () grownFresh :=
  ⟨by decide, (scalar_accessors_lawful grownFresh 4 0).1 (by decide)⟩

end Loci
