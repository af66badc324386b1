import LociWireBuf.Buffer

/-!
# Scalar and octet accessors

* `scalarGet`/`scalarSet`: the family `of_wire_buffer_u8_get` .. `of_wire_buffer_u64_set`. A
  member checks the extent `offset + (int) sizeof(uintW_t)` and then reads or writes its `W`
  bytes at `offset`; each is the family at its width and C type.
* `ofWireBufferOctetsDataGet`/`Set`, the wrappers `wbufOctetsGet`/`wbufOctetsSet`
  (`_wbuf_octets_get`/`_wbuf_octets_set`) and the fixed-length macros over them.
* `u128Get`/`u128Set`: the macros `of_wire_buffer_bitmap_128_*` and
  `of_wire_buffer_checksum_128_*`, two 64-bit accesses with the high half first.
* The unimplemented structure accessors, and `ofMatchBytes`.

`scalarGet_run`, `scalarSet_run`, `ofWireBufferOctetsDataGet_run`,
`ofWireBufferOctetsDataSet_run`, `ofMatchBytes_run` and `u128Set_run` state what one call does.
-/

namespace Loci

/-- Modelled from the spec: `buf_u8_get` .. `buf_u64_get` (`of_buffer.h`, not under src/) read the
`w` bytes at a pointer in network byte order (§4.2). -/
def bufGet (w : Nat) (s : Store) (p : Int) : Nat := fromBE (s.read p w)

/-- Modelled from the spec: `buf_u8_set` .. `buf_u64_set` store the `w` low bytes of a value in
network byte order (§4.2). -/
def bufSet (w : Nat) (s : Store) (p : Int) (v : Nat) : Store := s.write p (bytesBE w v)

/-- The fixed-width getters: check that the `w` bytes at `offset` are in use, then read them. -/
def scalarGet (w : Nat) (offset : Int) : WireM Nat := do
  ofWireBufferAccessCheck (offset + w)
  return bufGet w (← get).buf offset

/-- The fixed-width setters: check that the `w` bytes at `offset` are in use, then store `v`
there. Only the `w` low bytes of `v` are stored, which is the C conversion to `uintW_t`. -/
def scalarSet (w : Nat) (offset : Int) (v : Nat) : WireM Unit := do
  ofWireBufferAccessCheck (offset + w)
  modify fun wb => { wb with buf := bufSet w wb.buf offset v }

/-- Modelled from the spec: `of_ipv4_t` (not under src/) is `uint32_t`, since
`of_wire_buffer_ipv4_get` hands it to the 32-bit getter. -/
abbrev OfIpv4 := UInt32

def ofWireBufferU8Get (offset : Int) : WireM UInt8 := Nat.toUInt8 <$> scalarGet 1 offset
def ofWireBufferU8Set (offset : Int) (value : UInt8) : WireM Unit := scalarSet 1 offset value.toNat
def ofWireBufferU16Get (offset : Int) : WireM UInt16 := Nat.toUInt16 <$> scalarGet 2 offset
def ofWireBufferU16Set (offset : Int) (value : UInt16) : WireM Unit := scalarSet 2 offset value.toNat
def ofWireBufferU32Get (offset : Int) : WireM UInt32 := Nat.toUInt32 <$> scalarGet 4 offset
def ofWireBufferU32Set (offset : Int) (value : UInt32) : WireM Unit := scalarSet 4 offset value.toNat
def ofWireBufferU64Get (offset : Int) : WireM UInt64 := Nat.toUInt64 <$> scalarGet 8 offset
def ofWireBufferU64Set (offset : Int) (value : UInt64) : WireM Unit := scalarSet 8 offset value.toNat
def ofWireBufferIpv4Get (offset : Int) : WireM OfIpv4 := ofWireBufferU32Get offset
def ofWireBufferIpv4Set (offset : Int) (value : OfIpv4) : WireM Unit := ofWireBufferU32Set offset value
def ofWireBufferCharGet := ofWireBufferU8Get
def ofWireBufferCharSet := ofWireBufferU8Set

/-! ## Octets -/

/-- `of_octets_t`: `bytes` bytes at the pointer `data`, where `data k` is the byte at `data + k`. -/
structure OfOctets where
  data : Nat → UInt8
  bytes : Int

/-- Modelled from the spec: `buf_octets_get` (`of_buffer.h`) copies exactly the requested number
of bytes (§4.2); `MEMCPY` takes the `int` count as a `size_t`. -/
def bufOctetsGet (s : Store) (p : Int) (bytes : Int) : List UInt8 := s.read p (toSizeT bytes)

/-- Modelled from the spec: `buf_octets_set` (`of_buffer.h`) copies the bytes at `src` the same
way. -/
def bufOctetsSet (s : Store) (p : Int) (src : Nat → UInt8) (bytes : Int) : Store :=
  s.write p ((List.range (toSizeT bytes)).map src)

/-- `of_wire_buffer_octets_data_get(wbuf, offset, value)`: the `value->bytes` bytes at `offset`,
which the call copies to `value->data`. -/
def ofWireBufferOctetsDataGet (offset : Int) (value : OfOctets) : WireM (List UInt8) := do
  ofWireBufferAccessCheck (offset + value.bytes)
  return bufOctetsGet (← get).buf offset value.bytes

/-- `of_wire_buffer_octets_data_set(wbuf, offset, value, cur_len)`. -/
def ofWireBufferOctetsDataSet (offset : Int) (value : OfOctets) (curLen : Int) : WireM Unit := do
  lociAssert (curLen == 0 || curLen == value.bytes)
  ofWireBufferAccessCheck (offset + value.bytes)
  modify fun wb => { wb with buf := bufOctetsSet wb.buf offset value.data value.bytes }

/-- `_wbuf_octets_set(wbuf, offset, src, bytes)`. -/
def wbufOctetsSet (offset : Int) (src : Nat → UInt8) (bytes : Int) : WireM Unit :=
  ofWireBufferOctetsDataSet offset ⟨src, bytes⟩ bytes

/-- `_wbuf_octets_get(wbuf, offset, dst, bytes)`: the bytes copied to `dst`. -/
def wbufOctetsGet (offset : Int) (dst : Nat → UInt8) (bytes : Int) : WireM (List UInt8) :=
  ofWireBufferOctetsDataGet offset ⟨dst, bytes⟩

def ofWireBufferMacGet (offset : Int) (mac : Nat → UInt8) := wbufOctetsGet offset mac 6
def ofWireBufferMacSet (offset : Int) (mac : Nat → UInt8) := wbufOctetsSet offset mac 6
def ofWireBufferStr64Get (offset : Int) (s : Nat → UInt8) := wbufOctetsGet offset s 64
def ofWireBufferStr64Set (offset : Int) (s : Nat → UInt8) := wbufOctetsSet offset s 64

section Strings

/-! The lengths `OF_MAX_PORT_NAME_LEN`, `OF_MAX_TABLE_NAME_LEN`, `OF_DESC_STR_LEN`,
`OF_SERIAL_NUM_LEN` and `sizeof(of_ipv6_t)` are not under src/: the macros take them as
arguments. -/

variable (ofMaxPortNameLen ofMaxTableNameLen ofDescStrLen ofSerialNumLen sizeofOfIpv6 : Int)

def ofWireBufferPortNameGet (offset : Int) (portname : Nat → UInt8) :=
  wbufOctetsGet offset portname ofMaxPortNameLen
def ofWireBufferPortNameSet (offset : Int) (portname : Nat → UInt8) :=
  wbufOctetsSet offset portname ofMaxPortNameLen
def ofWireBufferTabNameGet (offset : Int) (tabname : Nat → UInt8) :=
  wbufOctetsGet offset tabname ofMaxTableNameLen
def ofWireBufferTabNameSet (offset : Int) (tabname : Nat → UInt8) :=
  wbufOctetsSet offset tabname ofMaxTableNameLen
def ofWireBufferDescStrGet (offset : Int) (desc : Nat → UInt8) := wbufOctetsGet offset desc ofDescStrLen
def ofWireBufferDescStrSet (offset : Int) (desc : Nat → UInt8) := wbufOctetsSet offset desc ofDescStrLen
def ofWireBufferSerNumGet (offset : Int) (sernum : Nat → UInt8) :=
  wbufOctetsGet offset sernum ofSerialNumLen
def ofWireBufferSerNumSet (offset : Int) (sernum : Nat → UInt8) :=
  wbufOctetsSet offset sernum ofSerialNumLen
def ofWireBufferIpv6Get (offset : Int) (addr : Nat → UInt8) := wbufOctetsGet offset addr sizeofOfIpv6
def ofWireBufferIpv6Set (offset : Int) (addr : Nat → UInt8) := wbufOctetsSet offset addr sizeofOfIpv6

end Strings

/-! ## 128-bit values -/

/-- Modelled from the spec: `of_bitmap_128_t` (not under src/), two 64-bit halves. -/
structure OfBitmap128 where
  hi : UInt64
  lo : UInt64
  deriving DecidableEq, Repr

/-- Modelled from the spec: `of_checksum_128_t` (not under src/), two 64-bit halves. -/
structure OfChecksum128 where
  hi : UInt64
  lo : UInt64
  deriving DecidableEq, Repr

/-- The 128-bit getter macros: the 64-bit getter at `offset` for the high half, then at
`offset + 8` for the low half. -/
def u128Get (offset : Int) : WireM (UInt64 × UInt64) := do
  let hi ← ofWireBufferU64Get offset
  let lo ← ofWireBufferU64Get (offset + 8)
  pure (hi, lo)

/-- The 128-bit setter macros: the 64-bit setter at `offset` for the high half, then at
`offset + 8` for the low half. Each half is checked just before it is stored. -/
def u128Set (offset : Int) (hi lo : UInt64) : WireM Unit := do
  ofWireBufferU64Set offset hi
  ofWireBufferU64Set (offset + 8) lo

def ofWireBufferBitmap128Get (offset : Int) : WireM OfBitmap128 :=
  (fun p => ⟨p.1, p.2⟩) <$> u128Get offset
def ofWireBufferBitmap128Set (offset : Int) (addr : OfBitmap128) : WireM Unit :=
  u128Set offset addr.hi addr.lo
def ofWireBufferChecksum128Get (offset : Int) : WireM OfChecksum128 :=
  (fun p => ⟨p.1, p.2⟩) <$> u128Get offset
def ofWireBufferChecksum128Set (offset : Int) (checksum : OfChecksum128) : WireM Unit :=
  u128Set offset checksum.hi checksum.lo

/-! ## Structures -/

/-- `of_wire_buffer_match_get`/`_set` and `of_wire_buffer_of_port_desc_get`/`_set` are not
implemented: every call fails its assertion (the value argument is never used). -/
def ofWireBufferMatchGet (_version _offset : Int) : WireM Unit := lociAssert false
def ofWireBufferMatchSet (_version _offset : Int) : WireM Unit := lociAssert false
def ofWireBufferOfPortDescGet (_version _offset : Int) : WireM Unit := lociAssert false
def ofWireBufferOfPortDescSet (_version _offset : Int) : WireM Unit := lociAssert false

/-- `of_match_bytes(wbuf, offset)`: the length of the match structure at `offset`, from the 16-bit
length at `offset + 2`; `OF_MATCH_BYTES` (not under src/) is the argument `matchBytes`. -/
def ofMatchBytes (matchBytes : UInt16 → Int) (offset : Int) : WireM Int := do
  let len ← ofWireBufferU16Get (offset + 2)
  pure (matchBytes len)

/-! ## What one call does -/

section Run

variable (wb : OfWireBuffer) (w : Nat) (offset : Int)

theorem scalarGet_run : (scalarGet w offset).run wb =
    if accessOk wb (offset + w) then .ok (bufGet w wb.buf offset) wb else .error () wb := by
  by_cases h : accessOk wb (offset + w) <;> simp [scalarGet, ofWireBufferAccessCheck_run, h]

theorem scalarSet_run (v : Nat) : (scalarSet w offset v).run wb =
    if accessOk wb (offset + w) then .ok () { wb with buf := bufSet w wb.buf offset v }
    else .error () wb := by
  by_cases h : accessOk wb (offset + w) <;> simp [scalarSet, ofWireBufferAccessCheck_run, h]

theorem ofWireBufferOctetsDataGet_run (value : OfOctets) :
    (ofWireBufferOctetsDataGet offset value).run wb =
    if accessOk wb (offset + value.bytes) then .ok (bufOctetsGet wb.buf offset value.bytes) wb
    else .error () wb := by
  by_cases h : accessOk wb (offset + value.bytes) <;>
    simp [ofWireBufferOctetsDataGet, ofWireBufferAccessCheck_run, h]

theorem ofWireBufferOctetsDataSet_run (value : OfOctets) (curLen : Int) :
    (ofWireBufferOctetsDataSet offset value curLen).run wb =
    if (curLen == 0 || curLen == value.bytes) && accessOk wb (offset + value.bytes) then
      .ok () { wb with buf := bufOctetsSet wb.buf offset value.data value.bytes }
    else .error () wb := by
  by_cases h1 : (curLen == 0 || curLen == value.bytes) <;>
    by_cases h2 : accessOk wb (offset + value.bytes) <;>
    simp [ofWireBufferOctetsDataSet, lociAssert_run, ofWireBufferAccessCheck_run, h1, h2]

theorem ofMatchBytes_run (matchBytes : UInt16 → Int) : (ofMatchBytes matchBytes offset).run wb =
    if accessOk wb (offset + 2 + 2) then .ok (matchBytes (bufGet 2 wb.buf (offset + 2)).toUInt16) wb
    else .error () wb := by
  by_cases h : accessOk wb (offset + 2 + 2) <;>
    simp [ofMatchBytes, ofWireBufferU16Get, scalarGet_run, h]

theorem u128Set_run (hi lo : UInt64) : (u128Set offset hi lo).run wb =
    if accessOk wb (offset + 8) then
      if accessOk wb (offset + 8 + 8) then
        .ok () { wb with buf := bufSet 8 (bufSet 8 wb.buf offset hi.toNat) (offset + 8) lo.toNat }
      else .error () { wb with buf := bufSet 8 wb.buf offset hi.toNat }
    else .error () wb := by
  by_cases h1 : 0 < offset + 8 ∧ offset + 8 ≤ wb.currentBytes <;>
    by_cases h2 : 0 < offset + 8 + 8 ∧ offset + 8 + 8 ≤ wb.currentBytes <;>
    simp [u128Set, ofWireBufferU64Set, scalarSet_run, h1, h2]

end Run

end Loci
