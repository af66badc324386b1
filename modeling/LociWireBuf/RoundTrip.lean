import LociWireBuf.Versioned
import LociWireBuf.Bounds

/-!
# The accessors make the buffer a byte array

* `ScalarLaw`: a fixed-width setter stores the value's bytes in network order at its offset and
  changes nothing else, its getter reads the value back, and a read of a range that does not
  overlap is unchanged. `scalarLaw_of` proves it for the whole family; the members follow.
* `wire_buffer_byte_array`: the law for every fixed-width pair, the octet wrappers and the
  128-bit macros. An octet access of no bytes at offset 0 is the exception:
  `empty_octets_at_zero_abort` (the check asserts a positive extent).
* `VersionedLaw`/`versioned_field_round_trip`: a versioned setter stores the value's low bytes at
  the field's width in that version, and the getter returns it reduced modulo that width.
* `unknown_version_aborts`: on any other version every versioned accessor aborts and leaves the
  buffer as it was.
-/

namespace Loci

/-! ## Reads of a store -/

theorem bufGet_bufSet_self (w : Nat) (s : Store) (p : Int) (v : Nat) :
    bufGet w (bufSet w s p v) p = v % 256 ^ w := by
  have h := Store.read_write_self s p (bytesBE w v)
  rw [length_bytesBE] at h
  rw [bufGet, bufSet, h, fromBE_bytesBE]

theorem bufGet_bufSet_of_disjoint (w w' : Nat) (s : Store) (p q : Int) (v : Nat)
    (h : q + w' ≤ p ∨ p + w ≤ q) : bufGet w' (bufSet w s p v) q = bufGet w' s q := by
  simp only [bufGet, bufSet]; rw [Store.read_write_of_disjoint (by simpa using h)]

/-! ## Fixed-width pairs -/

/-- What a fixed-width pair of width `w` does at an offset whose `w` bytes are in use: the setter
stores the `w` bytes of the value in network order there and changes nothing else, the getter
then returns the value, and a read of any width at a range that does not overlap returns what it
returned before. -/
def ScalarLaw {τ : Type} (w : Nat) (get : Int → WireM τ) (set : Int → τ → WireM Unit)
    (toNat : τ → Nat) : Prop :=
  ∀ (wb : OfWireBuffer) (offset : Int) (v : τ), 0 ≤ offset → offset + w ≤ wb.currentBytes →
    let wb' := { wb with buf := wb.buf.write offset (bytesBE w (toNat v)) }
    (set offset v).run wb = .ok () wb' ∧ (get offset).run wb' = .ok v wb' ∧
    ∀ (w' : Nat) (offset' : Int), offset' + w' ≤ offset ∨ offset + w ≤ offset' →
      (scalarGet w' offset').run' wb' = (scalarGet w' offset').run' wb

/-- The family law: a member of width `w > 0` whose C type holds every value below `256 ^ w`. -/
theorem scalarLaw_of {τ : Type} (w : Nat) (hw : 0 < w) (toNat : τ → Nat) (ofNat : Nat → τ)
    (hv : ∀ v, ofNat (toNat v % 256 ^ w) = v) :
    ScalarLaw w (fun o => ofNat <$> scalarGet w o) (fun o v => scalarSet w o (toNat v)) toNat := by
  intro wb offset v h0 h
  have hok : accessOk wb (offset + w) := by simp; omega
  refine ⟨by simp [scalarSet_run, hok, bufSet], ?_, fun w' offset' hd => ?_⟩
  · have hset := bufGet_bufSet_self w wb.buf offset (toNat v)
    simp only [bufSet] at hset
    simp [scalarGet_run, hset, hv, show 0 < offset + w by omega, h]
  · have hget := bufGet_bufSet_of_disjoint w w' wb.buf offset offset' (toNat v) hd
    simp only [bufSet] at hget
    simp only [run'_eq, scalarGet_run, hget, accessOk_iff]
    split_ifs <;> rfl

private theorem toUInt8_mod (v : UInt8) : (v.toNat % 256 ^ 1).toUInt8 = v :=
  UInt8.eq_of_val_eq (Fin.ext (by
    show (v.toNat % 256 ^ 1) % 2 ^ 8 = v.toNat; have : v.toNat < 256 := v.toNat_lt_size; omega))

private theorem toUInt16_mod (v : UInt16) : (v.toNat % 256 ^ 2).toUInt16 = v :=
  UInt16.eq_of_val_eq (Fin.ext (by
    show (v.toNat % 256 ^ 2) % 2 ^ 16 = v.toNat; have : v.toNat < 65536 := v.toNat_lt_size; omega))

private theorem toUInt32_mod (v : UInt32) : (v.toNat % 256 ^ 4).toUInt32 = v :=
  UInt32.eq_of_val_eq (Fin.ext (by
    show (v.toNat % 256 ^ 4) % 2 ^ 32 = v.toNat
    have : v.toNat < 4294967296 := v.toNat_lt_size; omega))

private theorem toUInt64_mod (v : UInt64) : (v.toNat % 256 ^ 8).toUInt64 = v :=
  UInt64.eq_of_val_eq (Fin.ext (by
    show (v.toNat % 256 ^ 8) % 2 ^ 64 = v.toNat
    have : v.toNat < 18446744073709551616 := v.toNat_lt_size; omega))

/-! ## Octets and 128-bit values -/

/-- `get` reads back what `set` stores, at every offset whose `n` bytes are in use. -/
def ReadsBack {τ : Type} (n : Nat) (get : Int → WireM τ) (set : Int → τ → WireM Unit) : Prop :=
  ∀ (wb : OfWireBuffer) (offset : Int) (x : τ), 0 ≤ offset → offset + n ≤ wb.currentBytes →
    ∃ wb', (set offset x).run wb = .ok () wb' ∧ (get offset).run wb' = .ok x wb'

/-- The 128-bit macros read back what they store: the high half at `offset`, the low half at
`offset + 8`. -/
theorem u128_reads_back : ReadsBack 16 (fun o => u128Get o) (fun o x => u128Set o x.1 x.2) := by
  intro wb offset x h0 h
  have h1 : accessOk wb (offset + 8) := by simp; omega
  have h2 : accessOk wb (offset + 8 + 8) := by simp; omega
  refine ⟨_, by rw [u128Set_run, if_pos h1, if_pos h2], ?_⟩
  have hhi := bufGet_bufSet_of_disjoint 8 8 (bufSet 8 wb.buf offset x.1.toNat) (offset + 8) offset
    x.2.toNat (by omega)
  have e1 : (x.1.toNat % 18446744073709551616).toUInt64 = x.1 := toUInt64_mod x.1
  have e2 : (x.2.toNat % 18446744073709551616).toUInt64 = x.2 := toUInt64_mod x.2
  simp [u128Get, ofWireBufferU64Get, scalarGet_run, hhi, bufGet_bufSet_self, e1, e2,
    show 0 < offset + 8 by omega, show offset + 8 ≤ wb.currentBytes by omega,
    show 0 < offset + 8 + 8 by omega, show offset + 8 + 8 ≤ wb.currentBytes by omega]

/-- A value stored through an encoding `g` and read back through `f` with `f ∘ g = id` reads
back. -/
theorem ReadsBack.map {τ σ : Type} {n : Nat} {get : Int → WireM τ} {set : Int → τ → WireM Unit}
    (h : ReadsBack n get set) (f : τ → σ) (g : σ → τ) (hfg : ∀ x, f (g x) = x) :
    ReadsBack n (fun o => f <$> get o) (fun o x => set o (g x)) := by
  intro wb offset x h0 hn
  obtain ⟨wb', hs, hg⟩ := h wb offset (g x) h0 hn
  exact ⟨wb', hs, by simp [hg, hfg]⟩

/-- The octet wrappers store the `n ≥ 0` bytes at `src` at an offset where they are in use, and
change nothing else, when the extent `offset + n` is positive; the getter reads them back. -/
theorem wbufOctets_reads_back (wb : OfWireBuffer) (offset n : Int) (src dst : Nat → UInt8)
    (hn : 0 ≤ n) (hpos : 0 < offset + n) (h : offset + n ≤ wb.currentBytes) :
    let wb' := { wb with buf := wb.buf.write offset ((List.range n.toNat).map src) }
    (wbufOctetsSet offset src n).run wb = .ok () wb' ∧
      (wbufOctetsGet offset dst n).run wb' = .ok ((List.range n.toNat).map src) wb' := by
  have hs : toSizeT n = n.toNat := toSizeT_of_nonneg hn
  have hr := Store.read_write_self wb.buf offset ((List.range n.toNat).map src)
  simp only [List.length_map, List.length_range] at hr
  simp [wbufOctetsSet, wbufOctetsGet, ofWireBufferOctetsDataSet_run, ofWireBufferOctetsDataGet_run,
    bufOctetsSet, bufOctetsGet, hs, hr, hpos, h]

/-- The header's accessors make the buffer a byte array, for every pair: the fixed-width
getters and setters, the octet wrappers (behind the fixed-length macros) for a positive extent,
and the 128-bit macros. -/
theorem wire_buffer_byte_array :
    ScalarLaw 1 ofWireBufferU8Get ofWireBufferU8Set UInt8.toNat ∧
    ScalarLaw 2 ofWireBufferU16Get ofWireBufferU16Set UInt16.toNat ∧
    ScalarLaw 4 ofWireBufferU32Get ofWireBufferU32Set UInt32.toNat ∧
    ScalarLaw 8 ofWireBufferU64Get ofWireBufferU64Set UInt64.toNat ∧
    ScalarLaw 4 ofWireBufferIpv4Get ofWireBufferIpv4Set UInt32.toNat ∧
    (∀ (wb : OfWireBuffer) (offset n : Int) (src dst : Nat → UInt8),
      0 ≤ offset → 0 ≤ n → 0 < offset + n → offset + n ≤ wb.currentBytes →
      let wb' := { wb with buf := wb.buf.write offset ((List.range n.toNat).map src) }
      (wbufOctetsSet offset src n).run wb = .ok () wb' ∧
        (wbufOctetsGet offset dst n).run wb' = .ok ((List.range n.toNat).map src) wb') ∧
    ReadsBack 16 ofWireBufferBitmap128Get ofWireBufferBitmap128Set ∧
    ReadsBack 16 ofWireBufferChecksum128Get ofWireBufferChecksum128Set :=
  ⟨scalarLaw_of 1 (by decide) _ Nat.toUInt8 toUInt8_mod,
    scalarLaw_of 2 (by decide) _ Nat.toUInt16 toUInt16_mod,
    scalarLaw_of 4 (by decide) _ Nat.toUInt32 toUInt32_mod,
    scalarLaw_of 8 (by decide) _ Nat.toUInt64 toUInt64_mod,
    scalarLaw_of 4 (by decide) _ Nat.toUInt32 toUInt32_mod,
    fun wb offset n src dst _ hn hpos h => wbufOctets_reads_back wb offset n src dst hn hpos h,
    u128_reads_back.map (fun p => (⟨p.1, p.2⟩ : OfBitmap128)) (fun x => (x.hi, x.lo)) fun _ => rfl,
    u128_reads_back.map (fun p => (⟨p.1, p.2⟩ : OfChecksum128)) (fun x => (x.hi, x.lo)) fun _ => rfl⟩

/-- Storing no octets at offset 0 and reading them back aborts instead of giving no bytes: the
check's extent `0 + 0` is not positive. -/
theorem empty_octets_at_zero_abort :
    (wbufOctetsSet 0 (fun _ => 0) 0 *> wbufOctetsGet 0 (fun _ => 0) 0).run' oneByteBuffer = none := by
  decide

/-! ## Versioned fields -/

/-- What a versioned pair does at `version`, where the field is `W` bytes wide, at an offset whose
`W` bytes are in use: the setter stores the `W` low bytes of the value in network order there and
changes nothing else, and the getter then returns the value modulo `2 ^ (8 * W)`, zero-extended
to the field's C type. -/
def VersionedLaw {τ : Type} (get : Int → Int → WireM τ) (set : Int → Int → τ → WireM Unit)
    (toNat : τ → Nat) (ofNat : Nat → τ) (version : Int) (W : Nat) : Prop :=
  ∀ (wb : OfWireBuffer) (offset : Int) (v : τ), 0 ≤ offset → offset + W ≤ wb.currentBytes →
    let wb' := { wb with buf := wb.buf.write offset (bytesBE W (toNat v)) }
    (set version offset v).run wb = .ok () wb' ∧
      (get version offset).run wb' = .ok (ofNat (toNat v % 2 ^ (8 * W))) wb'

/-- The family law, at a version whose table entry is `W > 0` bytes. -/
theorem versionedLaw_of {τ : Type} (width : Int → Option Nat) {version : Int} {W : Nat}
    (hw : width version = some W) (hW : 0 < W) (toNat : τ → Nat) (ofNat : Nat → τ) :
    VersionedLaw (fun ver o => ofNat <$> versionedGet width ver o)
      (fun ver o v => versionedSet width ver o (toNat v)) toNat ofNat version W := by
  intro wb offset v h0 h
  have hok : accessOk wb (offset + W) := by simp; omega
  have hset := bufGet_bufSet_self W wb.buf offset (toNat v)
  have hpow : (2 : Nat) ^ (8 * W) = 256 ^ W := by rw [Nat.pow_mul]
  simp only [bufSet] at hset
  simp [versionedSet_run, versionedGet_run, hw, scalarSet_run, scalarGet_run, hok, bufSet, hset,
    hpow, show 0 < offset + W by omega, h]

/-- The versioned pairs, at each of the four versions, with the widths of §4.3: the port number
is 2 bytes in 1.0 and 4 after, the flow-mod command 2 bytes in 1.0 and 1 after, the wildcard and
match bitmaps 4 bytes in 1.0 and 1.1 and 8 after. -/
theorem versioned_field_round_trip (version : Int)
    (hv : version = ofVersion1_0 ∨ version = ofVersion1_1 ∨ version = ofVersion1_2 ∨
      version = ofVersion1_3) :
    VersionedLaw ofWireBufferPortNoGet ofWireBufferPortNoSet UInt32.toNat Nat.toUInt32 version
      (if version = ofVersion1_0 then 2 else 4) ∧
    VersionedLaw ofWireBufferFmCmdGet ofWireBufferFmCmdSet UInt16.toNat Nat.toUInt16 version
      (if version = ofVersion1_0 then 2 else 1) ∧
    VersionedLaw ofWireBufferWcBmapGet ofWireBufferWcBmapSet UInt64.toNat Nat.toUInt64 version
      (if version = ofVersion1_0 ∨ version = ofVersion1_1 then 4 else 8) ∧
    VersionedLaw ofWireBufferMatchBmapGet ofWireBufferMatchBmapSet UInt64.toNat Nat.toUInt64 version
      (if version = ofVersion1_0 ∨ version = ofVersion1_1 then 4 else 8) := by
  have hp : portNoWidth version = some (if version = ofVersion1_0 then 2 else 4) := by
    rcases hv with rfl | rfl | rfl | rfl <;> decide
  have hf : fmCmdWidth version = some (if version = ofVersion1_0 then 2 else 1) := by
    rcases hv with rfl | rfl | rfl | rfl <;> decide
  have hc : wcBmapWidth version = some (if version = ofVersion1_0 ∨ version = ofVersion1_1 then 4 else 8) := by
    rcases hv with rfl | rfl | rfl | rfl <;> decide
  exact ⟨versionedLaw_of _ hp (by split <;> decide) _ _, versionedLaw_of _ hf (by split <;> decide) _ _,
    versionedLaw_of _ hc (by split <;> decide) _ _, versionedLaw_of _ hc (by split <;> decide) _ _⟩

/-- The spec's scenario: `0xDEADBEEF` stored as a port number of wire version 3 (OpenFlow 1.2) at
offset 4 of a fresh buffer grown to 16 bytes reads back as `0xDEADBEEF`. -/
theorem port_no_deadbeef_round_trip :
    (ofVersion1_2 = ofVersion1_0 ∨ ofVersion1_2 = ofVersion1_1 ∨ ofVersion1_2 = ofVersion1_2 ∨
      ofVersion1_2 = ofVersion1_3) ∧
    (ofWireBufferPortNoSet ofVersion1_2 4 0xDEADBEEF *> ofWireBufferPortNoGet ofVersion1_2 4).run
      grownFresh = .ok 0xDEADBEEF { grownFresh with buf := grownFresh.buf.write 4 (bytesBE 4 0xDEADBEEF) } := by
  have hv : ofVersion1_2 = ofVersion1_0 ∨ ofVersion1_2 = ofVersion1_1 ∨ ofVersion1_2 = ofVersion1_2 ∨
      ofVersion1_2 = ofVersion1_3 := by decide
  obtain ⟨hset, hget⟩ :=
    (versioned_field_round_trip ofVersion1_2 hv).1 grownFresh 4 0xDEADBEEF (by decide) (by decide)
  refine ⟨hv, ?_⟩
  rw [run_seqRight, hset]
  exact hget

/-- On a version none of the switches knows, every versioned getter and setter fails its
`LOCI_ASSERT(0)` and leaves the buffer as it was, for every buffer, offset and value (§4.3). -/
theorem unknown_version_aborts (version : Int)
    (hv : ¬(version = ofVersion1_0 ∨ version = ofVersion1_1 ∨ version = ofVersion1_2 ∨
      version = ofVersion1_3))
    (wb : OfWireBuffer) (offset : Int) (portNo : OfPortNo) (fmCmd : OfFmCmd) (wcBmap : OfWcBmap) :
    (ofWireBufferPortNoGet version offset).run wb = .error () wb ∧
    (ofWireBufferPortNoSet version offset portNo).run wb = .error () wb ∧
    (ofWireBufferFmCmdGet version offset).run wb = .error () wb ∧
    (ofWireBufferFmCmdSet version offset fmCmd).run wb = .error () wb ∧
    (ofWireBufferWcBmapGet version offset).run wb = .error () wb ∧
    (ofWireBufferWcBmapSet version offset wcBmap).run wb = .error () wb := by
  simp only [not_or] at hv
  obtain ⟨h0, h1, h2, h3⟩ := hv
  have hp : portNoWidth version = none := by simp [portNoWidth, h0, h1, h2, h3]
  have hf : fmCmdWidth version = none := by simp [fmCmdWidth, h0, h1, h2, h3]
  have hc : wcBmapWidth version = none := by simp [wcBmapWidth, h0, h1, h2, h3]
  simp [ofWireBufferPortNoGet, ofWireBufferPortNoSet, ofWireBufferFmCmdGet, ofWireBufferFmCmdSet,
    ofWireBufferWcBmapGet, ofWireBufferWcBmapSet, versionedGet_run, versionedSet_run, hp, hf, hc]

end Loci
