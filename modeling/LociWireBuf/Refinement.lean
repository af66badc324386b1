import LociWireBuf.ByteArray
import LociWireBuf.Capacity

/-!
# The header's calls implement the byte array

* `Represents wb a`: `wb` keeps the capacity invariant, its block holds `a.data`, and its extent
  in use is `a.used`. By `represents_of_reachable`, every buffer reached without
  `of_wire_buffer_move_end` represents one.
* `Simulates c f`: the call `c` implements the abstract call `f` from every represented buffer.
  Where `f` succeeds, `c` returns what `f` returns and its buffer represents `f`'s state. Where
  `f` fails, `c` aborts and leaves the buffer as it was. `Simulates` is closed under `map` and,
  after a call that changes nothing, under `bind`.
* `calls_refine_wire_bytes`: at every nonnegative offset, each accessor implements its abstract
  call, and `of_wire_buffer_grow` implements `growTo`. The exception is an access of `0` bytes at
  offset `0`: it aborts where the abstract access succeeds.
-/

namespace Loci

/-! ## The representation -/

/-- `wb` represents `a`: it keeps the capacity invariant, the block `buf` holds has the bytes
`a.data`, and the extent in use is `a.used`. -/
structure Represents (wb : OfWireBuffer) (a : WireBytes) : Prop where
  inv : CapacityInv wb
  data_eq : wb.buf.read 0 wb.allocBytes.toNat = a.data
  used_eq : wb.currentBytes = a.used

/-- The state a buffer that keeps the capacity invariant represents. -/
def toWireBytes (wb : OfWireBuffer) (h : CapacityInv wb) : WireBytes :=
  ⟨wb.buf.read 0 wb.allocBytes.toNat, wb.currentBytes.toNat, by
    have := h.current_nonneg; have := h.current_le_alloc; simp only [Store.length_read]; omega⟩

section Represents

variable {wb : OfWireBuffer} {a : WireBytes}

theorem represents_toWireBytes (h : CapacityInv wb) : Represents wb (toWireBytes wb h) :=
  ⟨h, rfl, by have := h.current_nonneg; simp only [toWireBytes]; omega⟩

/-- Every buffer reached without `of_wire_buffer_move_end` represents a byte array whose extent
in use lies in its block. -/
theorem represents_of_reachable (h : Reachable (fun c => c.isMoveEnd = false) wb) :
    ∃ a, Represents wb a :=
  ⟨_, represents_toWireBytes (capacityInv_of_reachable h)⟩

/-- `of_wire_buffer_new(0)` grown to 16 bytes represents a byte array. -/
theorem grownFresh_represents :
    Reachable (fun c => c.isMoveEnd = false) grownFresh ∧ ∃ a, Represents grownFresh a :=
  ⟨grownFresh_reachable, represents_of_reachable grownFresh_reachable⟩

theorem Represents.accessOk_iff (h : Represents wb a) (e : Int) :
    accessOk wb e = true ↔ 0 < e ∧ e ≤ a.used := by
  rw [Loci.accessOk_iff, h.used_eq]

theorem Represents.length_data (h : Represents wb a) : a.data.length = wb.allocBytes.toNat := by
  rw [← h.data_eq, Store.length_read]

/-- Inside the extent in use, the block's bytes are the abstract ones. -/
theorem Represents.read_eq (h : Represents wb a) {offset n : Nat} (hn : offset + n ≤ a.used) :
    wb.buf.read offset n = (a.data.drop offset).take n := by
  have := h.inv.current_le_alloc
  have := h.used_eq
  rw [← h.data_eq, Store.drop_read, Store.take_read, Int.zero_add, Nat.min_eq_left (by omega)]

/-- A store the abstract call admits keeps the representation, of the abstract store. -/
theorem Represents.write (h : Represents wb a) {offset : Nat} {bs : List UInt8} {a' : WireBytes}
    (hw : (writeBytes offset bs).run a = some ((), a')) :
    Represents { wb with buf := wb.buf.write offset bs } a' := by
  rw [writeBytes_run] at hw
  split at hw
  · cases hw
    have := h.inv.current_le_alloc
    have := h.used_eq
    have hm : offset + bs.length ≤ wb.allocBytes.toNat := by omega
    refine ⟨⟨h.inv.1, h.inv.2, h.inv.3⟩, ?_, h.used_eq⟩
    rw [Store.read_write_window _ _ _ hm, h.data_eq, WireBytes.overwrite_data]
  · cases hw

end Represents

/-! ## Simulation -/

/-- `c` changes nothing when it returns. -/
def ReadOnly {α : Type} (c : WireM α) : Prop := ∀ wb r wb', c.run wb = .ok r wb' → wb' = wb

theorem ReadOnly.map {α β : Type} {c : WireM α} (g : α → β) (h : ReadOnly c) : ReadOnly (g <$> c) := by
  intro wb r wb' hrun
  rw [run_map] at hrun
  split at hrun
  · next hc => cases hrun; exact h _ _ _ hc
  · cases hrun

/-- `c` implements the abstract call `f` from every buffer that represents a state: where `f`
succeeds, `c` returns what `f` returns and leaves a buffer representing `f`'s state; where `f`
fails, `c` aborts and leaves the buffer as it was (§7). -/
structure Simulates {α : Type} (c : WireM α) (f : WireSpec α) : Prop where
  ok : ∀ wb a r a', Represents wb a → f.run a = some (r, a') →
    ∃ wb', c.run wb = .ok r wb' ∧ Represents wb' a'
  abort : ∀ wb a, Represents wb a → f.run a = none → c.run wb = .error () wb

section Simulates

variable {α β : Type}

theorem Simulates.pure (r : α) : Simulates (pure r : WireM α) (pure r) where
  ok := fun wb _ _ _ h hf => by cases hf; exact ⟨wb, rfl, h⟩
  abort := fun _ _ _ hf => by cases hf

theorem Simulates.map (g : α → β) {c : WireM α} {f : WireSpec α} (h : Simulates c f) :
    Simulates (g <$> c) (g <$> f) where
  ok := fun wb a r a' hr hf => by
    simp only [StateT.run_map, Option.map_eq_map, Option.map_eq_some', Prod.exists, Prod.mk.injEq] at hf
    obtain ⟨r₀, _, hfa, rfl, rfl⟩ := hf
    obtain ⟨wb', hrun, h'⟩ := h.ok wb a _ _ hr hfa
    exact ⟨wb', by simp [hrun], h'⟩
  abort := fun wb a hr hf => by
    simp only [StateT.run_map, Option.map_eq_map, Option.map_eq_none'] at hf
    simp [h.abort wb a hr hf]

/-- A call that changes nothing, followed by calls that each implement their abstract call. -/
theorem Simulates.bind {x : WireM α} {f : WireSpec α} {g : α → WireM β} {k : α → WireSpec β}
    (hx : Simulates x f) (hro : ReadOnly x) (hg : ∀ r, Simulates (g r) (k r)) :
    Simulates (x >>= g) (f >>= k) where
  ok := fun wb a r a' hr hf => by
    simp only [StateT.run_bind, Option.bind_eq_bind, Option.bind_eq_some] at hf
    obtain ⟨⟨r₀, a₀⟩, hfa, hk⟩ := hf
    obtain ⟨wb₀, hrun, h₀⟩ := hx.ok wb a r₀ a₀ hr hfa
    obtain ⟨wb', hrun', h'⟩ := (hg r₀).ok wb₀ a₀ r a' h₀ hk
    exact ⟨wb', by simp [hrun, hrun'], h'⟩
  abort := fun wb a hr hf => by
    simp only [StateT.run_bind, Option.bind_eq_bind, Option.bind_eq_none] at hf
    cases hfa : f.run a with
    | none => simp [hx.abort wb a hr hfa]
    | some p =>
      obtain ⟨wb₀, hrun, h₀⟩ := hx.ok wb a p.1 p.2 hr hfa
      obtain rfl := hro wb _ _ hrun
      simp [hrun, (hg p.1).abort wb₀ p.2 h₀ (hf p hfa)]

/-- A call that always aborts, leaving the buffer, implements a violation. -/
theorem simulates_failure {c : WireM α} (hc : ∀ wb, c.run wb = .error () wb) :
    Simulates c failure where
  ok := fun _ _ _ _ _ hf => by cases hf
  abort := fun wb _ _ _ => hc wb

/-- A checked read of the `n` bytes at `offset` implements `readBytes`, decoded alike, when the
extent it checks is `offset + n` and positive. -/
theorem simulates_of_read {c : WireM α} {offset n : Nat} (dec : List UInt8 → α) (e : Int)
    (hrun : ∀ wb, c.run wb =
      if accessOk wb e then .ok (dec (wb.buf.read offset n)) wb else .error () wb)
    (he : e = offset + n) (hpos : 0 < offset + n) : Simulates c (dec <$> readBytes offset n) where
  ok := fun wb a r a' hr hf => by
    simp only [StateT.run_map, readBytes_run] at hf
    split at hf
    · next hn =>
      simp only [Option.map_eq_map, Option.map_some', Option.some.injEq, Prod.mk.injEq] at hf
      obtain ⟨rfl, rfl⟩ := hf
      refine ⟨wb, ?_, hr⟩
      rw [hrun, if_pos ((hr.accessOk_iff e).2 (by omega)), hr.read_eq hn]
    · cases hf
  abort := fun wb a hr hf => by
    simp only [StateT.run_map, readBytes_run] at hf
    split at hf
    · cases hf
    · rw [hrun, if_neg (by rw [hr.accessOk_iff]; omega)]

/-- A checked store of `bs` at `offset` implements `writeBytes` when the extent it checks is
`offset + bs.length` and positive. -/
theorem simulates_of_write {c : WireM Unit} {offset : Nat} {bs : List UInt8} (e : Int)
    (hrun : ∀ wb, c.run wb = if accessOk wb e then .ok () { wb with buf := wb.buf.write offset bs }
      else .error () wb)
    (he : e = offset + bs.length) (hpos : 0 < offset + bs.length) :
    Simulates c (writeBytes offset bs) where
  ok := fun wb a r a' hr hf => by
    refine ⟨_, ?_, hr.write hf⟩
    rw [writeBytes_run] at hf
    split at hf
    · rw [hrun, if_pos ((hr.accessOk_iff e).2 (by omega))]
    · cases hf
  abort := fun wb a hr hf => by
    rw [writeBytes_run] at hf
    split at hf
    · cases hf
    · rw [hrun, if_neg (by rw [hr.accessOk_iff]; omega)]

end Simulates

/-! ## The calls of the header -/

section Calls

variable (offset : Nat)

theorem scalarGet_readOnly (w : Nat) (offset : Int) : ReadOnly (scalarGet w offset) := by
  intro wb r wb' h
  rw [scalarGet_run] at h
  split at h <;> cases h; rfl

theorem scalarGet_simulates (w : Nat) (hw : 0 < offset + w) :
    Simulates (scalarGet w offset) (fromBE <$> readBytes offset w) :=
  simulates_of_read fromBE _ (fun wb => scalarGet_run wb w offset) rfl hw

theorem scalarSet_simulates (w v : Nat) (hw : 0 < offset + w) :
    Simulates (scalarSet w offset v) (writeBytes offset (bytesBE w v)) :=
  simulates_of_write _ (fun wb => scalarSet_run wb w offset v) (by simp) (by simpa using hw)

theorem octetsDataGet_simulates (value : OfOctets) (n : Nat) (hn : value.bytes = n)
    (hpos : 0 < offset + n) :
    Simulates (ofWireBufferOctetsDataGet offset value) (readBytes offset n) := by
  have h := simulates_of_read id _ (fun wb => by
    rw [ofWireBufferOctetsDataGet_run, bufOctetsGet, hn, toSizeT_natCast]; rfl) rfl hpos
  rwa [id_map] at h

theorem octetsDataSet_simulates (value : OfOctets) (curLen : Int) (n : Nat) (hn : value.bytes = n)
    (hcur : curLen = 0 ∨ curLen = n) (hpos : 0 < offset + n) :
    Simulates (ofWireBufferOctetsDataSet offset value curLen)
      (writeBytes offset ((List.range n).map value.data)) := by
  have hc : (curLen == 0 || curLen == value.bytes) = true := by
    rw [hn]; rcases hcur with rfl | rfl <;> simp
  exact simulates_of_write _ (fun wb => by
    rw [ofWireBufferOctetsDataSet_run, hc, Bool.true_and, bufOctetsSet, hn, toSizeT_natCast])
    (by simp [hn]) (by simpa using hpos)

theorem versionedGet_simulates (width : Int → Option Nat) (version : Int)
    (hw : ∀ w, width version = some w → 0 < offset + w) :
    Simulates (versionedGet width version offset) (versionedRead width version offset) := by
  cases h : width version with
  | none =>
    simp only [versionedGet, versionedRead, h]
    exact simulates_failure fun wb => by simp [lociAssert_run]
  | some w =>
    simp only [versionedGet, versionedRead, h]
    exact scalarGet_simulates offset w (hw w h)

theorem versionedSet_simulates (width : Int → Option Nat) (version : Int) (value : Nat)
    (hw : ∀ w, width version = some w → 0 < offset + w) :
    Simulates (versionedSet width version offset value) (versionedWrite width version offset value) := by
  cases h : width version with
  | none =>
    simp only [versionedSet, versionedWrite, h]
    exact simulates_failure fun wb => lociAssert_run false wb
  | some w =>
    simp only [versionedSet, versionedWrite, h]
    exact scalarSet_simulates offset w value (hw w h)

theorem u128Get_simulates : Simulates (u128Get offset) (u128Read offset) := by
  have h64 : ∀ o : Nat, Simulates (ofWireBufferU64Get o) (Nat.toUInt64 <$> fromBE <$> readBytes o 8) :=
    fun o => (scalarGet_simulates o 8 (by omega)).map _
  have ro : ∀ o : Int, ReadOnly (ofWireBufferU64Get o) := fun o => (scalarGet_readOnly 8 o).map _
  have h := (h64 offset).bind (ro _) fun hi => (h64 (offset + 8)).bind (ro _) fun lo =>
    Simulates.pure (hi, lo)
  have e : ((offset + 8 : Nat) : Int) = (offset : Int) + 8 := by push_cast; rfl
  rwa [e] at h

theorem matchBytes_simulates (formula : UInt16 → Int) (offset : Nat) :
    Simulates (ofMatchBytes formula offset)
      (Nat.toUInt16 <$> fromBE <$> readBytes (offset + 2) 2 >>= fun len => pure (formula len)) := by
  have h := ((scalarGet_simulates (offset + 2) 2 (by omega)).map Nat.toUInt16).bind
    ((scalarGet_readOnly 2 _).map _) fun len => Simulates.pure (formula len)
  have e : ((offset + 2 : Nat) : Int) = (offset : Int) + 2 := by push_cast; rfl
  rwa [e] at h

theorem grow_simulates (bytes : Int) : Simulates (ofWireBufferGrow bytes) (growTo bytes) where
  ok := fun wb a r a' hr hf => by
    have := hr.inv.current_nonneg
    have := hr.inv.current_le_alloc
    have := hr.used_eq
    have := hr.length_data
    rw [growTo_run] at hf
    split at hf
    · cases hf
      refine ⟨_, by rw [ofWireBufferGrow_run, if_pos (by omega)], ?_⟩
      refine ⟨⟨?_, ?_, hr.inv.alloc_eq_size⟩, hr.data_eq, ?_⟩ <;>
        simp only [WireBytes.extend_used] <;> omega
    · cases hf
  abort := fun wb a hr hf => by
    have := hr.inv.current_nonneg
    have := hr.inv.current_le_alloc
    have := hr.length_data
    rw [growTo_run] at hf
    split at hf
    · cases hf
    · rw [ofWireBufferGrow_run, if_neg (by omega)]

end Calls

/-- At every nonnegative offset, each accessor of the header implements its abstract call on the
byte array the buffer represents, its aborts included, unless it accesses `0` bytes at offset
`0`; `of_wire_buffer_grow` implements `growTo` for every target. A fixed-width member is
`scalarGet`/`scalarSet` at its width, up to the cast of its value (`Simulates.map`). -/
theorem calls_refine_wire_bytes (offset : Nat) :
    (∀ w : Nat, 0 < offset + w →
      Simulates (scalarGet w offset) (fromBE <$> readBytes offset w)) ∧
    (∀ w v : Nat, 0 < offset + w →
      Simulates (scalarSet w offset v) (writeBytes offset (bytesBE w v))) ∧
    (∀ (value : OfOctets) (n : Nat), value.bytes = n → 0 < offset + n →
      Simulates (ofWireBufferOctetsDataGet offset value) (readBytes offset n)) ∧
    (∀ (value : OfOctets) (curLen : Int) (n : Nat), value.bytes = n → (curLen = 0 ∨ curLen = n) →
      0 < offset + n → Simulates (ofWireBufferOctetsDataSet offset value curLen)
        (writeBytes offset ((List.range n).map value.data))) ∧
    (∀ (width : Int → Option Nat) (version : Int), (∀ w, width version = some w → 0 < offset + w) →
      Simulates (versionedGet width version offset) (versionedRead width version offset)) ∧
    (∀ (width : Int → Option Nat) (version : Int) (value : Nat),
      (∀ w, width version = some w → 0 < offset + w) →
      Simulates (versionedSet width version offset value) (versionedWrite width version offset value)) ∧
    Simulates (u128Get offset) (u128Read offset) ∧
    ∀ bytes : Int, Simulates (ofWireBufferGrow bytes) (growTo bytes) :=
  ⟨scalarGet_simulates offset, scalarSet_simulates offset, octetsDataGet_simulates offset,
    octetsDataSet_simulates offset, versionedGet_simulates offset, versionedSet_simulates offset,
    u128Get_simulates offset, grow_simulates⟩

/-- The 16-bit getter at offset `0` implements the abstract read of two bytes. -/
theorem u16_get_at_zero_simulates :
    0 < 0 + 2 ∧ Simulates (scalarGet 2 (0 : Nat)) (fromBE <$> readBytes 0 2) :=
  ⟨by decide, (calls_refine_wire_bytes 0).1 2 (by decide)⟩

end Loci
