import LociWireBuf.Refinement

/-!
# Programs of calls

A client of the header makes calls one after the other on a buffer. This module lifts the
per-call refinement to such programs.

* `Call.spec`: the abstract call of each call of the header that has one: all but the 128-bit
  setter, which is not atomic, and `of_wire_buffer_move_end`, and only when aimed at a
  nonnegative offset with a positive extent.
* `runCalls_refines`: from every represented buffer, a program of such calls does what its
  abstract program does, aborting at the same call where the abstract program fails, on a buffer
  that represents the abstract state there.
* `disjoint_stores_commute`: accepted fixed-width stores to disjoint ranges write their bytes and
  give the same buffer in every order.
-/

namespace Loci

/-- `f` at `offset`, when `offset` is nonnegative and `ok` holds. -/
def aimedAt (offset : Int) (ok : Prop) [Decidable ok] (f : Nat → WireSpec Unit) :
    Option (WireSpec Unit) :=
  if 0 ≤ offset ∧ ok then some (f offset.toNat) else none

theorem aimedAt_eq_some {offset : Int} {ok : Prop} [Decidable ok] {f : Nat → WireSpec Unit}
    {g : WireSpec Unit} (h : aimedAt offset ok f = some g) : ∃ n : Nat, offset = n ∧ ok ∧ g = f n := by
  unfold aimedAt at h
  split_ifs at h with hc
  cases h
  obtain ⟨n, rfl⟩ := Int.eq_ofNat_of_zero_le hc.1
  exact ⟨n, rfl, hc.2, rfl⟩

/-- The abstract call a call of the header implements, when it has one: an accessor aimed at a
nonnegative offset with a positive extent (a versioned one at its table's width, an octet setter
with `cur_len` `0` or the count), `of_match_bytes` at a nonnegative offset, and
`of_wire_buffer_grow`. The 128-bit setter, which is not atomic, and `of_wire_buffer_move_end`
have none. -/
def Call.spec : Call → Option (WireSpec Unit)
  | .scalarGet w offset => aimedAt offset (0 < offset + w) fun o =>
    (fun _ => ()) <$> fromBE <$> readBytes o w
  | .octetsDataGet offset value =>
    aimedAt offset (0 ≤ value.bytes ∧ 0 < offset + value.bytes) fun o =>
      (fun _ => ()) <$> readBytes o value.bytes.toNat
  | .versionedGet width version offset =>
    aimedAt offset ((width version).all (fun (w : Nat) => 0 < offset + w) = true) fun o =>
      (fun _ => ()) <$> versionedRead width version o
  | .u128Get offset => aimedAt offset True fun o => (fun _ => ()) <$> u128Read o
  | .matchBytes formula offset => aimedAt offset True fun o =>
    (fun _ => ()) <$> (Nat.toUInt16 <$> fromBE <$> readBytes (o + 2) 2 >>= fun len =>
      pure (formula len))
  | .mutate (.scalarSet w offset v) => aimedAt offset (0 < offset + w) fun o =>
    writeBytes o (bytesBE w v)
  | .mutate (.octetsDataSet offset value curLen) =>
    aimedAt offset (0 ≤ value.bytes ∧ 0 < offset + value.bytes ∧
      (curLen = 0 ∨ curLen = value.bytes)) fun o =>
      writeBytes o ((List.range value.bytes.toNat).map value.data)
  | .mutate (.versionedSet width version offset value) =>
    aimedAt offset ((width version).all (fun (w : Nat) => 0 < offset + w) = true) fun o =>
      versionedWrite width version o value
  | .mutate (.u128Set _ _ _) => none
  | .mutate (.grow bytes) => some (growTo bytes)
  | .mutate (.moveEnd _ _) => none

theorem width_pos_of_all {width : Int → Option Nat} {version : Int} {offset : Nat}
    (h : (width version).all (fun (w : Nat) => 0 < (offset : Int) + w) = true) :
    ∀ w, width version = some w → 0 < offset + w := fun w hw => by
  simp only [hw, Option.all_some, decide_eq_true_eq] at h; omega

/-- A call with an abstract call implements it. -/
theorem Call.spec_simulates {c : Call} {f : WireSpec Unit} (h : c.spec = some f) :
    Simulates c.exec f := by
  cases c with
  | scalarGet w offset =>
    obtain ⟨n, rfl, hw, rfl⟩ := aimedAt_eq_some (by rwa [Call.spec] at h)
    exact (scalarGet_simulates n w (by omega)).map _
  | octetsDataGet offset value =>
    obtain ⟨n, rfl, ⟨hk, hpos⟩, rfl⟩ := aimedAt_eq_some (by rwa [Call.spec] at h)
    obtain ⟨k, hk⟩ := Int.eq_ofNat_of_zero_le hk
    rw [hk]
    exact (octetsDataGet_simulates n value k hk (by omega)).map _
  | versionedGet width version offset =>
    obtain ⟨n, rfl, hw, rfl⟩ := aimedAt_eq_some (by rwa [Call.spec] at h)
    exact (versionedGet_simulates n width version (width_pos_of_all hw)).map _
  | u128Get offset =>
    obtain ⟨n, rfl, -, rfl⟩ := aimedAt_eq_some (by rwa [Call.spec] at h)
    exact (u128Get_simulates n).map _
  | matchBytes formula offset =>
    obtain ⟨n, rfl, -, rfl⟩ := aimedAt_eq_some (by rwa [Call.spec] at h)
    exact (matchBytes_simulates formula n).map _
  | mutate op =>
    cases op with
    | scalarSet w offset v =>
      obtain ⟨n, rfl, hw, rfl⟩ := aimedAt_eq_some (by rwa [Call.spec] at h)
      exact scalarSet_simulates n w v (by omega)
    | octetsDataSet offset value curLen =>
      obtain ⟨n, rfl, ⟨hk, hpos, hcur⟩, rfl⟩ := aimedAt_eq_some (by rwa [Call.spec] at h)
      obtain ⟨k, hk⟩ := Int.eq_ofNat_of_zero_le hk
      rw [hk]
      exact octetsDataSet_simulates n value curLen k hk (hk ▸ hcur) (by omega)
    | versionedSet width version offset value =>
      obtain ⟨n, rfl, hw, rfl⟩ := aimedAt_eq_some (by rwa [Call.spec] at h)
      exact versionedSet_simulates n width version value (width_pos_of_all hw)
    | u128Set => cases h
    | grow bytes => cases h; exact grow_simulates bytes
    | moveEnd => cases h

/-- The calls `cs`, made one after the other. -/
def runCalls : List Call → WireM Unit
  | [] => pure ()
  | c :: cs => c.exec *> runCalls cs

/-- The abstract calls `fs`, one after the other. -/
def runSpecs : List (WireSpec Unit) → WireSpec Unit
  | [] => pure ()
  | f :: fs => f *> runSpecs fs

/-- A program of calls that each have an abstract call, run on a buffer that represents a byte
array, does what the abstract program does. Where the abstract program succeeds, the program
returns and its buffer represents the abstract result. Where it fails, it fails at some call
`n`, from the state `a'` its first `n` calls reach; the program's first `n` calls then return
with a buffer `wb'` that represents `a'`, its call `n` aborts there and leaves `wb'` as it was,
and the program aborts with `wb'`. -/
theorem runCalls_refines {cs : List Call} {fs : List (WireSpec Unit)}
    (hcs : List.Forall₂ (fun c f => c.spec = some f) cs fs) (wb : OfWireBuffer) (a : WireBytes)
    (h : Represents wb a) :
    (∀ a', (runSpecs fs).run a = some ((), a') →
      ∃ wb', (runCalls cs).run wb = .ok () wb' ∧ Represents wb' a') ∧
    ((runSpecs fs).run a = none →
      ∃ n c f a' wb', cs[n]? = some c ∧ fs[n]? = some f ∧
        (runSpecs (fs.take n)).run a = some ((), a') ∧ f.run a' = none ∧
        (runCalls (cs.take n)).run wb = .ok () wb' ∧ c.exec.run wb' = .error () wb' ∧
        (runCalls cs).run wb = .error () wb' ∧ Represents wb' a') := by
  induction hcs generalizing wb a with
  | nil => exact ⟨fun a' ha => by cases ha; exact ⟨wb, rfl, h⟩, fun ha => by cases ha⟩
  | @cons c f cs fs hc _ ih =>
    have hs := Call.spec_simulates hc
    simp only [runSpecs, runCalls, StateT.run_seqRight, run_seqRight, Option.bind_eq_bind]
    cases hfa : f.run a with
    | none =>
      -- the first call fails: the index is 0, and the buffer is the one the program started with
      have habort := hs.abort wb a h hfa
      refine ⟨fun a' ha => by simp at ha, fun _ => ⟨0, c, f, a, wb, List.getElem?_cons_zero,
        List.getElem?_cons_zero, rfl, hfa, rfl, habort, by rw [habort], h⟩⟩
    | some p =>
      -- the first call returns: the rest of the program runs from the states it reaches
      obtain ⟨wb₁, hrun, h₁⟩ := hs.ok wb a p.1 p.2 h hfa
      obtain ⟨hok, hab⟩ := ih wb₁ p.2 h₁
      rw [hrun]
      refine ⟨fun a' ha => hok a' (by simpa using ha), fun ha => ?_⟩
      obtain ⟨n, c', f', a', wb', hc', hf', hpre, hfail, hrun', habort, hall, hrep⟩ :=
        hab (by simpa using ha)
      refine ⟨n + 1, c', f', a', wb', List.getElem?_cons_succ.trans hc',
        List.getElem?_cons_succ.trans hf', ?_, hfail, ?_, habort, hall, hrep⟩
      · simp [runSpecs, hfa, hpre]
      · simpa [runCalls, hrun] using hrun'

/-- A program that stores `0xABCD` at offset 0 and reads it back. -/
def storeThenLoad : List Call := [.mutate (.scalarSet 2 0 0xABCD), .scalarGet 2 0]

/-- Its abstract program. -/
def storeThenLoadSpec : List (WireSpec Unit) :=
  [writeBytes 0 (bytesBE 2 0xABCD), (fun _ => ()) <$> fromBE <$> readBytes 0 2]

/-- `storeThenLoad` on `grownFresh` does what its abstract program does. -/
theorem grownFresh_program_refines :
    List.Forall₂ (fun c f => Call.spec c = some f) storeThenLoad storeThenLoadSpec ∧
    ∃ a, Represents grownFresh a ∧
      (∀ a', (runSpecs storeThenLoadSpec).run a = some ((), a') →
        ∃ wb', (runCalls storeThenLoad).run grownFresh = .ok () wb' ∧ Represents wb' a') ∧
      ((runSpecs storeThenLoadSpec).run a = none →
        ∃ n c f a' wb', storeThenLoad[n]? = some c ∧ storeThenLoadSpec[n]? = some f ∧
          (runSpecs (storeThenLoadSpec.take n)).run a = some ((), a') ∧ f.run a' = none ∧
          (runCalls (storeThenLoad.take n)).run grownFresh = .ok () wb' ∧
          c.exec.run wb' = .error () wb' ∧ (runCalls storeThenLoad).run grownFresh = .error () wb' ∧
          Represents wb' a') := by
  have hcs : List.Forall₂ (fun c f => Call.spec c = some f) storeThenLoad storeThenLoadSpec :=
    .cons rfl (.cons rfl .nil)
  have h := represents_toWireBytes (capacityInv_of_reachable grownFresh_reachable)
  exact ⟨hcs, _, h, runCalls_refines hcs grownFresh _ h⟩

/-! ## The order of stores -/

/-- The fixed-width stores `ops`, each a width, an offset and a value, as calls. -/
def storeCalls (ops : List (Nat × Int × Nat)) : List Call :=
  ops.map fun op => .mutate (.scalarSet op.1 op.2.1 op.2.2)

/-- Accepted stores, one after the other, store their bytes in turn; none moves an extent, so
each is checked against the same `current_bytes`. -/
theorem runCalls_storeCalls (ops : List (Nat × Int × Nat)) (wb : OfWireBuffer)
    (hacc : ∀ op ∈ ops, accessOk wb (op.2.1 + op.1)) :
    (runCalls (storeCalls ops)).run wb =
      .ok () { wb with buf := ops.foldl (fun s op => bufSet op.1 s op.2.1 op.2.2) wb.buf } := by
  induction ops generalizing wb with
  | nil => rfl
  | cons op ops ih =>
    rw [storeCalls, List.map_cons, runCalls, run_seqRight, Call.exec, MutOp.exec, scalarSet_run,
      if_pos (hacc op (List.mem_cons_self _ _))]
    exact ih _ fun op' h => hacc op' (List.mem_cons_of_mem _ h)

/-- Fixed-width stores to pairwise disjoint ranges that the check accepts all return, and leave
the buffer with each store's bytes written at its offset and nothing else changed; and they leave
the same buffer in every order: the order in which a message's fields are set does not matter. -/
theorem disjoint_stores_commute (wb : OfWireBuffer) {ops ops' : List (Nat × Int × Nat)}
    (hp : ops.Perm ops') (hacc : ∀ op ∈ ops, accessOk wb (op.2.1 + op.1))
    (hdis : ∀ a ∈ ops, ∀ b ∈ ops, a ≠ b → a.2.1 + (a.1 : Int) ≤ b.2.1 ∨ b.2.1 + (b.1 : Int) ≤ a.2.1) :
    (runCalls (storeCalls ops)).run wb =
      .ok () { wb with buf := ops.foldl (fun s op => bufSet op.1 s op.2.1 op.2.2) wb.buf } ∧
    (runCalls (storeCalls ops)).run wb = (runCalls (storeCalls ops')).run wb := by
  refine ⟨runCalls_storeCalls ops wb hacc, ?_⟩
  rw [runCalls_storeCalls ops wb hacc,
    runCalls_storeCalls ops' wb fun op h => hacc op (hp.mem_iff.mpr h), hp.foldl_eq' ?_]
  intro x hx y hy s
  by_cases hxy : x = y
  · rw [hxy]
  · exact Store.write_comm _ (by simpa only [length_bytesBE] using hdis x hx y hy hxy)

/-- Two 16-bit stores at offsets 0 and 2 of `grownFresh`, in either order. -/
theorem grownFresh_stores_commute :
    [(2, (0 : Int), 1), (2, 2, 5)].Perm [(2, 2, 5), (2, (0 : Int), 1)] ∧
    (∀ op ∈ [(2, (0 : Int), 1), (2, 2, 5)], accessOk grownFresh (op.2.1 + op.1)) ∧
    (∀ a ∈ [(2, (0 : Int), 1), (2, 2, 5)], ∀ b ∈ [(2, (0 : Int), 1), (2, 2, 5)], a ≠ b →
      a.2.1 + (a.1 : Int) ≤ b.2.1 ∨ b.2.1 + (b.1 : Int) ≤ a.2.1) ∧
    (runCalls (storeCalls [(2, 0, 1), (2, 2, 5)])).run grownFresh =
      (runCalls (storeCalls [(2, 2, 5), (2, 0, 1)])).run grownFresh :=
  ⟨by decide, by decide, by decide,
    (disjoint_stores_commute grownFresh (by decide) (by decide) (by decide)).2⟩

end Loci
