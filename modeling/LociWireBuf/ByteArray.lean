import LociWireBuf.Bytes

/-!
# The buffer as a byte array

What a wire buffer is for (§3, §4.2 to §4.4): a block of allocated bytes whose prefix, the extent
in use, holds the message, with accesses that succeed exactly inside that prefix. This module
states that with lists and natural numbers; `Refinement.lean` shows the header's calls implement
it.

* `WireBytes`: the block's bytes and the extent in use, which never passes the block's end.
* `WireSpec`: the abstract calls. They act on a `WireBytes` and give `none` on a contract
  violation. `readBytes`, `writeBytes` and `growTo` are its accesses and its growth;
  `versionedRead`/`versionedWrite` and `u128Read` are built from them.
-/

namespace Loci

/-- What a wire buffer holds (§3): the bytes of its block, and the extent in use, a prefix of the
block. The bytes past the extent are allocated but meaningless. -/
structure WireBytes where
  data : List UInt8
  used : Nat
  used_le : used ≤ data.length

/-- The abstract calls on a `WireBytes`. `none` is a contract violation. -/
abbrev WireSpec := StateT WireBytes Option

/-- The `n` bytes at `offset`, when they lie in the extent in use. -/
def readBytes (offset n : Nat) : WireSpec (List UInt8) := fun a =>
  if offset + n ≤ a.used then some ((a.data.drop offset).take n, a) else none

/-- `a` with `bs` stored at `offset`; the block keeps its length. -/
def WireBytes.overwrite (a : WireBytes) (offset : Nat) (bs : List UInt8) : WireBytes :=
  ⟨a.data.take offset ++ bs ++ a.data.drop (offset + bs.length), a.used, by
    have := a.used_le; simp only [List.length_append, List.length_take, List.length_drop]; omega⟩

/-- `a` with its extent in use moved forward to `bytes`, which the block holds. -/
def WireBytes.extend (a : WireBytes) (bytes : Int) (h : bytes ≤ a.data.length) : WireBytes :=
  ⟨a.data, max a.used bytes.toNat, by have := a.used_le; omega⟩

/-- `bs` stored at `offset`, when it lies in the extent in use. -/
def writeBytes (offset : Nat) (bs : List UInt8) : WireSpec Unit := fun a =>
  if offset + bs.length ≤ a.used then some ((), a.overwrite offset bs) else none

/-- The extent in use moved forward to `bytes`, when the block holds that many bytes. -/
def growTo (bytes : Int) : WireSpec Unit := fun a =>
  if h : bytes ≤ a.data.length then some ((), a.extend bytes h) else none

/-- The abstract versioned getter: the field at the width `width` gives for `version`, and a
violation for a version `width` does not know (§4.3). -/
def versionedRead (width : Int → Option Nat) (version : Int) (offset : Nat) : WireSpec Nat :=
  match width version with
  | some w => fromBE <$> readBytes offset w
  | none => failure

/-- The abstract versioned setter. -/
def versionedWrite (width : Int → Option Nat) (version : Int) (offset value : Nat) :
    WireSpec Unit :=
  match width version with
  | some w => writeBytes offset (bytesBE w value)
  | none => failure

/-- The abstract 128-bit getter: two 8-byte halves in network byte order, the high half first. -/
def u128Read (offset : Nat) : WireSpec (UInt64 × UInt64) := do
  let hi ← Nat.toUInt64 <$> fromBE <$> readBytes offset 8
  let lo ← Nat.toUInt64 <$> fromBE <$> readBytes (offset + 8) 8
  pure (hi, lo)

section Spec

variable {a : WireBytes} {offset n : Nat}

@[simp] theorem readBytes_run : (readBytes offset n).run a =
    if offset + n ≤ a.used then some ((a.data.drop offset).take n, a) else none := rfl

@[simp] theorem WireBytes.overwrite_data (bs : List UInt8) :
    (a.overwrite offset bs).data = a.data.take offset ++ bs ++ a.data.drop (offset + bs.length) :=
  rfl

@[simp] theorem WireBytes.overwrite_used (bs : List UInt8) : (a.overwrite offset bs).used = a.used :=
  rfl

@[simp] theorem WireBytes.extend_data (bytes : Int) (h : bytes ≤ a.data.length) :
    (a.extend bytes h).data = a.data := rfl

@[simp] theorem WireBytes.extend_used (bytes : Int) (h : bytes ≤ a.data.length) :
    (a.extend bytes h).used = max a.used bytes.toNat := rfl

@[simp] theorem writeBytes_run (bs : List UInt8) : (writeBytes offset bs).run a =
    if offset + bs.length ≤ a.used then some ((), a.overwrite offset bs) else none := rfl

@[simp] theorem growTo_run (bytes : Int) : (growTo bytes).run a =
    if h : bytes ≤ a.data.length then some ((), a.extend bytes h) else none := rfl

end Spec

end Loci
