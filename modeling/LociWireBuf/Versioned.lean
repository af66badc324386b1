import LociWireBuf.Access

/-!
# Version-dependent fields

Three fields change width between the four wire versions (§4.3): the port number, the flow-mod
command and the wildcard bitmap (the match bitmap is its alias). Each getter and setter switches
on `version` to the scalar accessor of the field's width in that version and aborts on a version
it does not know; the getter widens to the field's C type, the setter narrows from it.

* `versionedGet`/`versionedSet`: the family, over a width table `Int → Option Nat` that is the
  switch. The members are the family at their own table (`portNoWidth`, `fmCmdWidth`,
  `wcBmapWidth`) and C type.
-/

namespace Loci

/-- Modelled from the spec: the four wire versions of `of_version_t` (not under src/), numbered as
the protocol's version byte. -/
def ofVersion1_0 : Int := 1
def ofVersion1_1 : Int := 2
def ofVersion1_2 : Int := 3
def ofVersion1_3 : Int := 4

/-- Modelled from the spec: `of_port_no_t` (not under src/) is the widest wire form of a port
number, 32 bits (§4.3). -/
abbrev OfPortNo := UInt32
/-- Modelled from the spec: `of_fm_cmd_t`, the widest flow-mod command, 16 bits. -/
abbrev OfFmCmd := UInt16
/-- Modelled from the spec: `of_wc_bmap_t`, the widest wildcard bitmap, 64 bits. -/
abbrev OfWcBmap := UInt64

/-- The versioned getters: the scalar getter of the width the table gives for `version`, or a
failed `LOCI_ASSERT(0)` in the `default` case. -/
def versionedGet (width : Int → Option Nat) (version offset : Int) : WireM Nat :=
  match width version with
  | some w => scalarGet w offset
  | none => do lociAssert false; pure 0

/-- The versioned setters: the scalar setter of the width the table gives for `version`, which
stores the low bytes of `value` (the C conversion to the narrow type), or `LOCI_ASSERT(0)`. -/
def versionedSet (width : Int → Option Nat) (version offset : Int) (value : Nat) : WireM Unit :=
  match width version with
  | some w => scalarSet w offset value
  | none => lociAssert false

/-- The switch of `of_wire_buffer_port_no_get`/`_set`: 16 bits in 1.0, 32 bits in 1.1 to 1.3. -/
def portNoWidth (version : Int) : Option Nat :=
  if version = ofVersion1_0 then some 2
  else if version = ofVersion1_1 ∨ version = ofVersion1_2 ∨ version = ofVersion1_3 then some 4
  else none

/-- The switch of `of_wire_buffer_fm_cmd_get`/`_set`: 16 bits in 1.0, 8 bits in 1.1 to 1.3. -/
def fmCmdWidth (version : Int) : Option Nat :=
  if version = ofVersion1_0 then some 2
  else if version = ofVersion1_1 ∨ version = ofVersion1_2 ∨ version = ofVersion1_3 then some 1
  else none

/-- The switch of `of_wire_buffer_wc_bmap_get`/`_set`: 32 bits in 1.0 and 1.1, 64 bits in 1.2
and 1.3. -/
def wcBmapWidth (version : Int) : Option Nat :=
  if version = ofVersion1_0 ∨ version = ofVersion1_1 then some 4
  else if version = ofVersion1_2 ∨ version = ofVersion1_3 then some 8
  else none

def ofWireBufferPortNoGet (version offset : Int) : WireM OfPortNo :=
  Nat.toUInt32 <$> versionedGet portNoWidth version offset
def ofWireBufferPortNoSet (version offset : Int) (value : OfPortNo) : WireM Unit :=
  versionedSet portNoWidth version offset value.toNat
def ofWireBufferFmCmdGet (version offset : Int) : WireM OfFmCmd :=
  Nat.toUInt16 <$> versionedGet fmCmdWidth version offset
def ofWireBufferFmCmdSet (version offset : Int) (value : OfFmCmd) : WireM Unit :=
  versionedSet fmCmdWidth version offset value.toNat
def ofWireBufferWcBmapGet (version offset : Int) : WireM OfWcBmap :=
  Nat.toUInt64 <$> versionedGet wcBmapWidth version offset
def ofWireBufferWcBmapSet (version offset : Int) (value : OfWcBmap) : WireM Unit :=
  versionedSet wcBmapWidth version offset value.toNat
def ofWireBufferMatchBmapGet := ofWireBufferWcBmapGet
def ofWireBufferMatchBmapSet := ofWireBufferWcBmapSet

section Run

variable (wb : OfWireBuffer) (width : Int → Option Nat) (version offset : Int)

theorem versionedGet_run : (versionedGet width version offset).run wb =
    match width version with
    | some w => (scalarGet w offset).run wb
    | none => .error () wb := by
  cases h : width version <;> simp [versionedGet, h, lociAssert_run]

theorem versionedSet_run (value : Nat) : (versionedSet width version offset value).run wb =
    match width version with
    | some w => (scalarSet w offset value).run wb
    | none => .error () wb := by
  cases h : width version <;> simp [versionedSet, h, lociAssert_run]

end Run

end Loci
