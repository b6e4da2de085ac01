import Hammer2.Disk

/-!
# The volume header and the two flush roots

A media mount has two roots: `vchain` for the topology and `fchain` for the free block table. Both
are embedded in `voldata`, the header in memory. The flush of `fchain` records its transaction id
and bumps `mirror_tid`; the flush of `vchain` copies `voldata` to `volsync`, the header to be
written, and flags it (`HAMMER2_CHAIN_VOLUMESYNC`).

Reference: `hammer2_flush.c:668-760`, `hammer2_vfsops.c:386-395`, `hammer2_chain.c:1436-1837`.
-/

namespace Hammer2

/-- `struct hammer2_volume_data`, the fields the flush sets; `body` stands for the block tables and
the rest. -/
structure VolumeData (β : Type*) where
  mirrorTid : Nat
  freemapTid : Nat
  voluSize : Nat
  body : β
  deriving DecidableEq, Repr

/-- The part of `hammer2_dev` that concerns the volume header. -/
structure VolDev (β : Type*) where
  voldata : VolumeData β
  volsync : VolumeData β
  volhdrno : Nat
  vchainModified : Bool
  vchainTid : Nat
  volumesync : Bool
  fchainModified : Bool
  fchainTid : Nat
  deriving DecidableEq, Repr

section
variable {β : Type*}

/-- `hammer2_voldata_modify`. -/
def VolDev.voldataModify (d : VolDev β) : VolDev β :=
  if d.vchainModified then d
  else { d with vchainModified := true, vchainTid := d.voldata.mirrorTid + 1 }

/-- `hammer2_chain_modify` on `vchain`, which also renews the transaction id. -/
def VolDev.vchainModify (d : VolDev β) : VolDev β :=
  { d with vchainModified := true, vchainTid := d.voldata.mirrorTid + 1 }

/-- `hammer2_chain_modify` on `fchain`. -/
def VolDev.fchainModify (d : VolDev β) : VolDev β :=
  { d with fchainModified := true, fchainTid := d.voldata.mirrorTid + 1 }

/-- `hammer2_flush_core` at `HAMMER2_BREF_TYPE_FREEMAP`. -/
def VolDev.flushFreemap (d : VolDev β) : VolDev β :=
  if d.fchainModified then
    { d with
      fchainModified := false
      voldata := { d.voldata with
        freemapTid := d.fchainTid, mirrorTid := d.voldata.mirrorTid + 1 } }
  else d

/-- `hammer2_flush_core` at `HAMMER2_BREF_TYPE_VOLUME`. -/
def VolDev.flushVolume (d : VolDev β) : VolDev β :=
  if d.vchainModified then
    let v := { d.voldata with mirrorTid := max d.voldata.mirrorTid d.vchainTid }
    { d with vchainModified := false, voldata := v, volsync := v, volumesync := true }
  else d

/-- `HAMMER2_NUM_VOLHDRS`. -/
def numVolhdrs : Nat := 4

/-- The slot of the next header: the one after `volhdrno`, back to 0 past the last one or past the
end of the volume. -/
def VolDev.nextVolhdr (d : VolDev β) : Nat :=
  let j := if numVolhdrs ≤ d.volhdrno + 1 then 0 else d.volhdrno + 1
  if d.volsync.voluSize < j * zoneBytes + segSize then 0 else j

end

end Hammer2
