import Hammer2.Flush.Xop
import Hammer2.Lib.Select
import Hammer2.Lib.Run

/-!
# Volume headers on the media

A volume has up to four header slots, one at the base of each of its first 2GB zones. A header image
carries three check codes, computed by the flush in the order section 1, section 0, whole header; a
mount takes the first image with the largest `mirror_tid` among those that pass all of them. Growing
the volume past the base of a zone would clear the slot there through the DIO layer, which refuses
the offset because it carries no radix.

Reference: `hammer2_ondisk.c:707-825`, `hammer2_flush.c:721-752`, `hammer2_ioctl.c:1540-1667`,
`hammer2_io.c:213-228`.
-/

namespace Hammer2

open Select

/-- `HAMMER2_VOLUME_ID_HBO`. -/
def volumeIdHbo : Nat := 0x48414d3205172011

/-- What a header slot holds. -/
structure HeaderImage (β : Type*) where
  magic : Nat
  vol : VolumeData β
  icrcSect1 : Nat
  icrcSect0 : Nat
  icrcVolheader : Nat

/-- `hammer2_icrc32` over the three ranges: section 1, section 0 (which holds the code of section
1), and the whole header up to its own code. -/
structure Icrc (β : Type*) where
  sect1 : VolumeData β → Nat
  sect0 : Nat → VolumeData β → Nat → Nat
  volheader : Nat → VolumeData β → Nat → Nat → Nat

section
variable {β : Type*}

/-- The image the flush makes of `voldata`. -/
def Icrc.image (c : Icrc β) (v : VolumeData β) : HeaderImage β :=
  let crc1 := c.sect1 v
  let crc0 := c.sect0 volumeIdHbo v crc1
  { magic := volumeIdHbo, vol := v, icrcSect1 := crc1, icrcSect0 := crc0
    icrcVolheader := c.volheader volumeIdHbo v crc1 crc0 }

/-- The checks of `hammer2_read_volume_header`. -/
def Icrc.valid (c : Icrc β) (x : HeaderImage β) : Bool :=
  x.magic == volumeIdHbo && x.icrcSect0 == c.sect0 x.magic x.vol x.icrcSect1 &&
    x.icrcSect1 == c.sect1 x.vol &&
    x.icrcVolheader == c.volheader x.magic x.vol x.icrcSect1 x.icrcSect0

/-- `hammer2_read_volume_header`: the zone and the header of the first valid image with the largest
`mirror_tid`. -/
def readVolumeHeader (c : Icrc β) (mediaSize : Nat) (slots : Nat → HeaderImage β) :
    Option (Nat × VolumeData β) :=
  (List.range numVolhdrs).foldl (fun best i =>
    if mediaSize ≤ i * zoneBytes then best
    else if c.valid (slots i) then
      match best with
      | none => some (i, (slots i).vol)
      | some (zone, v) =>
        if v.mirrorTid < (slots i).vol.mirrorTid then some (i, (slots i).vol) else some (zone, v)
    else best) none

/-- A mount from the header `v` found in slot `zone`. -/
def VolDev.mount (zone : Nat) (v : VolumeData β) : VolDev β where
  voldata := v
  volsync := v
  volhdrno := zone
  vchainModified := false
  vchainTid := v.mirrorTid
  volumesync := false
  fchainModified := false
  fchainTid := v.freemapTid

/-- `HAMMER2_VOLUME_ALIGN`. -/
def volumeAlign : Nat := 8388608

/-- The test of `hammer2_io_alloc` that calls `hpanic` ("illegal base"). -/
def ioIllegalBase (dataOff : Nat) : Bool :=
  let radix := dataOff % 64
  let lsize := if radix ≠ 0 then 2 ^ radix else 0
  let lbase := dataOff - radix
  let pbase := rounddown2 lbase pbufSize
  pbase == 0 || rounddown2 (lbase + lsize - 1) pbufSize != pbase

/-- The slots that `hammer2_ioctl_growfs` clears. -/
def growfsZones (voluSize size : Nat) : List Nat :=
  (List.range numVolhdrs).filter fun i => voluSize ≤ i * zoneBytes && i * zoneBytes < size

/-- The outcomes of `hammer2_ioctl_growfs`: refused, refused with the device left in error, no
change, or the volume grown and some slots cleared. -/
inductive Growfs (β : Type*)
  | invalid
  | panicked
  | unchanged
  | grown (dev : VolDev β) (cleared : List Nat)

/-- `hammer2_ioctl_growfs` of a single volume to `req` bytes, or to the media size if that is 0. -/
def VolDev.growfs (d : VolDev β) (mediaSize req : Nat) : Growfs β :=
  let size := rounddown2 (if req = 0 then mediaSize else req) volumeAlign
  if mediaSize < req then .invalid
  else if 2 ^ 63 - 1 < size then .invalid
  else if size < d.voldata.voluSize then .invalid
  else if size = d.voldata.voluSize then .unchanged
  else
    let zones := growfsZones d.voldata.voluSize size
    if zones.any fun i => ioIllegalBase (i * zoneBytes) then .panicked
    else
      let d := d.voldataModify
      .grown { d with voldata := { d.voldata with voluSize := size } } zones

/-! ## The selected header -/

variable {c : Icrc β} {mediaSize : Nat} {slots : Nat → HeaderImage β}
    {zone : Nat} {v : VolumeData β}

/-- A header as it is written passes its own check. -/
theorem Icrc.valid_image (c : Icrc β) (v : VolumeData β) : c.valid (c.image v) = true := by
  simp only [valid, image, beq_self_eq_true, Bool.and_self]

/-- A slot that the scan considers. -/
def Icrc.Candidate (c : Icrc β) (mediaSize : Nat) (slots : Nat → HeaderImage β) (i : Nat) : Prop :=
  i * zoneBytes < mediaSize ∧ c.valid (slots i) = true

instance : DecidablePred (c.Candidate mediaSize slots) :=
  fun _ => inferInstanceAs (Decidable (_ ∧ _))

/-- The scan is the choice of the first maximum. -/
theorem readVolumeHeader_eq : readVolumeHeader c mediaSize slots =
    (firstMax (c.Candidate mediaSize slots) (fun i => (slots i).vol.mirrorTid) numVolhdrs).map
      fun i => (i, (slots i).vol) := by
  unfold readVolumeHeader
  induction numVolhdrs with
  | zero => rfl
  | succ n ih =>
    rw [List.range_succ, List.foldl_append, ih, List.foldl_cons, List.foldl_nil, firstMax]
    by_cases hm : mediaSize ≤ n * zoneBytes
    · rw [if_pos hm, if_neg fun h => absurd h.1 (Nat.not_lt.2 hm)]
    · rw [if_neg hm]
      by_cases hv : c.valid (slots n) = true
      · rw [if_pos hv, if_pos ⟨Nat.lt_of_not_le hm, hv⟩]
        cases firstMax (c.Candidate mediaSize slots) (fun i => (slots i).vol.mirrorTid) n with
        | none => rfl
        | some z =>
          dsimp only [Option.map_some]
          split <;> rfl
      · rw [if_neg hv, if_neg fun h => hv h.2]

/-- The header read is the first valid one with the highest `mirror_tid`. -/
theorem readVolumeHeader_some (h : readVolumeHeader c mediaSize slots = some (zone, v)) :
    firstMax (c.Candidate mediaSize slots) (fun i => (slots i).vol.mirrorTid) numVolhdrs =
      some zone ∧ v = (slots zone).vol := by
  rw [readVolumeHeader_eq, Option.map_eq_some_iff] at h
  obtain ⟨z, hz, heq⟩ := h
  cases heq
  exact ⟨hz, rfl⟩

/-- Losing another slot does not change the selection. -/
theorem readVolumeHeader_torn {j : Nat} {x : HeaderImage β}
    (h : readVolumeHeader c mediaSize slots = some (zone, v)) (hj : j ≠ zone)
    (hx : c.valid x = false ∨ x = slots j) :
    readVolumeHeader c mediaSize (Function.update slots j x) = some (zone, v) := by
  obtain ⟨hmax, rfl⟩ := readVolumeHeader_some h
  have hz : Function.update slots j x zone = slots zone := Function.update_of_ne hj.symm x slots
  have hsub : ∀ i, c.Candidate mediaSize (Function.update slots j x) i →
      Function.update slots j x i = slots i := by
    intro i hi
    by_cases hij : i = j
    · subst hij
      rw [Function.update_self]
      rcases hx with hx | hx
      · have hv := hi.2
        rw [Function.update_self, hx] at hv
        cases hv
      · exact hx
    · exact Function.update_of_ne hij x slots
  have hmax' : firstMax (c.Candidate mediaSize (Function.update slots j x))
      (fun i => (Function.update slots j x i).vol.mirrorTid) numVolhdrs = some zone := by
    refine firstMax_of_subset hmax ?_ (fun i hi => ?_) (fun i hi => by rw [hsub i hi])
    · have hc := (firstMax_spec hmax).2.1
      exact ⟨hc.1, hz ▸ hc.2⟩
    · exact ⟨hi.1, hsub i hi ▸ hi.2⟩
  rw [readVolumeHeader_eq, hmax', Option.map_some, hz]

/-- A header with a larger `mirror_tid` than the selected one is selected when it is complete. -/
theorem readVolumeHeader_write {j : Nat} {w : VolumeData β}
    (h : readVolumeHeader c mediaSize slots = some (zone, v)) (hj : j < numVolhdrs)
    (hm : j * zoneBytes < mediaSize) (hlt : v.mirrorTid < w.mirrorTid) :
    readVolumeHeader c mediaSize (Function.update slots j (c.image w)) = some (j, w) := by
  obtain ⟨hmax, rfl⟩ := readVolumeHeader_some h
  obtain ⟨-, -, hle, -⟩ := firstMax_spec hmax
  have hself : Function.update slots j (c.image w) j = c.image w := Function.update_self ..
  have hmax' : firstMax (c.Candidate mediaSize (Function.update slots j (c.image w)))
      (fun i => (Function.update slots j (c.image w) i).vol.mirrorTid) numVolhdrs = some j := by
    refine firstMax_of_lt hj ⟨hm, by rw [hself]; exact c.valid_image w⟩ fun i hi hne hc => ?_
    have hi' : Function.update slots j (c.image w) i = slots i := Function.update_of_ne hne _ slots
    rw [hi', hself]
    exact (hle i hi ⟨hc.1, hi' ▸ hc.2⟩).trans_lt hlt
  rw [readVolumeHeader_eq, hmax', Option.map_some, hself]
  rfl

end

end Hammer2
