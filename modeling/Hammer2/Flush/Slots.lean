import Hammer2.Flush.Header

/-!
# The header a mount selects

Runs of a mounted volume: changes of the header in memory, flushes that write it to the slot after
the last one, `growfs`, and crashes followed by a mount. A crash may hit a flush in its header write
and leave the slot torn; a torn image fails a check unless it is the old or the new header. `hist`
is the history of the headers completely written, the newest first, from the one first mounted.

The slot written is never the one selected while the volume has room for two of them, and
`mirror_tid` grows strictly from one header to the next; so a mount selects the last complete
header.

Reference: `hammer2_flush.c:668-760`, `hammer2_flush.c:1298-1370`, `hammer2_ondisk.c:707-825`,
`hammer2_ioctl.c:1601-1667`.
-/

namespace Hammer2

open Select Transition

/-- A mounted volume. -/
structure HdrSys (β : Type*) where
  dev : VolDev β
  slots : Nat → HeaderImage β
  mediaSize : Nat
  deviceError : Bool
  hist : List (VolumeData β)

/-- The steps of a run. -/
inductive HdrAct (β : Type*)
  | touch (body : β)
  | flush (x : XopFlush)
  | growfs (req : Nat)
  | crash

section
variable {β : Type*}

namespace HdrSys

/-- The flush `x` goes on to the header write. -/
def Writes (s : HdrSys β) (x : XopFlush) : Prop :=
  x.deviceError = s.deviceError ∧ x.reachesRoots = true ∧ x.writesHeader s.dev = true

/-- The slot that the flush `x` writes, and the header it writes there. -/
def slot (s : HdrSys β) (x : XopFlush) : Nat := (x.flushedDev s.dev).nextVolhdr

/-- The header that the flush `x` writes. -/
def header (s : HdrSys β) (x : XopFlush) : VolumeData β := (x.flushedDev s.dev).volsync

/-- A flush of which the header write, if it comes to it, succeeds. -/
def flush (s : HdrSys β) (c : Icrc β) (x : XopFlush) : HdrSys β :=
  let s' := { s with dev := (xopInodeFlush x s.dev).dev }
  if x.reachesRoots && x.writesHeader s.dev then
    { s' with
      slots := Function.update s.slots (s.slot x) (c.image (s.header x))
      hist := s.header x :: s.hist }
  else s'

/-- The slots after `hammer2_ioctl_growfs` zeroed some. -/
def clear (slots : Nat → HeaderImage β) (zones : List Nat) : Nat → HeaderImage β :=
  fun i => if i ∈ zones then { slots i with magic := 0 } else slots i

/-- `hammer2_ioctl_growfs`. -/
def growfs (s : HdrSys β) (req : Nat) : HdrSys β :=
  match s.dev.growfs s.mediaSize req with
  | .invalid => s
  | .unchanged => s
  | .panicked => { s with deviceError := true }
  | .grown d zones => { s with dev := d, slots := clear s.slots zones }

end HdrSys

/-- A header that has room for two slots. -/
def VolumeData.TwoSlots (v : VolumeData β) : Prop := zoneBytes + segSize ≤ v.voluSize

/-- What a crash can leave: the slots as they are, or a header write that was cut. A volume with
room for one slot only does not lose it. -/
inductive Crash (c : Icrc β) (s : HdrSys β) :
    (Nat → HeaderImage β) → List (VolumeData β) → Prop
  | idle : Crash c s s.slots s.hist
  | torn (x : XopFlush) (img : HeaderImage β) : s.Writes x →
      c.valid img = false ∨ img = s.slots (s.slot x) →
      (s.header x).TwoSlots ∨ img = s.slots (s.slot x) →
      Crash c s (Function.update s.slots (s.slot x) img) s.hist
  | complete (x : XopFlush) : s.Writes x →
      Crash c s (Function.update s.slots (s.slot x) (c.image (s.header x))) (s.header x :: s.hist)

/-- One step. A flush in a run writes its header without an I/O error. -/
inductive HdrStep (c : Icrc β) (s : HdrSys β) : HdrAct β → HdrSys β → Prop
  | touch (body : β) : HdrStep c s (.touch body)
      { s with dev := { s.dev.voldataModify with voldata := { s.dev.voldata with body := body } } }
  | flush (x : XopFlush) : x.deviceError = s.deviceError → x.headerIo = .written 0 →
      HdrStep c s (.flush x) (s.flush c x)
  | growfs (req : Nat) : HdrStep c s (.growfs req) (s.growfs req)
  | crash {slots : Nat → HeaderImage β} {hist : List (VolumeData β)} {zone : Nat}
      {v : VolumeData β} : Crash c s slots hist →
      readVolumeHeader c s.mediaSize slots = some (zone, v) →
      HdrStep c s .crash ⟨.mount zone v, slots, s.mediaSize, false, hist⟩

/-- A volume just mounted. -/
structure HdrInit (c : Icrc β) (s : HdrSys β) : Prop where
  mounted : ∃ zone v, readVolumeHeader c s.mediaSize s.slots = some (zone, v) ∧
    s.dev = .mount zone v ∧ s.hist = [v] ∧ v.voluSize ≤ s.mediaSize
  deviceError : s.deviceError = false

/-! ## Transaction ids in memory -/

/-- The header in memory against the last one written, `last`: every header to be written has a
larger `mirror_tid`, and fits the media. -/
structure TidInv (last : VolumeData β) (mediaSize : Nat) (d : VolDev β) : Prop where
  synced : last.mirrorTid ≤ d.volsync.mirrorTid
  bumped : d.volsync.mirrorTid ≤ d.voldata.mirrorTid
  pending : d.volumesync = true → last.mirrorTid < d.volsync.mirrorTid
  modified : d.vchainModified = true → d.volsync.mirrorTid < d.vchainTid
  lastSize : last.voluSize ≤ mediaSize
  volsyncSize : d.volsync.voluSize ≤ mediaSize
  voldataSize : d.voldata.voluSize ≤ mediaSize

variable {last v : VolumeData β} {m : Nat} {d : VolDev β} {x : XopFlush}

/-- A mount starts with the header it has read. -/
theorem TidInv.mount {zone : Nat} (h : v.voluSize ≤ m) : TidInv v m (.mount zone v) where
  synced := le_rfl
  bumped := le_rfl
  pending hp := Bool.noConfusion hp
  modified hm := Bool.noConfusion hm
  lastSize := h
  volsyncSize := h
  voldataSize := h

/-- Modifying the volume chain keeps the invariant. -/
theorem TidInv.vchainModify (h : TidInv last m d) : TidInv last m d.vchainModify where
  synced := h.synced
  bumped := h.bumped
  pending := h.pending
  modified _ := Nat.lt_succ_of_le h.bumped
  lastSize := h.lastSize
  volsyncSize := h.volsyncSize
  voldataSize := h.voldataSize

/-- Modifying the volume data keeps it. -/
theorem TidInv.voldataModify (h : TidInv last m d) : TidInv last m d.voldataModify := by
  unfold VolDev.voldataModify
  split
  · exact h
  · exact h.vchainModify

/-- Modifying the freemap chain keeps it. -/
theorem TidInv.fchainModify (h : TidInv last m d) : TidInv last m d.fchainModify :=
  ⟨h.synced, h.bumped, h.pending, h.modified, h.lastSize, h.volsyncSize, h.voldataSize⟩

/-- A flush of the freemap keeps it. -/
theorem TidInv.flushFreemap (h : TidInv last m d) : TidInv last m d.flushFreemap := by
  unfold VolDev.flushFreemap
  split
  · exact ⟨h.synced, Nat.le_succ_of_le h.bumped, h.pending, h.modified, h.lastSize,
      h.volsyncSize, h.voldataSize⟩
  · exact h

/-- The new `volsync` has a larger `mirror_tid` than the old one. -/
theorem TidInv.flushVolume (h : TidInv last m d) : TidInv last m d.flushVolume := by
  unfold VolDev.flushVolume
  split
  · next hm =>
    have hlt : last.mirrorTid < max d.voldata.mirrorTid d.vchainTid :=
      (h.synced.trans_lt (h.modified hm)).trans_le (le_max_right _ _)
    exact ⟨hlt.le, le_rfl, fun _ => hlt, fun hm' => Bool.noConfusion hm', h.lastSize,
      h.voldataSize, h.voldataSize⟩
  · exact h

/-- All that a flush does before it writes the header keeps the invariant. -/
theorem TidInv.flushedDev (h : TidInv last m d) : TidInv last m (x.flushedDev d) := by
  have hf : TidInv last m (x.flushFchain d).1 := by
    unfold XopFlush.flushFchain
    split
    · dsimp only
      have hv := h.voldataModify
      split
      · split
        · exact hv.fchainModify.flushFreemap
        · exact hv.flushFreemap
      · split
        · exact hv.fchainModify
        · exact hv
    · exact h
  unfold XopFlush.flushedDev XopFlush.flushVchain
  split
  · dsimp only
    split
    · split
      · exact hf.vchainModify.flushVolume
      · exact hf.flushVolume
    · split
      · exact hf.vchainModify
      · exact hf
  · exact hf

/-- The flushes leave the current slot. -/
theorem volhdrno_flushedDev : (x.flushedDev d).volhdrno = d.volhdrno := by
  have hvm : ∀ d : VolDev β, d.voldataModify.volhdrno = d.volhdrno := fun d => by
    unfold VolDev.voldataModify
    split <;> rfl
  have hff : ∀ d : VolDev β, d.flushFreemap.volhdrno = d.volhdrno := fun d => by
    unfold VolDev.flushFreemap
    split <;> rfl
  have hfv : ∀ d : VolDev β, d.flushVolume.volhdrno = d.volhdrno := fun d => by
    unfold VolDev.flushVolume
    split <;> rfl
  have hf : (x.flushFchain d).1.volhdrno = d.volhdrno := by
    unfold XopFlush.flushFchain
    split
    · dsimp only
      split <;> split <;> simp only [hff, hvm, VolDev.fchainModify]
    · rfl
  rw [← hf]
  unfold XopFlush.flushedDev XopFlush.flushVchain
  split
  · dsimp only
    split <;> split <;> simp only [hfv, VolDev.vchainModify]
  · rfl

/-- After the header write nothing is pending, and the header written is the last one. -/
theorem TidInv.headerSync {j : Nat} (h : TidInv last m d) :
    TidInv d.volsync m { d with volumesync := false, volhdrno := j } :=
  ⟨le_rfl, h.bumped, fun hp => Bool.noConfusion hp, h.modified, h.volsyncSize, h.volsyncSize,
    h.voldataSize⟩

/-- A new size that fits the media keeps the invariant. -/
theorem TidInv.resize {size : Nat} (h : TidInv last m d) (hs : size ≤ m) :
    TidInv last m { d with voldata := { d.voldata with voluSize := size } } :=
  ⟨h.synced, h.bumped, h.pending, h.modified, h.lastSize, h.volsyncSize, hs⟩

/-! ## The next slot -/

theorem nextVolhdr_lt (d : VolDev β) : d.nextVolhdr < numVolhdrs := by
  have hj : (if numVolhdrs ≤ d.volhdrno + 1 then 0 else d.volhdrno + 1) < numVolhdrs := by
    split
    · decide
    · next h => exact Nat.lt_of_not_le h
  unfold VolDev.nextVolhdr
  dsimp only
  generalize (if numVolhdrs ≤ d.volhdrno + 1 then 0 else d.volhdrno + 1) = j at hj ⊢
  split
  · decide
  · exact hj

/-- The slot of the next header lies on the media. -/
theorem nextVolhdr_fits (h : d.volsync.voluSize ≤ m) (h0 : 0 < m) :
    d.nextVolhdr * zoneBytes < m := by
  unfold VolDev.nextVolhdr
  dsimp only
  generalize (if numVolhdrs ≤ d.volhdrno + 1 then 0 else d.volhdrno + 1) = j
  split
  · rw [Nat.zero_mul]
    exact h0
  · next hj =>
    have hseg : 0 < segSize := by decide
    omega

/-- With room for two slots the next one is not the current one. -/
theorem nextVolhdr_ne (h : d.volsync.TwoSlots) : d.nextVolhdr ≠ d.volhdrno := by
  unfold VolDev.nextVolhdr
  dsimp only
  by_cases h3 : numVolhdrs ≤ d.volhdrno + 1
  · have hne : 0 ≠ d.volhdrno := by
      unfold numVolhdrs at h3
      omega
    rw [if_pos h3]
    split
    · exact hne
    · exact hne
  · rw [if_neg h3]
    split
    · next hj =>
      -- The second slot fits, so the current slot is not the first one.
      rintro h0
      rw [← h0, Nat.zero_add, Nat.one_mul] at hj
      exact absurd h (Nat.not_le.2 hj)
    · exact Nat.succ_ne_self _

/-! ## Growing the volume -/

/-- The offset of a header slot, which carries no radix, is refused by the DIO layer. -/
theorem ioIllegalBase_zone (i : Nat) : ioIllegalBase (i * zoneBytes) = true := by
  have hz : zoneBytes = 32768 * 65536 := rfl
  unfold ioIllegalBase
  rw [show pbufSize = 65536 from rfl, hz]
  have hmod : i * (32768 * 65536) % 64 = 0 := by omega
  simp only [hmod, ne_eq, not_true_eq_false, if_false, Nat.sub_zero, Nat.add_zero, rounddown2,
    Bool.or_eq_true, beq_iff_eq, bne_iff_ne]
  omega

/-- What a resize changes in the volume data. -/
theorem growfs_grown {req : Nat} {d' : VolDev β} {zones : List Nat}
    (h : d.growfs m req = .grown d' zones) : zones = [] ∧ ∃ size ≤ m,
      d' = { d.voldataModify with
        voldata := { d.voldataModify.voldata with voluSize := size } } := by
  unfold VolDev.growfs at h
  dsimp only at h
  by_cases hreq : m < req
  · rw [if_pos hreq] at h
    cases h
  · rw [if_neg hreq] at h
    have hle : rounddown2 (if req = 0 then m else req) volumeAlign ≤ m := by
      refine (Nat.div_mul_le_self _ _).trans ?_
      split
      · exact le_rfl
      · exact Nat.le_of_not_lt hreq
    generalize rounddown2 (if req = 0 then m else req) volumeAlign = size at h hle
    split at h
    · cases h
    · split at h
      · cases h
      · split at h
        · cases h
        · split at h
          · cases h
          · next hz =>
            cases h
            refine ⟨?_, size, hle, rfl⟩
            cases hzones : growfsZones d.voldata.voluSize size with
            | nil => rfl
            | cons i is =>
              rw [hzones, List.any_cons, ioIllegalBase_zone] at hz
              exact absurd rfl hz

/-! ## Runs -/

/-- What a run keeps: the selection is the current slot with the last header written. -/
structure HdrInv (c : Icrc β) (s : HdrSys β) (last : VolumeData β) : Prop where
  hist : ∃ rest, s.hist = last :: rest
  decreasing : s.hist.Pairwise fun a b => b.mirrorTid < a.mirrorTid
  selected : readVolumeHeader c s.mediaSize s.slots = some (s.dev.volhdrno, last)
  tids : TidInv last s.mediaSize s.dev

variable {c : Icrc β} {s s' : HdrSys β} {slots : Nat → HeaderImage β} {hist : List (VolumeData β)}

/-- A volume just mounted meets the invariant. -/
theorem HdrInit.inv (h : HdrInit c s) : ∃ last, HdrInv c s last := by
  obtain ⟨zone, v, hsel, hdev, hhist, hsize⟩ := h.mounted
  refine ⟨v, ⟨[], hhist⟩, hhist ▸ List.pairwise_singleton _ _, ?_, hdev ▸ .mount hsize⟩
  rw [hsel, hdev]
  rfl

theorem HdrInv.mediaSize_pos (h : HdrInv c s last) : 0 < s.mediaSize :=
  Nat.zero_lt_of_lt (firstMax_spec (readVolumeHeader_some h.selected).1).2.1.1

/-- The header of a flush is newer than the last one. -/
theorem HdrInv.lt_header (h : HdrInv c s last) (hw : x.writesHeader s.dev = true) :
    last.mirrorTid < (s.header x).mirrorTid := by
  refine h.tids.flushedDev.pending ?_
  simp only [XopFlush.writesHeader, Bool.and_eq_true] at hw
  exact hw.2

/-- A newer header keeps the history in order. -/
theorem HdrInv.decreasing_cons (h : HdrInv c s last) (hlt : last.mirrorTid < v.mirrorTid) :
    (v :: s.hist).Pairwise fun a b => b.mirrorTid < a.mirrorTid := by
  obtain ⟨rest, hrest⟩ := h.hist
  refine List.pairwise_cons.2 ⟨fun w hw => ?_, h.decreasing⟩
  have hd := h.decreasing
  rw [hrest] at hw hd
  rcases List.mem_cons.1 hw with rfl | hw
  · exact hlt
  · exact ((List.pairwise_cons.1 hd).1 w hw).trans hlt

/-- A complete header write is selected. -/
theorem HdrInv.selected_write (h : HdrInv c s last) (hw : x.writesHeader s.dev = true) :
    readVolumeHeader c s.mediaSize (Function.update s.slots (s.slot x) (c.image (s.header x))) =
      some (s.slot x, s.header x) :=
  readVolumeHeader_write h.selected (nextVolhdr_lt _)
    (nextVolhdr_fits h.tids.flushedDev.volsyncSize h.mediaSize_pos) (h.lt_header hw)

/-- What a crash leaves is mountable, from the last header completely written. -/
theorem HdrInv.crash (h : HdrInv c s last) (hc : Crash c s slots hist) :
    ∃ zone v rest, readVolumeHeader c s.mediaSize slots = some (zone, v) ∧ hist = v :: rest ∧
      hist.Pairwise (fun a b => b.mirrorTid < a.mirrorTid) ∧ v.voluSize ≤ s.mediaSize := by
  obtain ⟨rest, hrest⟩ := h.hist
  cases hc with
  | idle => exact ⟨_, last, rest, h.selected, hrest, h.decreasing, h.tids.lastSize⟩
  | torn x img hw himg hroom =>
    refine ⟨s.dev.volhdrno, last, rest, ?_, hrest, h.decreasing, h.tids.lastSize⟩
    rcases hroom with hroom | hroom
    · refine readVolumeHeader_torn h.selected ?_ himg
      rw [← volhdrno_flushedDev (x := x)]
      exact nextVolhdr_ne hroom
    · rw [hroom, Function.update_eq_self]
      exact h.selected
  | complete x hw =>
    exact ⟨_, _, s.hist, h.selected_write hw.2.2, rfl, h.decreasing_cons (h.lt_header hw.2.2),
      h.tids.flushedDev.volsyncSize⟩

/-- A flush whose header write succeeds keeps the invariant. -/
theorem HdrInv.flush (h : HdrInv c s last) (hio : x.headerIo = .written 0) :
    ∃ last', HdrInv c (s.flush c x) last' := by
  unfold HdrSys.flush xopInodeFlush
  dsimp only
  by_cases hr : x.reachesRoots = true
  · by_cases hw : x.writesHeader s.dev = true
    · rw [hr, hw]
      simp only [XopFlush.headerSync, hio, Bool.and_self, if_true]
      exact ⟨s.header x, ⟨s.hist, rfl⟩, h.decreasing_cons (h.lt_header hw), h.selected_write hw,
        h.tids.flushedDev.headerSync⟩
    · rw [if_pos hr, if_neg hw, if_neg fun hb => hw (Bool.and_eq_true_iff.1 hb).2]
      refine ⟨last, h.hist, h.decreasing, ?_, h.tids.flushedDev⟩
      change _ = some ((x.flushedDev s.dev).volhdrno, last)
      rw [volhdrno_flushedDev]
      exact h.selected
  · rw [if_neg hr, if_neg fun hb => hr (Bool.and_eq_true_iff.1 hb).1]
    exact ⟨last, h⟩

/-- A resize keeps it. -/
theorem HdrInv.growfs {req : Nat} (h : HdrInv c s last) : HdrInv c (s.growfs req) last := by
  unfold HdrSys.growfs
  split
  · exact h
  · exact h
  · exact ⟨h.hist, h.decreasing, h.selected, h.tids⟩
  · next d zones hg =>
    obtain ⟨rfl, size, hsize, rfl⟩ := growfs_grown hg
    have hno : s.dev.voldataModify.volhdrno = s.dev.volhdrno := by
      unfold VolDev.voldataModify
      split <;> rfl
    have hslots : HdrSys.clear s.slots [] = s.slots := rfl
    refine ⟨h.hist, h.decreasing, ?_, h.tids.voldataModify.resize hsize⟩
    dsimp only
    rw [hslots, hno]
    exact h.selected

/-- Every step keeps it. -/
theorem HdrInv.step {a : HdrAct β} (h : ∃ last, HdrInv c s last) (hs : HdrStep c s a s') :
    ∃ last, HdrInv c s' last := by
  obtain ⟨last, h⟩ := h
  cases hs with
  | touch body =>
    have hno : s.dev.voldataModify.volhdrno = s.dev.volhdrno := by
      unfold VolDev.voldataModify
      split <;> rfl
    have hdata : s.dev.voldataModify.voldata = s.dev.voldata := by
      unfold VolDev.voldataModify
      split <;> rfl
    have ht := h.tids.voldataModify
    refine ⟨last, h.hist, h.decreasing, hno ▸ h.selected, ht.synced, ?_, ht.pending, ht.modified,
      ht.lastSize, ht.volsyncSize, h.tids.voldataSize⟩
    rw [← hdata]
    exact ht.bumped
  | flush x _ hio => exact h.flush hio
  | growfs req => exact ⟨last, h.growfs⟩
  | crash hc hsel =>
    obtain ⟨zone, v, rest, hsel', hhist, hdec, hsize⟩ := h.crash hc
    rw [hsel] at hsel'
    cases hsel'
    exact ⟨_, ⟨rest, hhist⟩, hdec, hsel, .mount hsize⟩

end

/-- **A mount after a crash selects the newest complete header**: in every run, no two headers carry
the same `mirror_tid`; whatever a crash leaves, the header selected is the last one completely
written and has the largest `mirror_tid` of all; and while the volume has room for two slots a flush
writes another slot than the one the current header is in. -/
theorem mount_selects_newest {β : Type*} {c : Icrc β} {s₀ s : HdrSys β} {as : List (HdrAct β)}
    (h₀ : HdrInit c s₀) (hr : Run (HdrStep c) s₀ as s) :
    (s.hist.Pairwise fun a b => b.mirrorTid < a.mirrorTid) ∧
    (∀ slots hist, Crash c s slots hist → ∃ zone v rest,
      readVolumeHeader c s.mediaSize slots = some (zone, v) ∧ hist = v :: rest ∧
        ∀ w ∈ rest, w.mirrorTid < v.mirrorTid) ∧
    (∃ last, readVolumeHeader c s.mediaSize s.slots = some (s.dev.volhdrno, last)) ∧
    ∀ x : XopFlush, (s.header x).TwoSlots → s.slot x ≠ s.dev.volhdrno := by
  obtain ⟨last, h⟩ := hr.invariant (fun h hs => HdrInv.step h hs) h₀.inv
  refine ⟨h.decreasing, fun slots hist hc => ?_, ⟨last, h.selected⟩, fun x hx => ?_⟩
  · obtain ⟨zone, v, rest, hsel, rfl, hdec, -⟩ := h.crash hc
    exact ⟨zone, v, rest, hsel, rfl, (List.pairwise_cons.1 hdec).1⟩
  · rw [← volhdrno_flushedDev (x := x)]
    exact nextVolhdr_ne hx

/-- A check code that adds up the transaction ids, for the runs below. -/
def sumIcrc : Icrc Unit where
  sect1 v := v.mirrorTid
  sect0 magic v crc1 := magic + v.freemapTid + crc1
  volheader magic v crc1 crc0 := magic + v.mirrorTid + crc1 + crc0

/-- The header 3 of a volume of `size` bytes. -/
def headerThree (size : Nat) : VolumeData Unit :=
  { mirrorTid := 3, freemapTid := 2, voluSize := size, body := () }

/-- A volume of `size` bytes mounted from slot 0, with nothing in the other slots. -/
def mountedVolume (size : Nat) : HdrSys Unit where
  dev := .mount 0 (headerThree size)
  slots i := if i = 0 then sumIcrc.image (headerThree size)
    else { sumIcrc.image (headerThree size) with magic := 0 }
  mediaSize := size
  deviceError := false
  hist := [headerThree size]

/-- A flush of the topology that writes the header. -/
def topologyFlush : XopFlush where
  volhdr := true
  inode := some { flagged := true, flushError := 0, pfsBoundary := true }
  replicated := false
  spmpFlush := some 0
  freemap := { flagged := true, modifies := true, reached := true, error := 0 }
  topology := { flagged := true, modifies := true, reached := true, error := 0 }
  devs := [0]
  root := 0
  writeback _ := 0
  cacheFlush _ := 0
  deviceError := false
  headerIo := .written 0

/-- The mounted volume of the example. -/
theorem hdrInit_large : HdrInit sumIcrc (mountedVolume 8589934592) where
  mounted := ⟨0, headerThree 8589934592, by decide +kernel, rfl, rfl, by decide⟩
  deviceError := rfl

/-- Two flushes of an 8GB volume. -/
theorem mount_selects_newest_twice : ∃ s, Run (HdrStep sumIcrc) (mountedVolume 8589934592)
    [.flush topologyFlush, .flush topologyFlush] s ∧ s.hist.map (·.mirrorTid) = [7, 5, 3] ∧
    s.hist.Pairwise fun a b => b.mirrorTid < a.mirrorTid := by
  have hr : Run (HdrStep sumIcrc) (mountedVolume 8589934592)
      [.flush topologyFlush, .flush topologyFlush] _ :=
    .cons trivial (.flush _ rfl rfl) (.cons trivial (.flush _ rfl rfl) (.nil _))
  exact ⟨_, hr, by decide +kernel, (mount_selects_newest hdrInit_large hr).1⟩

/-- The new header with the check codes of the old one. -/
def tornHeader : HeaderImage Unit :=
  { sumIcrc.image (headerThree 1073741824) with
    vol := (mountedVolume 1073741824).header topologyFlush }

/-- A volume of 1GB has one slot: a cut write of it leaves no header at all. -/
theorem single_slot_torn : HdrInit sumIcrc (mountedVolume 1073741824) ∧
    (mountedVolume 1073741824).Writes topologyFlush ∧ sumIcrc.valid tornHeader = false ∧
    readVolumeHeader sumIcrc 1073741824 (Function.update (mountedVolume 1073741824).slots
      ((mountedVolume 1073741824).slot topologyFlush) tornHeader) = none := by
  refine ⟨⟨⟨0, headerThree 1073741824, ?_, rfl, rfl, ?_⟩, rfl⟩, ⟨rfl, ?_, ?_⟩, ?_, ?_⟩
  all_goals decide +kernel

end Hammer2
