import Hammer2.Flush.Slots
import Hammer2.Ondisk.Volumes

/-!
# Mounting a volume that was grown

A volume on one device is mounted, grown and flushed, any number of times. `hammer2_ioctl_growfs`
adds the growth to the size of the volume and to `total_size`, both in the header and in the mount.
What `total_size` of the header means depends on the version of the volume: before multiple volumes
it has to be 0, and a mount takes the size of the volume instead.

So a volume of version 1 that was grown is refused by the next mount, and every other one is mounted
again from the header last written, with its grown size (`growfs_remounts_iff`).

Reference: `hammer2_ioctl.c:1538-1667`, `hammer2_ondisk.c:523-962`, `hammer2_vfsops.c:1424-1505`.
-/

namespace Hammer2

open Transition

/-! ## Mounting one device -/

section
variable {c : Icrc VolFields} {d : DevVp} {v : VolumeData VolFields} {zone m : Nat}

/-- A header that is accepted as that of the only device of a mount, of size `m`. -/
def SingleOk (m : Nat) (v : VolumeData VolFields) : Prop :=
  v.body.voluId = 0 ∧ 1 ≤ v.body.version ∧ v.body.version ≤ volVersionWip ∧
    v.body.fstype = fstypeUuid ∧ 0 < v.voluSize ∧ v.voluSize ≤ m ∧ v.voluSize % volumeAlign = 0 ∧
    v.body.voluLoff 0 = 0 ∧
    if volVersionMultiVolumes ≤ v.body.version then
      v.body.nvolumes = 1 ∧ v.body.totalSize = v.voluSize ∧
        ∀ i < maxVolumes, 0 < i → v.body.voluLoff i = offUnset
    else v.body.nvolumes = 0 ∧ v.body.totalSize = 0 ∧ ∀ i < maxVolumes, v.body.voluLoff i = 0

/-- The slots with the only device in the first one. -/
def singleVolume (d : DevVp) (v : VolumeData VolFields) : Nat → VolSlot :=
  Function.update (fun _ => .unset) 0 ⟨some d, some 0, v.body.voluLoff 0, v.voluSize⟩

theorem singleVolume_isSome (i : Nat) : (singleVolume d v i).id.isSome ↔ i < 1 := by
  unfold singleVolume
  rcases Nat.eq_zero_or_pos i with rfl | hi
  · simp
  · rw [Function.update_of_ne (Nat.ne_of_gt hi)]
    simp [VolSlot.unset]
    omega

theorem countVolumes_single : countVolumes (singleVolume d v) = 1 := by
  refine (count_update rfl rfl maxVolumes).trans ?_
  rfl

theorem sumVolumes_single : sumVolumes (singleVolume d v) = v.voluSize % 2 ^ 64 := by
  rw [sumVolumes_eq (n := 1) (by decide) fun i _ => singleVolume_isSome i, volumesEnd_succ]
  simp [volumesEnd, singleVolume]

/-- A check of the slots that are set is a check of the first one. -/
theorem all_single {p : Nat → Bool} :
    ((List.range maxVolumes).all fun i => (singleVolume d v i).id.isNone || p i) = p 0 := by
  rw [Bool.eq_iff_iff, List.all_eq_true]
  refine ⟨fun h => ?_, fun h i _ => ?_⟩
  · simpa [singleVolume] using h 0 (by decide)
  · rcases Nat.eq_zero_or_pos i with rfl | hi
    · rw [h, Bool.or_true]
    · have : ¬ (singleVolume d v i).id.isSome = true := fun hs => by
        have := (singleVolume_isSome i).1 hs
        omega
      rw [Option.not_isSome_iff_eq_none.1 this]
      rfl

/-- What `hammer2_verify_volumes_common` asks of one volume. -/
theorem verifyCommon_single : verifyVolumesCommon (singleVolume d v) v = true ↔
    v.body.voluId = 0 ∧ v.body.fstype = fstypeUuid ∧ v.body.voluLoff 0 ≠ offUnset ∧
      0 < v.voluSize ∧ v.voluSize ≤ d.mediaSize := by
  have hm := d.media_lt
  unfold verifyVolumesCommon
  simp only [all_single]
  simp only [singleVolume, Function.update_self, Bool.and_eq_true, beq_iff_eq, bne_iff_ne,
    decide_eq_true_eq, Option.map_some, Option.getD_some, offUnset]
  omega

/-- What version 1 asks of it. -/
theorem verify1_single : verifyVolumes1 (singleVolume d v) v = true ↔
    v.body.nvolumes = 0 ∧ v.body.totalSize = 0 ∧ (∀ i < maxVolumes, v.body.voluLoff i = 0) ∧
      v.body.voluLoff 0 = 0 ∧ v.voluSize % volumeAlign = 0 := by
  unfold verifyVolumes1
  rw [countVolumes_single]
  simp [singleVolume, and_assoc]

/-- What version 2 asks of it. -/
theorem verify2_single (hsize : v.voluSize < 2 ^ 64) : verifyVolumes2 (singleVolume d v) v = true ↔
    v.body.nvolumes = 1 ∧ v.body.totalSize = v.voluSize ∧
      (∀ i < maxVolumes,
        if i < 1 then v.body.voluLoff i ≠ offUnset else v.body.voluLoff i = offUnset) ∧
      v.body.voluLoff 0 = 0 ∧ v.voluSize % volumeAlign = 0 := by
  unfold verifyVolumes2
  rw [all_single, countVolumes_single, sumVolumes_single, Nat.mod_eq_of_lt hsize]
  simp only [verifySlot2, singleVolume, Function.update_self, Bool.and_eq_true, beq_iff_eq,
    List.all_eq_true, List.mem_range, ne_eq, not_true_eq_false, if_false, Nat.zero_add]
  constructor
  · rintro ⟨⟨⟨hn, ht⟩, hl⟩, ⟨-, h0⟩, halign⟩
    rw [if_neg (by simp [hn])] at halign
    refine ⟨hn, ht, fun i hi => ?_, h0, by simpa using halign⟩
    have := hl i hi
    split at this <;> simp_all
  · rintro ⟨hn, ht, hl, h0, halign⟩
    refine ⟨⟨⟨hn, ht⟩, fun i hi => ?_⟩, ⟨by rw [h0]; rfl, h0⟩, ?_⟩
    · have := hl i hi
      split at this <;> simp_all
    · rw [if_neg (by simp [hn])]
      simpa using halign

/-- The verification of a mount of one device. -/
theorem verify_single (hver : 1 ≤ v.body.version) (hwip : v.body.version ≤ volVersionWip)
    (hid : v.body.voluId = 0) :
    verifyVolumes (singleVolume d v) v = true ↔ SingleOk d.mediaSize v := by
  have hm := d.media_lt
  unfold verifyVolumes SingleOk
  rw [Bool.and_eq_true, verifyCommon_single]
  by_cases hmulti : volVersionMultiVolumes ≤ v.body.version
  · rw [if_pos hmulti, if_pos hmulti]
    constructor
    · rintro ⟨⟨-, hfs, -, hpos, hfit⟩, h2⟩
      obtain ⟨hn, ht, hl, h0, halign⟩ := (verify2_single (by omega)).1 h2
      refine ⟨hid, hver, hwip, hfs, hpos, hfit, halign, h0, hn, ht, fun i hi hpos => ?_⟩
      have := hl i hi
      rwa [if_neg (by omega)] at this
    · rintro ⟨-, -, -, hfs, hpos, hfit, halign, h0, hn, ht, hl⟩
      have hne : v.body.voluLoff 0 ≠ offUnset := by rw [h0]; decide
      refine ⟨⟨hid, hfs, hne, hpos, hfit⟩,
        (verify2_single (by omega)).2 ⟨hn, ht, fun i hi => ?_, h0, halign⟩⟩
      rcases Nat.eq_zero_or_pos i with rfl | hpos
      · rwa [if_pos Nat.one_pos]
      · rw [if_neg (by omega)]
        exact hl i hi hpos
  · rw [if_neg hmulti, if_neg hmulti, verify1_single]
    constructor
    · rintro ⟨⟨-, hfs, -, hpos, hfit⟩, hn, ht, hl, h0, halign⟩
      exact ⟨hid, hver, hwip, hfs, hpos, hfit, halign, h0, hn, ht, hl⟩
    · rintro ⟨-, -, -, hfs, hpos, hfit, halign, h0, hn, ht, hl⟩
      have hne : v.body.voluLoff 0 ≠ offUnset := by rw [h0]; decide
      exact ⟨⟨hid, hfs, hne, hpos, hfit⟩, hn, ht, hl, h0, halign⟩

/-- A mount of one device goes by the header selected there. -/
theorem initVolumes_single {r : VolMount} (h : initVolumes c [d] = .ok r) :
    readVolumeHeader c d.mediaSize d.slots = some (r.zone, r.root) ∧ SingleOk d.mediaSize r.root ∧
      r.volumes = singleVolume d r.root := by
  unfold initVolumes at h
  rw [List.foldlM_cons] at h
  cases hs : initVolume c ⟨fun _ => .unset, none, none⟩ d with
  | error e =>
    rw [hs] at h
    cases h
  | ok s =>
    obtain ⟨zone, v, hread, -, -, hver, hwip, hvol, hroot⟩ := initVolume_ok hs
    rw [hs] at h
    dsimp only [bind, Except.bind, List.foldlM_nil, pure, Except.pure] at h
    by_cases hid : v.body.voluId = 0
    · rw [if_pos hid] at hroot
      rw [hid] at hvol
      rw [hroot] at h
      dsimp only at h
      split at h
      · rename_i hv
        cases h
        rw [hvol] at hv
        exact ⟨hread, (verify_single hver hwip hid).1 hv, hvol⟩
      · cases h
    · rw [if_neg hid] at hroot
      rw [hroot] at h
      cases h

/-- A header that is selected and is good for one device is mounted. -/
theorem initVolumes_of_single (hread : readVolumeHeader c d.mediaSize d.slots = some (zone, v))
    (hok : SingleOk d.mediaSize v) : initVolumes c [d] = .ok ⟨singleVolume d v, zone, v⟩ := by
  have ⟨hid, hver, hwip, _⟩ := hok
  have hs : initVolume c ⟨fun _ => .unset, none, none⟩ d =
      .ok ⟨singleVolume d v, some v, some (zone, v)⟩ := by
    unfold initVolume
    rw [hread]
    simp only [hid, VolSlot.unset, Option.isSome_none, Option.all_none, Bool.not_true, if_true,
      Option.none_or]
    rw [if_neg (by decide), if_neg Bool.false_ne_true, if_neg Bool.false_ne_true, if_neg (by omega)]
    rfl
  unfold initVolumes
  rw [List.foldlM_cons, hs]
  change (if verifyVolumes (singleVolume d v) v then _ else _) = _
  rw [if_pos ((verify_single hver hwip hid).2 hok)]

end

/-! ## Growing a mounted volume -/

/-- A mounted volume of one device: the header and its slots, `hmp->total_size` and the size of
`hmp->volumes[0]`. -/
structure GrowSys where
  hdr : HdrSys VolFields
  totalSize : Nat
  volumeSize : Nat
  media_lt : hdr.mediaSize < 2 ^ 63

/-- The steps of a run: `growfs` to a size, or to the size of the device, a flush, and a change of
`allocator_free` by the allocator. -/
inductive GrowAct
  | growfs (req : Nat)
  | flush (x : XopFlush)
  | adjust (free : Nat)

namespace GrowSys

/-- The device as the next mount finds it. -/
def devvp (s : GrowSys) : DevVp := ⟨s.hdr.mediaSize, s.hdr.slots, s.media_lt⟩

/-- The mount of one device that `hammer2_init_volumes` accepted. -/
def mount (d : DevVp) (r : VolMount) : GrowSys where
  hdr := ⟨.mount r.zone r.root, d.slots, d.mediaSize, false, [r.root]⟩
  totalSize := r.totalSize
  volumeSize := (r.volumes 0).size
  media_lt := d.media_lt

/-- The header fields after a growth by `delta`. -/
def grownFields (f : VolFields) (delta : Nat) : VolFields :=
  { f with
    totalSize := (f.totalSize + delta) % 2 ^ 64
    allocatorSize := (f.allocatorSize + delta) % 2 ^ 64
    allocatorFree := (f.allocatorFree + delta) % 2 ^ 64 }

/-- The volume once `growfs` has set the new size in the header (`dev`) and cleared `zones`. -/
def grown (s : GrowSys) (dev : VolDev VolFields) (zones : List Nat) : GrowSys :=
  let delta := dev.voldata.voluSize - s.hdr.dev.voldata.voluSize
  { hdr :=
      { s.hdr with
        dev :=
          { dev with voldata := { dev.voldata with body := grownFields dev.voldata.body delta } }
        slots := HdrSys.clear s.hdr.slots zones }
    totalSize := (s.totalSize + delta) % 2 ^ 64
    volumeSize := (s.volumeSize + delta) % 2 ^ 64
    media_lt := s.media_lt }

theorem flush_mediaSize (s : HdrSys VolFields) (c : Icrc VolFields) (x : XopFlush) :
    (s.flush c x).mediaSize = s.mediaSize := by
  unfold HdrSys.flush
  dsimp only
  split <;> rfl

/-- A flush. -/
def flush (s : GrowSys) (c : Icrc VolFields) (x : XopFlush) : GrowSys :=
  { s with hdr := s.hdr.flush c x, media_lt := flush_mediaSize s.hdr c x ▸ s.media_lt }

/-- The allocator adjusts the number of free bytes in the header. -/
def adjust (s : GrowSys) (free : Nat) : GrowSys :=
  { s with
    hdr := { s.hdr with
      dev := { s.hdr.dev.voldataModify with
        voldata := { s.hdr.dev.voldata with
          body := { s.hdr.dev.voldata.body with allocatorFree := free } } } } }

end GrowSys

/-- One step: a `growfs` that succeeds, a flush that writes its header without an I/O error if it
comes to it, or an adjustment. -/
inductive GrowStep (c : Icrc VolFields) (s : GrowSys) : GrowAct → GrowSys → Prop
  | grown (req : Nat) (dev : VolDev VolFields) (zones : List Nat) :
      s.hdr.dev.growfs s.hdr.mediaSize req = .grown dev zones →
      GrowStep c s (.growfs req) (s.grown dev zones)
  | unchanged (req : Nat) : s.hdr.dev.growfs s.hdr.mediaSize req = .unchanged →
      GrowStep c s (.growfs req) s
  | flush (x : XopFlush) : x.deviceError = s.hdr.deviceError → x.headerIo = .written 0 →
      GrowStep c s (.flush x) (s.flush c x)
  | adjust (free : Nat) : GrowStep c s (.adjust free) (s.adjust free)

/-- The next mount finds the header that the flush `x` writes in state `s`, accepts it with the size
the volume has in memory, and computes the total size that the mount has in memory. -/
def GrowSys.Remounts (c : Icrc VolFields) (s : GrowSys) (x : XopFlush) : Prop :=
  ∃ r, initVolumes c [(s.flush c x).devvp] = .ok r ∧ r.root = s.hdr.header x ∧
    (r.volumes 0).dev = some (s.flush c x).devvp ∧
    (r.volumes 0).size = s.hdr.dev.voldata.voluSize ∧ r.totalSize = s.totalSize

/-! ## The header in memory and the one to be written -/

/-- The part of a header that `growfs` changes and a mount reads. -/
def VolumeData.core (v : VolumeData VolFields) : Nat × VolFields := (v.voluSize, v.body)

/-- Where the header in memory was not modified since, the one to be written is the same up to its
transaction ids. -/
def VolDev.Clean (d : VolDev VolFields) : Prop :=
  d.vchainModified = false → d.volsync.core = d.voldata.core

section
variable {d : VolDev VolFields} {x : XopFlush}

@[simp] theorem VolDev.voldataModify_voldata (d : VolDev VolFields) :
    d.voldataModify.voldata = d.voldata := by
  unfold voldataModify
  split <;> rfl

@[simp] theorem VolDev.voldataModify_vchainModified (d : VolDev VolFields) :
    d.voldataModify.vchainModified = true := by
  unfold voldataModify
  split
  · assumption
  · rfl

/-- With the volume chain modified nothing is asked. -/
theorem VolDev.Clean.of_modified (h : d.vchainModified = true) : d.Clean := fun hm => by
  rw [h] at hm
  cases hm

/-- A flush of the freemap leaves sizes and layout. -/
theorem flushFchain_core : (x.flushFchain d).1.voldata.core = d.voldata.core := by
  have hf : ∀ e : VolDev VolFields, e.flushFreemap.voldata.core = e.voldata.core := fun e => by
    unfold VolDev.flushFreemap
    split <;> rfl
  unfold XopFlush.flushFchain
  split
  · have hmod : ∀ b : Bool, (if b then d.voldataModify.fchainModify else d.voldataModify).voldata =
        d.voldata := fun b => by
      cases b
      · exact d.voldataModify_voldata
      · exact d.voldataModify_voldata
    dsimp only
    split
    · rw [hf, hmod]
    · rw [hmod]
  · rfl

/-- It keeps the volume clean. -/
theorem VolDev.Clean.flushFchain (h : d.Clean) : (x.flushFchain d).1.Clean := by
  have hf : ∀ e : VolDev VolFields, e.flushFreemap.vchainModified = e.vchainModified := fun e => by
    unfold VolDev.flushFreemap
    split <;> rfl
  unfold XopFlush.flushFchain
  split
  · have hmod : ∀ b : Bool,
        (if b then d.voldataModify.fchainModify else d.voldataModify).vchainModified =
          true := fun b => by
      cases b
      · exact d.voldataModify_vchainModified
      · exact d.voldataModify_vchainModified
    refine .of_modified ?_
    dsimp only
    split
    · rw [hf, hmod]
    · rw [hmod]
  · exact h

/-- Modifying the volume chain keeps it clean. -/
theorem VolDev.Clean.vchainModify (h : d.Clean) (b : Bool) :
    (if b then d.vchainModify else d).Clean ∧ (if b then d.vchainModify else d).voldata =
    d.voldata := by
  cases b
  · exact ⟨h, rfl⟩
  · exact ⟨.of_modified rfl, rfl⟩

/-- A flush of the volume chain copies sizes and layout. -/
theorem VolDev.Clean.flushVolume (h : d.Clean) :
    d.flushVolume.volsync.core = d.flushVolume.voldata.core ∧
      d.flushVolume.voldata.core = d.voldata.core := by
  unfold VolDev.flushVolume
  cases hm : d.vchainModified with
  | true => exact ⟨rfl, rfl⟩
  | false => exact ⟨h hm, rfl⟩

/-- The flush of `vchain` leaves the header in memory as it is, up to transaction ids, and copies it
if it reaches the root. -/
theorem VolDev.Clean.flushVchain (h : d.Clean) :
    (x.flushVchain d).1.voldata.core = d.voldata.core ∧ (x.flushVchain d).1.Clean ∧
      (x.topology.reached = true →
        (x.flushVchain d).1.volsync.core = (x.flushVchain d).1.voldata.core) := by
  unfold XopFlush.flushVchain
  split
  · obtain ⟨hc, hdata⟩ := h.vchainModify x.topology.modifies
    dsimp only
    obtain ⟨hsync, hcore⟩ := hc.flushVolume
    split
    · exact ⟨hcore.trans (congrArg _ hdata), fun _ => hsync, fun _ => hsync⟩
    · rename_i hr
      exact ⟨congrArg _ hdata, hc, fun hr' => absurd hr' hr⟩
  · rename_i hm
    simp only [Bool.or_eq_true, not_or, Bool.not_eq_true] at hm
    exact ⟨rfl, h, fun _ => h hm.2⟩

/-- What a flush leaves, and what goes into the header. -/
theorem VolDev.Clean.flushedDev (h : d.Clean) :
    (x.flushedDev d).voldata.core = d.voldata.core ∧ (x.flushedDev d).Clean ∧
      (x.topology.reached = true → (x.flushedDev d).volsync.core = d.voldata.core) := by
  obtain ⟨hcore, hclean, hsync⟩ := (VolDev.Clean.flushFchain (x := x) h).flushVchain (x := x)
  have hall := hcore.trans flushFchain_core
  exact ⟨hall, hclean, fun hr => (hsync hr).trans hall⟩

/-- The header write touches neither header in memory. -/
theorem VolDev.Clean.headerSync (h : d.Clean) :
    (x.headerSync d).1.voldata = d.voldata ∧ (x.headerSync d).1.Clean := by
  have hdev : (x.headerSync d).1 = { d with volumesync := false, volhdrno := d.nextVolhdr } := by
    cases hio : x.headerIo with
    | noFolio err | written err => simp only [XopFlush.headerSync, hio]
  rw [hdev]
  exact ⟨rfl, fun hm => h hm⟩

/-- A whole flush leaves the header in memory as it is, up to transaction ids. -/
theorem VolDev.Clean.xopInodeFlush (h : d.Clean) :
    (xopInodeFlush x d).dev.voldata.core = d.voldata.core ∧ (xopInodeFlush x d).dev.Clean := by
  obtain ⟨hcore, hclean, -⟩ := VolDev.Clean.flushedDev (x := x) h
  unfold Hammer2.xopInodeFlush
  split
  · split
    · obtain ⟨hdata, hsync⟩ := VolDev.Clean.headerSync (x := x) hclean
      exact ⟨(congrArg _ hdata).trans hcore, hsync⟩
    · exact ⟨hcore, hclean⟩
  · exact ⟨rfl, h⟩

end

/-! ## Runs -/

/-- The size fields of a header of the volume first mounted with `v₀`, on a device of size `m`: only
they and the allocator's change, `total_size` by as much as the size of the volume. -/
structure Sized (v₀ : VolumeData VolFields) (m : Nat) (k : Nat × VolFields) : Prop where
  same : ∃ t a f, k.2 = { v₀.body with totalSize := t, allocatorSize := a, allocatorFree := f }
  total : k.2.totalSize + v₀.voluSize = k.1 + v₀.body.totalSize
  ge : v₀.voluSize ≤ k.1
  le : k.1 ≤ m
  aligned : k.1 % volumeAlign = 0

section
variable {c : Icrc VolFields} {d : DevVp} {v₀ : VolumeData VolFields}
    {r : VolMount} {s s' : GrowSys}
  {m : Nat} {k : Nat × VolFields} {x : XopFlush}

/-- The total size does not exceed the volume's. -/
theorem SingleOk.totalSize_le (h : SingleOk m v₀) : v₀.body.totalSize ≤ v₀.voluSize := by
  obtain ⟨-, -, -, -, -, -, -, -, hver⟩ := h
  split at hver
  · exact Nat.le_of_eq hver.2.1
  · rw [hver.2.1]
    exact Nat.zero_le _

/-- A volume that is accepted has a fitting size. -/
theorem SingleOk.sized (h : SingleOk m v₀) : Sized v₀ m v₀.core := by
  obtain ⟨-, -, -, -, -, hle, halign, -⟩ := h
  exact ⟨⟨_, _, _, rfl⟩, Nat.add_comm _ _, Nat.le_refl _, hle, halign⟩

/-- A header of the run is good for a mount exactly if its version has a total size, or if the
volume has the size it was first mounted with. -/
theorem Sized.singleOk_iff (h : Sized v₀ m k) (h₀ : SingleOk m v₀) {v : VolumeData VolFields}
    (hk : v.core = k) :
    SingleOk m v ↔ volVersionMultiVolumes ≤ v₀.body.version ∨ v.voluSize = v₀.voluSize := by
  subst hk
  obtain ⟨⟨t, a, f, hbody⟩, htotal, hge, hle, halign⟩ := h
  obtain ⟨hid, hver, hwip, hfs, hpos, -, -, h0, hrest⟩ := h₀
  have hb : v.body = _ := hbody
  simp only [VolumeData.core] at htotal hge hle halign
  unfold SingleOk
  rw [hb] at htotal ⊢
  dsimp only at htotal ⊢
  by_cases hmulti : volVersionMultiVolumes ≤ v₀.body.version
  · rw [if_pos hmulti] at hrest ⊢
    refine ⟨fun _ => .inl hmulti, fun _ => ?_⟩
    exact ⟨hid, hver, hwip, hfs, by omega, hle, halign, h0, hrest.1, by omega, hrest.2.2⟩
  · rw [if_neg hmulti] at hrest ⊢
    refine ⟨fun hok => .inr (by omega), fun hc => ?_⟩
    have hsame := hc.resolve_left hmulti
    exact ⟨hid, hver, hwip, hfs, by omega, hle, halign, h0, hrest.1, by omega, hrest.2.2⟩

/-- What a run keeps. -/
structure GrowInv (c : Icrc VolFields) (v₀ : VolumeData VolFields) (m : Nat) (s : GrowSys) :
    Prop where
  media : s.hdr.mediaSize = m
  hdr : ∃ last, HdrInv c s.hdr last
  sized : Sized v₀ m s.hdr.dev.voldata.core
  clean : s.hdr.dev.Clean
  total : s.totalSize = s.hdr.dev.voldata.voluSize

/-- A mount establishes the invariant. -/
theorem GrowInv.mount (h : initVolumes c [d] = .ok r) :
    GrowInv c r.root d.mediaSize (GrowSys.mount d r) := by
  obtain ⟨hread, hok, -⟩ := initVolumes_single h
  have hfit : r.root.voluSize ≤ d.mediaSize := hok.2.2.2.2.2.1
  refine ⟨rfl, HdrInit.inv ⟨⟨r.zone, r.root, hread, rfl, rfl, hfit⟩, rfl⟩,
    hok.sized, fun _ => rfl, ?_⟩
  obtain ⟨-, -, -, -, -, -, -, -, hver⟩ := hok
  change (if _ then _ else _) = r.root.voluSize
  split
  · rename_i hmulti
    rw [if_pos hmulti] at hver
    exact hver.2.1
  · rfl

/-- The size that a resize sets. -/
theorem growfs_grown_size {dev e : VolDev VolFields} {req : Nat} {zones : List Nat}
    (h : dev.growfs m req = .grown e zones) :
    dev.voldata.voluSize < e.voldata.voluSize ∧ e.voldata.voluSize % volumeAlign = 0 ∧
      e.voldata.voluSize ≤ m ∧ e.voldata.body = dev.voldata.body ∧ e.vchainModified = true := by
  obtain ⟨-, size, hsize, heq⟩ := growfs_grown h
  have halign : e.voldata.voluSize % volumeAlign = 0 ∧
      dev.voldata.voluSize < e.voldata.voluSize := by
    unfold VolDev.growfs at h
    dsimp only at h
    generalize hreq : rounddown2 (if req = 0 then m else req) volumeAlign = n at h
    split_ifs at h
    cases h
    refine ⟨?_, ?_⟩
    · rw [← hreq]
      exact Nat.mul_mod_left _ _
    · dsimp only
      omega
  rw [heq] at halign ⊢
  exact ⟨halign.2, halign.1, hsize, by simp, by simp⟩

/-- A growth changes no other field. -/
theorem grownFields_same {f f₀ : VolFields} {t a b : Nat}
    (h : f = { f₀ with totalSize := t, allocatorSize := a, allocatorFree := b }) (delta : Nat) :
    ∃ t a b, GrowSys.grownFields f delta =
      { f₀ with totalSize := t, allocatorSize := a, allocatorFree := b } := by
  subst h
  exact ⟨_, _, _, rfl⟩

/-- A growth is a `growfs` of the header system, followed by the change of the other fields. -/
theorem GrowInv.grown {dev : VolDev VolFields} {req : Nat} {zones : List Nat} (h₀ : SingleOk m v₀)
    (h : GrowInv c v₀ m s) (hg : s.hdr.dev.growfs s.hdr.mediaSize req = .grown dev zones) :
    GrowInv c v₀ m (s.grown dev zones) := by
  obtain ⟨hlt, halign, hle, hbody, hmod⟩ := growfs_grown_size hg
  have hm := s.media_lt
  rw [h.media] at hle hm
  have htot := h₀.totalSize_le
  obtain ⟨⟨t, a, f, hsame⟩, htotal, hge, -, -⟩ := h.sized
  simp only [VolumeData.core] at hsame htotal hge
  have hsum : s.hdr.dev.voldata.body.totalSize +
      (dev.voldata.voluSize - s.hdr.dev.voldata.voluSize) < 2 ^ 64 := by omega
  refine ⟨h.media, ?_, ⟨?_, ?_, ?_, ?_, ?_⟩, .of_modified hmod, ?_⟩
  · have h1 : HdrStep c s.hdr (.growfs req) (s.hdr.growfs req) := .growfs req
    have h2 := HdrInv.step (HdrInv.step h.hdr h1) (.touch (GrowSys.grownFields dev.voldata.body
      (dev.voldata.voluSize - s.hdr.dev.voldata.voluSize)))
    have hdev : s.hdr.growfs req =
        { s.hdr with dev := dev, slots := HdrSys.clear s.hdr.slots zones } := by
      unfold HdrSys.growfs
      rw [hg]
    have hvm : dev.voldataModify = dev := by
      unfold VolDev.voldataModify
      rw [if_pos hmod]
    rw [hdev] at h2
    simp only [hvm] at h2
    exact h2
  · simp only [GrowSys.grown, VolumeData.core, hbody]
    exact grownFields_same hsame _
  · simp only [GrowSys.grown, VolumeData.core, GrowSys.grownFields, hbody]
    rw [Nat.mod_eq_of_lt hsum]
    omega
  · simp only [GrowSys.grown, VolumeData.core]
    omega
  · exact hle
  · exact halign
  · have ht := h.total
    simp only [GrowSys.grown]
    rw [Nat.mod_eq_of_lt (by omega)]
    omega

/-- A flush whose header write succeeds keeps the invariant. -/
theorem GrowInv.flush (h : GrowInv c v₀ m s) (hio : x.headerIo = .written 0) :
    GrowInv c v₀ m (s.flush c x) := by
  obtain ⟨last, hlast⟩ := h.hdr
  obtain ⟨hcore, hclean⟩ := VolDev.Clean.xopInodeFlush (x := x) h.clean
  have hdev : (s.hdr.flush c x).dev = (xopInodeFlush x s.hdr.dev).dev := by
    unfold HdrSys.flush
    dsimp only
    split <;> rfl
  refine ⟨(GrowSys.flush_mediaSize _ _ _).trans h.media, hlast.flush hio, ?_, ?_, ?_⟩
  · change Sized v₀ m (s.hdr.flush c x).dev.voldata.core
    rw [hdev, hcore]
    exact h.sized
  · change (s.hdr.flush c x).dev.Clean
    rwa [hdev]
  · change s.totalSize = (s.hdr.flush c x).dev.voldata.voluSize
    rw [hdev, h.total]
    exact (congrArg Prod.fst hcore).symm

/-- A change of the free space keeps it. -/
theorem GrowInv.adjust {free : Nat} (h : GrowInv c v₀ m s) : GrowInv c v₀ m (s.adjust free) := by
  obtain ⟨⟨t, a, f, hsame⟩, htotal, hge, hle, halign⟩ := h.sized
  refine ⟨h.media, HdrInv.step h.hdr (.touch _), ⟨⟨t, a, free, ?_⟩, htotal, hge, hle, halign⟩,
    .of_modified (VolDev.voldataModify_vchainModified _), h.total⟩
  simp only [VolumeData.core] at hsame
  simp only [GrowSys.adjust, VolumeData.core]
  rw [hsame]

/-- Every step keeps it. -/
theorem GrowInv.step {a : GrowAct} (h₀ : SingleOk m v₀) (h : GrowInv c v₀ m s)
    (hs : GrowStep c s a s') : GrowInv c v₀ m s' := by
  cases hs with
  | grown req dev zones hg => exact h.grown h₀ hg
  | unchanged req => exact h
  | flush x _ hio => exact h.flush hio
  | adjust free => exact h.adjust

end

/-- **A volume that was grown is mounted again**, from the header written last and with its grown
size, exactly if its version has a total size in the header or nothing was grown: for every volume a
mount accepts, every run of successful `growfs` calls and flushes, and every flush after it that
copies the header in memory and writes it. -/
theorem growfs_remounts_iff {c : Icrc VolFields} {d : DevVp} {r : VolMount} {s : GrowSys}
    {as : List GrowAct} {x : XopFlush} (hmount : initVolumes c [d] = .ok r)
    (hrun : Run (GrowStep c) (GrowSys.mount d r) as s) (hw : s.hdr.Writes x)
    (hreached : x.topology.reached = true) :
    s.Remounts c x ↔
      volVersionMultiVolumes ≤ r.root.body.version ∨ s.totalSize = r.totalSize := by
  obtain ⟨-, hok, -⟩ := initVolumes_single hmount
  have h := hrun.invariant (fun h hs => GrowInv.step hok h hs) (GrowInv.mount hmount)
  obtain ⟨last, hlast⟩ := h.hdr
  -- The header written is the one in memory, and it is the one selected.
  have hcore : (s.hdr.header x).core = s.hdr.dev.voldata.core :=
    (VolDev.Clean.flushedDev (x := x) h.clean).2.2 hreached
  have hsize : (s.hdr.header x).voluSize = s.hdr.dev.voldata.voluSize := congrArg Prod.fst hcore
  have hslots : (s.flush c x).hdr.slots =
      Function.update s.hdr.slots (s.hdr.slot x) (c.image (s.hdr.header x)) := by
    simp only [GrowSys.flush, HdrSys.flush, hw.2.1, hw.2.2, Bool.and_self, if_true]
  have hmedia : (s.flush c x).devvp.mediaSize = s.hdr.mediaSize := GrowSys.flush_mediaSize _ _ _
  have hread : readVolumeHeader c (s.flush c x).devvp.mediaSize (s.flush c x).devvp.slots =
      some (s.hdr.slot x, s.hdr.header x) := by
    rw [hmedia]
    change readVolumeHeader c _ (s.flush c x).hdr.slots = _
    rw [hslots]
    exact hlast.selected_write hw.2.2
  have hiff := h.sized.singleOk_iff hok hcore
  have hdm : (s.flush c x).devvp.mediaSize = d.mediaSize := hmedia.trans h.media
  -- Before multiple volumes the total size is the size of the volume.
  have hcond : volVersionMultiVolumes ≤ r.root.body.version ∨
      (s.hdr.header x).voluSize = r.root.voluSize ↔
        volVersionMultiVolumes ≤ r.root.body.version ∨ s.totalSize = r.totalSize := by
    by_cases hmulti : volVersionMultiVolumes ≤ r.root.body.version
    · simp [hmulti]
    · rw [VolMount.totalSize, if_neg hmulti, h.total, hsize]
  rw [← hcond, ← hiff]
  constructor
  · rintro ⟨r', hr', hroot, -⟩
    obtain ⟨-, hok', -⟩ := initVolumes_single hr'
    rwa [hroot, hdm] at hok'
  · intro hgood
    refine ⟨_, initVolumes_of_single hread (hdm ▸ hgood), rfl, rfl, hsize, ?_⟩
    obtain ⟨-, -, -, -, -, -, -, -, hver⟩ := hgood
    rw [VolMount.totalSize, h.total, ← hsize]
    dsimp only
    split
    · rename_i hmulti
      rw [if_pos hmulti] at hver
      exact hver.2.1
    · rfl

/-! ## A volume of 8MB on a device of 16MB -/

/-- The header of a volume of 8MB, of version 2. -/
def smallHeader : VolumeData VolFields := evenHeader 1 8388608 0

/-- The same for version 1, which has no offsets and no total size. -/
def smallHeader1 : VolumeData VolFields :=
  { smallHeader with
    body :=
      { smallHeader.body with version := 1, nvolumes := 0, totalSize := 0, voluLoff := fun _ => 0 }
        }

/-- A device of 16MB with this header. -/
def smallDev (v : VolumeData VolFields) : DevVp where
  mediaSize := 16777216
  slots := fun _ => zeroIcrc.image v
  media_lt := by decide

/-- The mount of it. -/
def smallMount (v : VolumeData VolFields) : VolMount := ⟨singleVolume (smallDev v) v, 0, v⟩

instance (m : Nat) (v : VolumeData VolFields) : Decidable (SingleOk m v) := by
  unfold SingleOk
  infer_instance

/-- The volume of the example is accepted. -/
theorem smallMount_ok {v : VolumeData VolFields} (h : SingleOk 16777216 v) :
    initVolumes zeroIcrc [smallDev v] = .ok (smallMount v) :=
  initVolumes_of_single rfl h

/-- The volume grown to the size of the device. -/
def smallGrown (v : VolumeData VolFields) : GrowSys :=
  (GrowSys.mount (smallDev v) (smallMount v)).grown
    { VolDev.voldataModify (.mount 0 v) with voldata := { v with voluSize := 16777216 } } []

theorem smallGrown_run {v : VolumeData VolFields} (h : v.voluSize = 8388608) :
    Run (GrowStep zeroIcrc) (GrowSys.mount (smallDev v) (smallMount v))
      [.growfs 0] (smallGrown v) := by
  refine .cons trivial (.grown 0 _ [] ?_) (.nil _)
  have hsize : rounddown2 (if 0 = 0 then 16777216 else 0) volumeAlign = 16777216 := by decide
  have hzones : growfsZones 8388608 16777216 = [] := by decide
  change VolDev.growfs (.mount 0 v) 16777216 0 = _
  unfold VolDev.growfs
  dsimp only
  rw [hsize, if_neg (by decide), if_neg (by decide)]
  change (if 16777216 < v.voluSize then _ else if 16777216 = v.voluSize then _ else _) = _
  rw [if_neg (by omega), if_neg (by omega)]
  change (if (growfsZones v.voluSize 16777216).any _ then _ else _) = _
  rw [h, hzones, if_neg (by decide)]
  change Growfs.grown _ (growfsZones v.voluSize 16777216) = _
  rw [h, hzones]
  rfl

/-- A flush that succeeds. -/
def plainFlush : XopFlush where
  volhdr := true
  inode := some ⟨true, 0, true⟩
  replicated := false
  spmpFlush := none
  freemap := ⟨false, false, false, 0⟩
  topology := ⟨true, false, true, 0⟩
  devs := [0]
  root := 0
  writeback := fun _ => 0
  cacheFlush := fun _ => 0
  deviceError := false
  headerIo := .written 0

/-- A volume of version 2 is grown, flushed and mounted again. -/
theorem growfs_remounts_multi :
    Run (GrowStep zeroIcrc) (GrowSys.mount (smallDev smallHeader) (smallMount smallHeader))
      [.growfs 0] (smallGrown smallHeader) ∧
      (smallGrown smallHeader).totalSize = 16777216 ∧
      (smallGrown smallHeader).Remounts zeroIcrc plainFlush := by
  have hrun := smallGrown_run (v := smallHeader) rfl
  exact ⟨hrun, rfl, (growfs_remounts_iff (smallMount_ok (by decide))
    hrun ⟨rfl, rfl, by decide⟩ rfl).2 (.inl (by decide))⟩

/-- A volume of version 1 is grown and flushed, and refused by the next mount. -/
theorem growfs_refused :
    initVolumes zeroIcrc [smallDev smallHeader1] = .ok (smallMount smallHeader1) ∧
      Run (GrowStep zeroIcrc) (GrowSys.mount (smallDev smallHeader1) (smallMount smallHeader1))
        [.growfs 0] (smallGrown smallHeader1) ∧
      (smallGrown smallHeader1).hdr.Writes plainFlush ∧
      ¬ (smallGrown smallHeader1).Remounts zeroIcrc plainFlush := by
  refine ⟨smallMount_ok (by decide), smallGrown_run rfl, ⟨rfl, rfl, by decide⟩, ?_⟩
  rintro ⟨r, hr, hroot, -⟩
  obtain ⟨-, hok, -⟩ := initVolumes_single hr
  rw [hroot] at hok
  exact absurd hok (by decide)

end Hammer2
