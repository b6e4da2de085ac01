import Hammer2.Flush.Header

/-!
# The volumes of a mount

`hammer2_init_volumes` reads the header of every device, puts each volume into the slot of the id
its header gives, and checks the slots against each other and against the header of the root volume.
Each header brings its own offset and size; the offsets are compared with the end of the volume
before in 64-bit arithmetic, and -1 marks a slot that is not set. `hammer2_get_volume` finds the
volume of an offset among the slots.

What an accepted set of devices amounts to is `Tiles`: the ranges start at 0, each starts where the
one before ends, and together they make up the total size. Every check is made modulo 2^64, so this
holds exactly if the sizes do not add up past it (`initVolumes_tiles_iff`).

Reference: `hammer2_ondisk.c:452-702`, `hammer2_ondisk.c:839-996`, `hammer2_vfsops.c:1493-1505`.
-/

namespace Hammer2

/-- `HAMMER2_MAX_VOLUMES`. -/
def maxVolumes : Nat := 64

/-- `HAMMER2_VOL_VERSION_MULTI_VOLUMES`. -/
def volVersionMultiVolumes : Nat := 2

/-- `HAMMER2_VOL_VERSION_WIP`. -/
def volVersionWip : Nat := 3

/-- `hammer2_fstype_uuid`, 5cbb9ad1-862d-11dc-a94d-01301bb8a9f5. -/
def fstypeUuid : Nat := 0x5cbb9ad1862d11dca94d01301bb8a9f5

/-- The value -1 of a `hammer2_off_t`. -/
def offUnset : Nat := 2 ^ 64 - 1

/-- The fields of a volume header, apart from the size of the volume, that a mount reads and
`growfs` writes. -/
structure VolFields where
  voluId : Nat
  version : Nat
  nvolumes : Nat
  totalSize : Nat
  voluLoff : Nat → Nat
  allocatorSize : Nat
  allocatorFree : Nat
  fsid : Nat
  fstype : Nat

/-- A device of the mount: its size, which is a `loff_t`, and its header slots. -/
structure DevVp where
  mediaSize : Nat
  slots : Nat → HeaderImage VolFields
  media_lt : mediaSize < 2 ^ 63

/-- `hammer2_volume_t`; the id -1 of a slot that is not set is `none`. -/
structure VolSlot where
  dev : Option DevVp
  id : Option Nat
  offset : Nat
  size : Nat

/-- A slot that is not set. -/
def VolSlot.unset : VolSlot := ⟨none, none, offUnset, offUnset⟩

/-- The errors of `hammer2_init_volumes`. -/
inductive VolErr
  | einval
  | enxio
  deriving DecidableEq

/-! ## Verification -/

/-- `hammer2_verify_volumes_common`. -/
def verifyVolumesCommon (volumes : Nat → VolSlot) (root : VolumeData VolFields) : Bool :=
  root.body.voluId == 0 && root.body.fstype == fstypeUuid &&
    (List.range maxVolumes).all fun i =>
      let vol := volumes i
      vol.id.isNone ||
        (vol.offset != offUnset && vol.size != offUnset &&
          decide (vol.size ≤ (vol.dev.map DevVp.mediaSize).getD 0) && vol.size != 0)

/-- The number of slots that are set. -/
def countVolumes (volumes : Nat → VolSlot) : Nat :=
  ((List.range maxVolumes).filter fun i => (volumes i).id.isSome).length

/-- The sum of the sizes of the slots that are set, as a `hammer2_off_t`. -/
def sumVolumes (volumes : Nat → VolSlot) : Nat :=
  (List.range maxVolumes).foldl
    (fun total i => if (volumes i).id.isSome then (total + (volumes i).size) % 2 ^ 64 else total) 0

/-- `hammer2_verify_volumes_1`, for the versions before multiple volumes. -/
def verifyVolumes1 (volumes : Nat → VolSlot) (root : VolumeData VolFields) : Bool :=
  countVolumes volumes == 1 && root.body.nvolumes == 0 && root.body.totalSize == 0 &&
    ((List.range maxVolumes).all fun i => root.body.voluLoff i == 0) &&
    (volumes 0).id == some 0 && (volumes 0).offset == 0 && (volumes 0).size % volumeAlign == 0

/-- The checks of `hammer2_verify_volumes_2` on the slot `i`. The slot before one that is set need
not be set: its offset and its size are -1 then. -/
def verifySlot2 (volumes : Nat → VolSlot) (root : VolumeData VolFields) (i : Nat) : Bool :=
  let vol := volumes i
  vol.offset % freemapLevel1Size == 0 &&
    (if i ≠ 0 then
      let prev := volumes (i - 1)
      (prev.id.all fun id => vol.id.any fun own => decide (id < own)) &&
        vol.offset == (prev.offset + prev.size) % 2 ^ 64
    else vol.offset == 0) &&
    (if i + 1 ≠ root.body.nvolumes then
      decide (freemapLevel1Size ≤ vol.size) && vol.size % freemapLevel1Size == 0
    else vol.size % volumeAlign == 0)

/-- `hammer2_verify_volumes_2`. -/
def verifyVolumes2 (volumes : Nat → VolSlot) (root : VolumeData VolFields) : Bool :=
  root.body.nvolumes == countVolumes volumes && root.body.totalSize == sumVolumes volumes &&
    ((List.range maxVolumes).all fun i =>
      if i < countVolumes volumes then root.body.voluLoff i != offUnset
      else root.body.voluLoff i == offUnset) &&
    (List.range maxVolumes).all fun i => (volumes i).id.isNone || verifySlot2 volumes root i

/-- `hammer2_verify_volumes`. -/
def verifyVolumes (volumes : Nat → VolSlot) (root : VolumeData VolFields) : Bool :=
  verifyVolumesCommon volumes root &&
    if volVersionMultiVolumes ≤ root.body.version then verifyVolumes2 volumes root
    else verifyVolumes1 volumes root

/-! ## `hammer2_init_volumes` -/

/-- The state of the loop over the devices: the slots, the first header read, with which the others
have to agree, and the header of the root volume with its zone. -/
structure VolInit where
  volumes : Nat → VolSlot
  first : Option (VolumeData VolFields)
  root : Option (Nat × VolumeData VolFields)

/-- The header `v` agrees with the first one in version, number of volumes and uuids. -/
def agrees (first v : VolumeData VolFields) : Bool :=
  first.body.version == v.body.version && first.body.nvolumes == v.body.nvolumes &&
    first.body.fsid == v.body.fsid && first.body.fstype == v.body.fstype

/-- One turn of the loop over the devices. -/
def initVolume (c : Icrc VolFields) (s : VolInit) (e : DevVp) : Except VolErr VolInit :=
  match readVolumeHeader c e.mediaSize e.slots with
  | none => .error .einval
  | some (zone, v) =>
    if maxVolumes ≤ v.body.voluId then .error .einval
    else if (s.volumes v.body.voluId).id.isSome then .error .einval
    else if !s.first.all fun first => agrees first v then .error .enxio
    else if v.body.version < 1 ∨ volVersionWip < v.body.version then .error .einval
    else
      .ok
        { volumes := Function.update s.volumes v.body.voluId
            ⟨some e, some v.body.voluId, v.body.voluLoff v.body.voluId, v.voluSize⟩
          first := s.first.or (some v)
          root := if v.body.voluId = 0 then some (zone, v) else s.root }

/-- The slots of an accepted mount, and the header of the root volume with its zone. -/
structure VolMount where
  volumes : Nat → VolSlot
  zone : Nat
  root : VolumeData VolFields

/-- `hammer2_init_volumes`. Without a root volume its header stays zeroed, with version 0. -/
def initVolumes (c : Icrc VolFields) (devs : List DevVp) : Except VolErr VolMount :=
  match devs.foldlM (initVolume c) ⟨fun _ => .unset, none, none⟩ with
  | .error e => .error e
  | .ok s =>
    match s.root with
    | none => .error .einval
    | some (zone, root) =>
      if verifyVolumes s.volumes root then .ok ⟨s.volumes, zone, root⟩ else .error .einval

/-- `hmp->nvolumes` as the mount sets it. -/
def VolMount.nvolumes (r : VolMount) : Nat :=
  if volVersionMultiVolumes ≤ r.root.body.version then r.root.body.nvolumes else 1

/-- `hmp->total_size` as the mount sets it. -/
def VolMount.totalSize (r : VolMount) : Nat :=
  if volVersionMultiVolumes ≤ r.root.body.version then r.root.body.totalSize else r.root.voluSize

/-- `hammer2_get_volume`: the slot of the volume that has this offset; `none` if `hpanic` was
called. -/
def getVolume (volumes : Nat → VolSlot) (nvolumes offset : Nat) : Option Nat :=
  let offset := rounddown2 offset 64
  (List.range nvolumes).find? fun i =>
    decide ((volumes i).offset ≤ offset ∧
      offset < ((volumes i).offset + (volumes i).size) % 2 ^ 64)

/-! ## The slots after the loop over the devices -/

section
variable {c : Icrc VolFields} {s s' : VolInit} {volumes : Nat → VolSlot} {done devs : List DevVp}

/-- The slot `i` holds what the header of one of the devices says. -/
def VolSlot.From (c : Icrc VolFields) (devs : List DevVp) (i : Nat) (vol : VolSlot) : Prop :=
  ∃ d ∈ devs, ∃ zone v, readVolumeHeader c d.mediaSize d.slots = some (zone, v) ∧
    v.body.voluId = i ∧ vol = ⟨some d, some i, v.body.voluLoff i, v.voluSize⟩

/-- The loop so far: every slot is unset or from a device, there are as many as devices, and slot 0
is the root volume. -/
structure VolInit.Inv (c : Icrc VolFields) (done : List DevVp) (s : VolInit) : Prop where
  slot : ∀ i, s.volumes i = .unset ∨ i < maxVolumes ∧ (s.volumes i).From c done i
  count : countVolumes s.volumes = done.length
  root : ∀ zone v, s.root = some (zone, v) →
    (s.volumes 0).id = some 0 ∧ (s.volumes 0).size = v.voluSize ∧ 1 ≤ v.body.version

variable {vol : VolSlot} {i n off : Nat} {e : DevVp} {root : VolumeData VolFields} {r : VolMount}

/-- Setting a slot adds one to the slots set below a bound above it. -/
theorem count_update {j : Nat} (hj : (volumes j).id = none) (hv : vol.id.isSome) (n : Nat) :
    ((List.range n).filter fun i => (Function.update volumes j vol i).id.isSome).length =
      ((List.range n).filter fun i => (volumes i).id.isSome).length + if j < n then 1 else 0 := by
  induction n with
  | zero => rfl
  | succ n ih =>
    rw [List.range_succ, List.filter_append, List.filter_append, List.length_append,
      List.length_append, ih]
    rcases Nat.lt_trichotomy j n with hlt | rfl | hgt
    · rw [if_pos hlt, if_pos (by omega)]
      simp only [List.filter_singleton, Function.update_of_ne (Nat.ne_of_gt hlt)]
      omega
    · rw [if_neg (Nat.lt_irrefl _), if_pos (Nat.lt_succ_self _)]
      simp [hj, hv]
    · rw [if_neg (by omega), if_neg (by omega)]
      simp only [List.filter_singleton, Function.update_of_ne (Nat.ne_of_lt hgt)]
      omega

theorem VolSlot.From.mono (h : vol.From c done i) (hsub : done ⊆ devs) :
    vol.From c devs i := by
  obtain ⟨d, hd, rest⟩ := h
  exact ⟨d, hsub hd, rest⟩

/-- One turn of the loop: what a device that is accepted does to the slots. -/
theorem initVolume_ok (h : initVolume c s e = .ok s') :
    ∃ zone v, readVolumeHeader c e.mediaSize e.slots = some (zone, v) ∧ v.body.voluId < maxVolumes ∧
      (s.volumes v.body.voluId).id = none ∧ 1 ≤ v.body.version ∧ v.body.version ≤ volVersionWip ∧
      s'.volumes = Function.update s.volumes v.body.voluId
        ⟨some e, some v.body.voluId, v.body.voluLoff v.body.voluId, v.voluSize⟩ ∧
      s'.root = if v.body.voluId = 0 then some (zone, v) else s.root := by
  unfold initVolume at h
  split at h
  · cases h
  · rename_i zone v hread
    split at h
    · cases h
    · rename_i hid
      split at h
      · cases h
      · rename_i hfree
        split at h
        · cases h
        · split at h
          · cases h
          · rename_i hver
            cases h
            exact ⟨zone, v, hread, Nat.lt_of_not_le hid, by simpa using hfree, by omega, by omega,
              rfl, rfl⟩

/-- One device more keeps the invariant. -/
theorem VolInit.Inv.step (h : s.Inv c done) (hok : initVolume c s e = .ok s') :
    s'.Inv c (done ++ [e]) := by
  obtain ⟨zone, v, hread, hlt, hfree, hver, -, hvol, hroot⟩ := initVolume_ok hok
  refine ⟨fun i => ?_, ?_, fun zone' v' hr => ?_⟩
  · rw [hvol]
    by_cases hi : i = v.body.voluId
    · subst hi
      rw [Function.update_self]
      exact .inr ⟨hlt, e, by simp, zone, v, hread, rfl, rfl⟩
    · rw [Function.update_of_ne hi]
      exact (h.slot i).imp_right fun ⟨hm, hf⟩ => ⟨hm, hf.mono (List.subset_append_left _ _)⟩
  · rw [hvol, List.length_append, ← h.count]
    refine (count_update hfree rfl maxVolumes).trans ?_
    rw [if_pos hlt]
    rfl
  · rw [hroot] at hr
    rw [hvol]
    split at hr
    · rename_i h0
      cases hr
      simp [h0, hver]
    · rename_i h0
      rw [Function.update_of_ne (Ne.symm h0)]
      exact h.root zone' v' hr

/-- The run of the loop. -/
theorem VolInit.Inv.run (h : s.Inv c done) (hok : devs.foldlM (initVolume c) s = .ok s') :
    s'.Inv c (done ++ devs) := by
  induction devs generalizing s done with
  | nil =>
    cases hok
    rwa [List.append_nil]
  | cons e devs ih =>
    rw [List.foldlM_cons] at hok
    cases hstep : initVolume c s e with
    | error err =>
      rw [hstep] at hok
      cases hok
    | ok s₁ =>
      rw [hstep] at hok
      have := ih (h.step hstep) hok
      rwa [List.append_assoc, List.singleton_append] at this

/-- The invariant holds before the first device. -/
theorem VolInit.Inv.start : VolInit.Inv c [] ⟨fun _ => .unset, none, none⟩ where
  slot _ := .inl rfl
  count := rfl
  root _ _ h := by cases h

/-! ## The slots that are set come first -/

/-- Where a slot that is set has the slot before it set, the slots set below a bound are an initial
segment. -/
theorem exists_segment {p : Nat → Bool} (hdown : ∀ i, p (i + 1) = true → p i = true) (m : Nat) :
    ∃ n ≤ m, (∀ i < m, p i = true ↔ i < n) ∧ ((List.range m).filter p).length = n := by
  induction m with
  | zero => exact ⟨0, Nat.le_refl 0, by simp, rfl⟩
  | succ m ih =>
    obtain ⟨n, hn, hset, hlen⟩ := ih
    rw [List.range_succ, List.filter_append, List.length_append, hlen]
    cases hp : p m with
    | true =>
      -- All slots below are set too, so the segment had reached `m`.
      have hall : ∀ k, k ≤ m → p (m - k) = true := by
        intro k
        induction k with
        | zero => intro _; exact hp
        | succ k ihk =>
          intro hk
          refine hdown _ ?_
          rw [show m - (k + 1) + 1 = m - k by omega]
          exact ihk (by omega)
      have hnm : n = m := by
        by_contra hne
        have hpn : p n = true := by
          simpa [show m - (m - n) = n by omega] using hall (m - n) (by omega)
        have := (hset n (by omega)).1 hpn
        omega
      subst hnm
      refine ⟨n + 1, Nat.le_refl _, fun i hi => ⟨fun _ => hi, fun _ => ?_⟩, by simp [hp]⟩
      simpa [show n - (n - i) = i by omega] using hall (n - i) (by omega)
    | false =>
      refine ⟨n, by omega, fun i hi => ?_, by simp [hp]⟩
      rcases Nat.lt_or_ge i m with hlt | hge
      · exact hset i hlt
      · obtain rfl : i = m := by omega
        rw [hp]
        simpa using hn

/-! ## What verification establishes -/

open Finset in
/-- The end of the first `n` volumes when they stand one after the other. -/
def volumesEnd (volumes : Nat → VolSlot) (n : Nat) : Nat := ∑ i ∈ range n, (volumes i).size

theorem volumesEnd_succ (volumes : Nat → VolSlot) (n : Nat) :
    volumesEnd volumes (n + 1) = volumesEnd volumes n + (volumes n).size :=
  Finset.sum_range_succ _ _

theorem volumesEnd_mono {m : Nat} (h : m ≤ n) : volumesEnd volumes m ≤ volumesEnd volumes n :=
  Finset.sum_le_sum_of_subset (Finset.range_mono h)

/-- What the checks say of an accepted mount of `n` devices: the first `n` slots are set, and
offsets and total size are the sums of the sizes modulo 2^64. -/
structure Accepted (c : Icrc VolFields) (devs : List DevVp) (r : VolMount) : Prop where
  nvolumes : r.nvolumes = devs.length
  pos : 0 < devs.length
  unset : ∀ i, devs.length ≤ i → r.volumes i = .unset
  slot : ∀ i < devs.length, (r.volumes i).From c devs i
  fits : ∀ i < devs.length, ∃ d, (r.volumes i).dev = some d ∧ (r.volumes i).size ≤ d.mediaSize
  aligned : ∀ i < devs.length, 64 ∣ (r.volumes i).size
  offset : ∀ i < devs.length, (r.volumes i).offset = volumesEnd r.volumes i % 2 ^ 64
  total : r.totalSize = volumesEnd r.volumes devs.length % 2 ^ 64

/-- The sum of the sizes of an initial segment of slots. -/
theorem sumVolumes_eq (hn : n ≤ maxVolumes)
    (hset : ∀ i < maxVolumes, (volumes i).id.isSome ↔ i < n) :
    sumVolumes volumes = volumesEnd volumes n % 2 ^ 64 := by
  have hfold : ∀ m ≤ maxVolumes, (List.range m).foldl (fun total i =>
      if (volumes i).id.isSome then (total + (volumes i).size) % 2 ^ 64 else total) 0 =
        volumesEnd volumes (min m n) % 2 ^ 64 := by
    intro m hm
    induction m with
    | zero => simp [volumesEnd]
    | succ m ih =>
      rw [List.range_succ, List.foldl_append, ih (by omega), List.foldl_cons, List.foldl_nil]
      by_cases hmn : m < n
      · rw [if_pos ((hset m hm).2 hmn), Nat.min_eq_left (by omega), Nat.min_eq_left hmn,
          volumesEnd_succ, Nat.mod_add_mod]
      · rw [if_neg fun hs => hmn ((hset m hm).1 hs), Nat.min_eq_right (by omega),
          Nat.min_eq_right (by omega)]
  have := hfold maxVolumes (Nat.le_refl _)
  rwa [Nat.min_eq_right hn] at this

/-- A slot behind one that is not set is refused: the end of an unset volume is not aligned. -/
theorem verifySlot2_prev (h : verifySlot2 volumes root (i + 1) = true)
    (hprev : volumes i = .unset) : False := by
  simp only [verifySlot2, Nat.add_sub_cancel, hprev, VolSlot.unset, offUnset] at h
  simp only [ne_eq, Nat.succ_ne_zero, not_false_eq_true, if_true, Bool.and_eq_true, beq_iff_eq,
    freemapLevel1Size] at h
  omega

/-- The checks on a slot that is set, as facts. -/
theorem verifySlot2_spec (h : verifySlot2 volumes root i = true) : 64 ∣ (volumes i).size ∧
      (i = 0 → (volumes i).offset = 0) ∧
      (∀ j, i = j + 1 →
        (volumes i).offset = ((volumes j).offset + (volumes j).size) % 2 ^ 64) := by
  simp only [verifySlot2, Bool.and_eq_true, beq_iff_eq] at h
  obtain ⟨⟨-, hoff⟩, hsize⟩ := h
  refine ⟨?_, ?_, ?_⟩
  · rw [show freemapLevel1Size = 64 * 16777216 from rfl,
      show volumeAlign = 64 * 131072 from rfl] at hsize
    split at hsize
    · simp only [Bool.and_eq_true, beq_iff_eq] at hsize
      exact (Nat.dvd_mul_right _ _).trans (Nat.dvd_of_mod_eq_zero hsize.2)
    · simp only [beq_iff_eq] at hsize
      exact (Nat.dvd_mul_right _ _).trans (Nat.dvd_of_mod_eq_zero hsize)
  · rintro rfl
    simpa using hoff
  · rintro j rfl
    simp only [ne_eq, Nat.succ_ne_zero, not_false_eq_true, if_true, Bool.and_eq_true, beq_iff_eq,
      Nat.add_sub_cancel] at hoff
    exact hoff.2

/-- The check of a slot against its device. -/
theorem verifyVolumesCommon_fits {d : DevVp} (h : verifyVolumesCommon volumes root = true)
    (hi : i < maxVolumes) (hset : (volumes i).id.isSome) (hd : (volumes i).dev = some d) :
    (volumes i).size ≤ d.mediaSize := by
  simp only [verifyVolumesCommon, Bool.and_eq_true, List.all_eq_true, List.mem_range] at h
  have hslot := h.2 i hi
  rw [Option.isNone_eq_false_iff.2 hset, Bool.false_or] at hslot
  simp only [Bool.and_eq_true, decide_eq_true_eq, hd, Option.map_some, Option.getD_some] at hslot
  exact hslot.1.2

/-- A slot that is set comes from a device. -/
theorem VolInit.Inv.isSome (h : s.Inv c done) (hset : (s.volumes i).id.isSome) :
    i < maxVolumes ∧ (s.volumes i).From c done i := by
  rcases h.slot i with hu | hf
  · rw [hu] at hset
    cases hset
  · exact hf

/-- A slot that is not set is as it was. -/
theorem VolInit.Inv.unset (h : s.Inv c done) (hset : ¬ (s.volumes i).id.isSome) :
    s.volumes i = .unset := by
  rcases h.slot i with hu | ⟨-, d, -, zone, v, -, -, heq⟩
  · exact hu
  · rw [heq] at hset
    exact absurd rfl hset

/-- The slots set are those below the number of devices: of the versions with multiple volumes
because each needs the one before it. -/
theorem VolInit.Inv.segment2 (h : s.Inv c done) (hv : verifyVolumes2 s.volumes root = true) :
    done.length ≤ maxVolumes ∧ ∀ i < maxVolumes, (s.volumes i).id.isSome ↔ i < done.length := by
  simp only [verifyVolumes2, Bool.and_eq_true, List.all_eq_true, List.mem_range] at hv
  have hdown : ∀ i, (s.volumes (i + 1)).id.isSome = true → (s.volumes i).id.isSome = true := by
    intro i hi
    by_contra hc
    have hslot := hv.2 (i + 1) (h.isSome hi).1
    rw [Option.isNone_eq_false_iff.2 hi, Bool.false_or] at hslot
    exact verifySlot2_prev hslot (h.unset hc)
  obtain ⟨n, hn, hset, hlen⟩ := exists_segment
    (p := fun i => (s.volumes i).id.isSome) hdown maxVolumes
  have hcount : countVolumes s.volumes = n := hlen
  rw [h.count] at hcount
  exact hcount ▸ ⟨hn, hset⟩

/-- Before multiple volumes, the one slot set is the root's. -/
theorem VolInit.Inv.segment1 (h : s.Inv c done) (hv : verifyVolumes1 s.volumes root = true) :
    done.length = 1 ∧ ∀ i < maxVolumes, (s.volumes i).id.isSome ↔ i < 1 := by
  simp only [verifyVolumes1, Bool.and_eq_true, beq_iff_eq] at hv
  obtain ⟨⟨⟨⟨⟨⟨hcount, -⟩, -⟩, -⟩, hid⟩, -⟩, -⟩ := hv
  refine ⟨h.count.symm.trans hcount, fun i hi => ?_⟩
  obtain ⟨a, ha⟩ := List.length_eq_one_iff.1 hcount
  have hmem : ∀ j < maxVolumes, (s.volumes j).id.isSome = true → j = a := by
    intro j hj hset
    have : j ∈ (List.range maxVolumes).filter fun i => (s.volumes i).id.isSome :=
      List.mem_filter.2 ⟨List.mem_range.2 hj, hset⟩
    rw [ha] at this
    exact List.mem_singleton.1 this
  have h0 : 0 = a := hmem 0 (by decide) (by rw [hid]; rfl)
  refine ⟨fun hset => ?_, fun hlt => ?_⟩
  · have := hmem i hi hset
    omega
  · obtain rfl : i = 0 := by omega
    rw [hid]
    rfl

/-- The offsets in a chain of volumes that each start at the end of the one before. -/
theorem offset_eq_volumesEnd (h0 : (volumes 0).offset = 0)
    (hnext : ∀ i, i + 1 < n → (volumes (i + 1)).offset =
    ((volumes i).offset + (volumes i).size) % 2 ^ 64) :
    ∀ i < n, (volumes i).offset = volumesEnd volumes i % 2 ^ 64 := by
  intro i
  induction i with
  | zero =>
    intro _
    simp [h0, volumesEnd]
  | succ i ih =>
    intro hi
    rw [hnext i hi, ih (by omega), volumesEnd_succ, Nat.mod_add_mod]

/-- What an accepted set of devices has passed. -/
theorem initVolumes_ok (h : initVolumes c devs = .ok r) :
    ∃ s : VolInit, s.Inv c devs ∧ s.root = some (r.zone, r.root) ∧ r.volumes = s.volumes ∧
      verifyVolumes s.volumes r.root = true := by
  unfold initVolumes at h
  split at h
  · cases h
  · rename_i s hs
    split at h
    · cases h
    · rename_i zone root hroot
      split at h
      · rename_i hv
        cases h
        exact ⟨s, by simpa using VolInit.Inv.start.run hs, hroot, rfl, hv⟩
      · cases h

/-- The checks of `hammer2_init_volumes`, as one statement for all versions. -/
theorem initVolumes_accepted (h : initVolumes c devs = .ok r) : Accepted c devs r := by
  obtain ⟨s, hinv, hroot, hvol, hv⟩ := initVolumes_ok h
  obtain ⟨hid0, hsize0, -⟩ := hinv.root _ _ hroot
  have hset0 : (s.volumes 0).id.isSome := by rw [hid0]; rfl
  simp only [verifyVolumes, Bool.and_eq_true] at hv
  obtain ⟨hcommon, hver⟩ := hv
  -- What the two versions have in common.
  have hassemble : (∀ i < maxVolumes, (s.volumes i).id.isSome ↔ i < devs.length) →
      devs.length ≤ maxVolumes → r.nvolumes = devs.length →
      (∀ i < devs.length, 64 ∣ (s.volumes i).size) →
      (∀ i < devs.length, (s.volumes i).offset = volumesEnd s.volumes i % 2 ^ 64) →
      r.totalSize = volumesEnd s.volumes devs.length % 2 ^ 64 → Accepted c devs r := by
    intro hset hle hn halign hoff htotal
    have hslot : ∀ i < devs.length, (s.volumes i).From c devs i := fun i hi =>
      (hinv.isSome ((hset i (by omega)).2 hi)).2
    refine ⟨hn, (hset 0 (by decide)).1 hset0, fun i hi => ?_, ?_, fun i hi => ?_, ?_, ?_, ?_⟩
    · rw [hvol]
      refine hinv.unset fun hs => ?_
      have := (hset i (hinv.isSome hs).1).1 hs
      omega
    · rwa [hvol]
    · obtain ⟨d, -, zone, v, -, -, heq⟩ := hslot i hi
      rw [hvol]
      have hdev : (s.volumes i).dev = some d := by rw [heq]
      exact ⟨d, hdev, verifyVolumesCommon_fits hcommon (by omega) ((hset i (by omega)).2 hi) hdev⟩
    · rwa [hvol]
    · rwa [hvol]
    · rwa [hvol]
  by_cases hmulti : volVersionMultiVolumes ≤ r.root.body.version
  · rw [if_pos hmulti] at hver
    obtain ⟨hle, hset⟩ := hinv.segment2 hver
    simp only [verifyVolumes2, Bool.and_eq_true, List.all_eq_true, List.mem_range,
      beq_iff_eq] at hver
    obtain ⟨⟨⟨hn, htotal⟩, -⟩, hslots⟩ := hver
    have hspec : ∀ i < devs.length, _ := fun i hi => by
      have hslot := hslots i (by omega)
      rw [Option.isNone_eq_false_iff.2 ((hset i (by omega)).2 hi), Bool.false_or] at hslot
      exact verifySlot2_spec hslot
    have hpos := (hset 0 (by decide)).1 hset0
    refine hassemble hset hle ?_ (fun i hi => (hspec i hi).1) ?_ ?_
    · rw [VolMount.nvolumes, if_pos hmulti, hn, hinv.count]
    · exact offset_eq_volumesEnd ((hspec 0 hpos).2.1 rfl) fun i hi => (hspec (i + 1) hi).2.2 i rfl
    · rw [VolMount.totalSize, if_pos hmulti, htotal, sumVolumes_eq hle hset]
  · rw [if_neg hmulti] at hver
    obtain ⟨hlen, hset⟩ := hinv.segment1 hver
    simp only [verifyVolumes1, Bool.and_eq_true, beq_iff_eq] at hver
    obtain ⟨⟨-, hoff⟩, halign⟩ := hver
    have hend : volumesEnd s.volumes 1 = (s.volumes 0).size := by
      rw [volumesEnd_succ]
      exact Nat.zero_add _
    refine hassemble (hlen ▸ hset) (by rw [hlen]; decide) ?_ ?_ ?_ ?_
    · rw [VolMount.nvolumes, if_neg hmulti, hlen]
    · intro i hi
      obtain rfl : i = 0 := by omega
      rw [show volumeAlign = 64 * 131072 from rfl] at halign
      exact (Nat.dvd_mul_right _ _).trans (Nat.dvd_of_mod_eq_zero halign)
    · exact offset_eq_volumesEnd hoff fun i hi => by omega
    · obtain ⟨hm, d, -, zone, v, -, -, heq⟩ := hinv.isSome hset0
      have hfit := verifyVolumesCommon_fits hcommon hm hset0 (d := d) (by rw [heq])
      have := d.media_lt
      rw [VolMount.totalSize, if_neg hmulti, hlen, hend, ← hsize0, Nat.mod_eq_of_lt (by omega)]

/-! ## Tiling -/

/-- The volumes of a mount tile the address space: their ids are 0 up to their number, their ranges
start at 0, are disjoint and contiguous and end at the total size, which is a 64-bit number; each
fits its device, and `hammer2_get_volume` finds the one that has an offset. -/
structure Tiles (devs : List DevVp) (r : VolMount) : Prop where
  count : r.nvolumes = devs.length
  ids : ∀ i < maxVolumes, (r.volumes i).id = if i < r.nvolumes then some i else none
  first : (r.volumes 0).offset = 0
  next : ∀ i, i + 1 < r.nvolumes →
    (r.volumes (i + 1)).offset = (r.volumes i).offset + (r.volumes i).size
  disjoint : ∀ i j, i < j → j < r.nvolumes →
    (r.volumes i).offset + (r.volumes i).size ≤ (r.volumes j).offset
  last : ∀ i, i + 1 = r.nvolumes → (r.volumes i).offset + (r.volumes i).size = r.totalSize
  total : r.totalSize < 2 ^ 64
  fits : ∀ i < r.nvolumes, ∃ d ∈ devs, (r.volumes i).dev = some d ∧ (r.volumes i).size ≤ d.mediaSize
  get : ∀ off < r.totalSize, ∃ i < r.nvolumes, getVolume r.volumes r.nvolumes off = some i ∧
    (r.volumes i).offset ≤ off ∧ off < (r.volumes i).offset + (r.volumes i).size

/-- An offset below the end lies in one of the volumes. -/
theorem exists_volume (h : off < volumesEnd volumes n) :
    ∃ i < n, volumesEnd volumes i ≤ off ∧ off < volumesEnd volumes (i + 1) := by
  induction n with
  | zero => exact absurd h (Nat.not_lt_zero off)
  | succ n ih =>
    rcases Nat.lt_or_ge off (volumesEnd volumes n) with hlt | hge
    · obtain ⟨i, hi, hin⟩ := ih hlt
      exact ⟨i, by omega, hin⟩
    · exact ⟨n, Nat.lt_succ_self n, hge, h⟩

theorem volumesEnd_dvd (h : ∀ i < n, 64 ∣ (volumes i).size) : 64 ∣ volumesEnd volumes n :=
  Finset.dvd_sum fun i hi => h i (Finset.mem_range.1 hi)

/-- `hammer2_get_volume` over volumes that stand one after the other below 2^64. -/
theorem getVolume_spec (halign : ∀ i < n, 64 ∣ (volumes i).size)
    (hoff : ∀ i < n, (volumes i).offset = volumesEnd volumes i)
    (hend : volumesEnd volumes n < 2 ^ 64) (h : off < volumesEnd volumes n) :
    ∃ i < n, getVolume volumes n off = some i ∧ (volumes i).offset ≤ off ∧
      off < (volumes i).offset + (volumes i).size := by
  -- The mask drops low bits only, and every range starts and ends on a multiple of 64.
  have hin : ∀ i < n, (decide ((volumes i).offset ≤ rounddown2 off 64 ∧
      rounddown2 off 64 < ((volumes i).offset + (volumes i).size) % 2 ^ 64) = true ↔
        volumesEnd volumes i ≤ off ∧ off < volumesEnd volumes (i + 1)) := by
    intro i hi
    have hle : volumesEnd volumes (i + 1) ≤ volumesEnd volumes n := volumesEnd_mono hi
    have hb : 64 ∣ volumesEnd volumes i := volumesEnd_dvd fun j hj => halign j (by omega)
    have he : 64 ∣ volumesEnd volumes (i + 1) := volumesEnd_dvd fun j hj => halign j (by omega)
    rw [hoff i hi, ← volumesEnd_succ, Nat.mod_eq_of_lt (by omega), decide_eq_true_eq]
    unfold rounddown2
    omega
  obtain ⟨i₀, hi₀, hin₀⟩ := exists_volume h
  obtain ⟨i, hi⟩ : ∃ i, getVolume volumes n off = some i := by
    refine Option.isSome_iff_exists.1 ?_
    unfold getVolume
    exact List.find?_isSome.2 ⟨i₀, List.mem_range.2 hi₀, (hin i₀ hi₀).2 hin₀⟩
  have hlt : i < n := List.mem_range.1 (List.mem_of_find?_eq_some hi)
  have hfound := List.find?_some hi
  have hrange := (hin i hlt).1 hfound
  refine ⟨i, hlt, hi, ?_⟩
  rwa [hoff i hlt, ← volumesEnd_succ]

/-- Below 2^64 the offsets are the ends of the volumes before. -/
theorem Accepted.tiles (h : Accepted c devs r) (hend : volumesEnd r.volumes devs.length < 2 ^ 64) :
    Tiles devs r := by
  have hoff : ∀ i < devs.length, (r.volumes i).offset = volumesEnd r.volumes i := by
    intro i hi
    have hle : volumesEnd r.volumes i ≤ volumesEnd r.volumes devs.length :=
      volumesEnd_mono (Nat.le_of_lt hi)
    rw [h.offset i hi, Nat.mod_eq_of_lt (by omega)]
  have htotal : r.totalSize = volumesEnd r.volumes devs.length := by
    rw [h.total, Nat.mod_eq_of_lt hend]
  have hn := h.nvolumes
  refine ⟨hn, fun i _ => ?_, ?_, fun i hi => ?_, fun i j hij hj => ?_, fun i hi => ?_, ?_,
    fun i hi => ?_, fun off hlt => ?_⟩
  · split
    · obtain ⟨d, -, zone, v, -, -, heq⟩ := h.slot i (by omega)
      rw [heq]
    · rw [h.unset i (by omega)]
      rfl
  · rw [hoff 0 h.pos]
    rfl
  · rw [hoff _ (by omega), hoff _ (by omega), volumesEnd_succ]
  · rw [hoff _ (by omega), hoff _ (by omega), ← volumesEnd_succ]
    exact volumesEnd_mono hij
  · rw [hoff _ (by omega), ← volumesEnd_succ, hi, hn, htotal]
  · omega
  · obtain ⟨d, hd, zone, v, -, -, heq⟩ := h.slot i (by omega)
    obtain ⟨d', hd', hfit⟩ := h.fits i (by omega)
    have hdev : (r.volumes i).dev = some d := by rw [heq]
    obtain rfl : d = d' := Option.some.inj (hdev.symm.trans hd')
    exact ⟨d, hd, hdev, hfit⟩
  · rw [hn]
    exact getVolume_spec h.aligned hoff hend (htotal ▸ hlt)

/-- Volumes that tile the address space add up to its size. -/
theorem Tiles.volumesEnd_lt (h : Tiles devs r) (hpos : 0 < r.nvolumes) :
    volumesEnd r.volumes r.nvolumes < 2 ^ 64 := by
  have hoff : ∀ i < r.nvolumes, (r.volumes i).offset = volumesEnd r.volumes i := by
    intro i
    induction i with
    | zero => exact fun _ => h.first
    | succ i ih =>
      intro hi
      rw [h.next i hi, ih (by omega), volumesEnd_succ]
  obtain ⟨m, hm⟩ : ∃ m, r.nvolumes = m + 1 := ⟨r.nvolumes - 1, by omega⟩
  have := h.last m hm.symm
  rw [hoff m (by omega), ← volumesEnd_succ, ← hm] at this
  rw [this]
  exact h.total

end

/-- **Accepted volumes tile the address space exactly if their sizes add up below 2^64**, whatever
the devices and their headers hold. -/
theorem initVolumes_tiles_iff (c : Icrc VolFields) (devs : List DevVp) (r : VolMount)
    (h : initVolumes c devs = .ok r) :
    Tiles devs r ↔ volumesEnd r.volumes r.nvolumes < 2 ^ 64 := by
  have ha := initVolumes_accepted h
  refine ⟨fun ht => ht.volumesEnd_lt (ha.nvolumes ▸ ha.pos), fun hend => ha.tiles ?_⟩
  rwa [ha.nvolumes] at hend

/-- Check codes that are all 0. -/
def zeroIcrc : Icrc VolFields := ⟨fun _ => 0, fun _ _ _ => 0, fun _ _ _ _ => 0⟩

/-- The header of volume `id` of `n` volumes of one size. -/
def evenHeader (n size id : Nat) : VolumeData VolFields where
  mirrorTid := 1
  freemapTid := 1
  voluSize := size
  body :=
    { voluId := id
      version := 2
      nvolumes := n
      totalSize := n * size % 2 ^ 64
      voluLoff := fun i => if i < n then i * size % 2 ^ 64 else offUnset
      allocatorSize := 0
      allocatorFree := 0
      fsid := 7
      fstype := fstypeUuid }

/-- `n` devices of one size with a header in their first slot. -/
def evenDevs (n size : Nat) (h : size < 2 ^ 63) : List DevVp :=
  (List.range n).map fun id =>
    { mediaSize := size
      slots := fun i =>
        if i = 0 then zeroIcrc.image (evenHeader n size id)
        else { zeroIcrc.image (evenHeader n size id) with magic := 0 }
      media_lt := h }

/-- The end of the volumes of a mount that is accepted. -/
def acceptedEnd (devs : List DevVp) : Option Nat :=
  (initVolumes zeroIcrc devs).toOption.map fun r => volumesEnd r.volumes r.nvolumes

/-- The check of the example accepts what the code accepts. -/
theorem acceptedEnd_some (devs : List DevVp) {e : Nat} (h : acceptedEnd devs = some e) :
    ∃ r, initVolumes zeroIcrc devs = .ok r ∧ volumesEnd r.volumes r.nvolumes = e := by
  unfold acceptedEnd at h
  cases hr : initVolumes zeroIcrc devs with
  | error err =>
    rw [hr] at h
    cases h
  | ok r =>
    rw [hr] at h
    exact ⟨r, rfl, Option.some.inj h⟩

set_option maxRecDepth 4000 in
/-- Two devices of 1GB are accepted, and tile 2GB. -/
theorem initVolumes_tiles_two : ∃ r, initVolumes zeroIcrc
    (evenDevs 2 1073741824 (by decide)) = .ok r ∧
    Tiles (evenDevs 2 1073741824 (by decide)) r := by
  obtain ⟨r, hr, hend⟩ : ∃ r, _ ∧ _ = 2147483648 :=
    acceptedEnd_some (evenDevs 2 1073741824 (by decide)) (by decide)
  exact ⟨r, hr, (initVolumes_tiles_iff zeroIcrc _ r hr).2 (by omega)⟩

set_option maxRecDepth 4000 in
/-- Three devices of 2^63 - 2^30 bytes are accepted, but the third volume ends past 2^64. -/
theorem initVolumes_wraps :
    ∃ r, initVolumes zeroIcrc (evenDevs 3 (2 ^ 63 - 2 ^ 30) (by decide)) = .ok r ∧
      ¬ Tiles (evenDevs 3 (2 ^ 63 - 2 ^ 30) (by decide)) r := by
  obtain ⟨r, hr, hend⟩ : ∃ r, _ ∧ _ = 3 * (2 ^ 63 - 2 ^ 30) :=
    acceptedEnd_some (evenDevs 3 (2 ^ 63 - 2 ^ 30) (by decide)) (by decide)
  refine ⟨r, hr, fun h => ?_⟩
  have ha := initVolumes_accepted hr
  have := h.volumesEnd_lt (ha.nvolumes ▸ ha.pos)
  omega

end Hammer2
