import Hammer2.Flush.Volume

/-!
# The flush that writes the volume header

`xopInodeFlush` is `hammer2_xop_inode_flush`: it flushes the inode's chain, the super-root, the free
block table and the topology, writes back the buffers of every device, and then writes the header.
The outcome of every operation it calls is part of its input (`XopFlush`); it returns the operations
in the order it issued them (`FlushEvent`), so that what happened before the header write can be
read off.

Reference: `hammer2_flush.c:1135-1380`.
-/

namespace Hammer2

/-- The inode's chain in the cluster: whether it is flagged for a flush, the result of its flush,
and whether it is the root of a PFS. -/
structure InodeChain where
  flagged : Bool
  flushError : Nat
  pfsBoundary : Bool
  deriving DecidableEq, Repr

/-- The flush of one of the two roots: whether it is flagged, whether the flush of its children
modifies it and reaches it, and the result. -/
structure RootFlush where
  flagged : Bool
  modifies : Bool
  reached : Bool
  error : Nat
  deriving DecidableEq, Repr

/-- The outcome of the header write: the page could not be had, or it was written with a result. -/
inductive HeaderIo
  | noFolio (error : Nat)
  | written (error : Nat)
  deriving DecidableEq, Repr

/-- A call and the outcome of each operation it may issue. `root` is `hmp->bdev_file`. -/
structure XopFlush where
  volhdr : Bool
  inode : Option InodeChain
  replicated : Bool
  spmpFlush : Option Nat
  freemap : RootFlush
  topology : RootFlush
  devs : List Nat
  root : Nat
  writeback : Nat → Nat
  cacheFlush : Nat → Nat
  deviceError : Bool
  headerIo : HeaderIo

/-- The operations a call issues. -/
inductive FlushEvent
  | flush (error : Nat)
  | writeback (dev error : Nat)
  | cacheFlush (dev error : Nat)
  | headerWrite (slot error : Nat)
  deriving DecidableEq, Repr

/-- What a call did: the header state it left, its operations in order, and `flush_error` and
`fsync_error` as it returns them. -/
structure FlushRun (β : Type*) where
  dev : VolDev β
  events : List FlushEvent
  flushError : Nat
  fsyncError : Nat

section
variable {β : Type*}

/-- The flush of `fchain`, when it is flagged. -/
def XopFlush.flushFchain (x : XopFlush) (d : VolDev β) : VolDev β × Option Nat :=
  if x.freemap.flagged || d.fchainModified then
    let d := d.voldataModify
    let d := if x.freemap.modifies then d.fchainModify else d
    (if x.freemap.reached then d.flushFreemap else d, some x.freemap.error)
  else (d, none)

/-- The flush of `vchain`, when it is flagged. -/
def XopFlush.flushVchain (x : XopFlush) (d : VolDev β) : VolDev β × Option Nat :=
  if x.topology.flagged || d.vchainModified then
    let d := if x.topology.modifies then d.vchainModify else d
    (if x.topology.reached then d.flushVolume else d, some x.topology.error)
  else (d, none)

/-- The flush of the inode's own chain. Its result is not kept. -/
def XopFlush.inodeFlush (x : XopFlush) : Option Nat :=
  match x.inode with
  | some c => if c.flagged then some c.flushError else none
  | none => none

/-- `ispfsroot`. -/
def XopFlush.ispfsroot (x : XopFlush) : Bool :=
  match x.inode with
  | some c => c.pfsBoundary
  | none => false

/-- The result of an optional flush, in the error word. -/
def flushResult (r : Option Nat) : Nat := r.getD 0

/-- `flush_error` after the flushes of the three roots. -/
def XopFlush.flushError (x : XopFlush) (d : VolDev β) : Nat :=
  let f := x.flushFchain d
  flushResult x.spmpFlush ||| flushResult f.2 ||| flushResult (x.flushVchain f.1).2

/-- The header state after the flushes. -/
def XopFlush.flushedDev (x : XopFlush) (d : VolDev β) : VolDev β :=
  (x.flushVchain (x.flushFchain d).1).1

/-- `fsync_error` after the loop over the devices: the result of the last one. -/
def XopFlush.fsyncError (x : XopFlush) : Nat :=
  x.devs.foldl (fun _ dev => x.writeback dev) 0

/-- The call gets as far as the volume roots. -/
def XopFlush.reachesRoots (x : XopFlush) : Bool := x.volhdr && x.ispfsroot && !x.replicated

/-- The test before the header write. -/
def XopFlush.writesHeader (x : XopFlush) (d : VolDev β) : Bool :=
  x.fsyncError == 0 && x.flushError d == 0 && !x.deviceError && (x.flushedDev d).volumesync

/-- The header write: the cache of the root device is flushed, the flag is cleared, and the slot
becomes the current one whatever comes of the write. -/
def XopFlush.headerSync (x : XopFlush) (d : VolDev β) : VolDev β × List FlushEvent × Nat :=
  let j := d.nextVolhdr
  let e := x.cacheFlush x.root
  let d' := { d with volumesync := false, volhdrno := j }
  match x.headerIo with
  | .noFolio err => (d', [.cacheFlush x.root e], if err ≠ 0 then err else e)
  | .written err =>
    (d', [.cacheFlush x.root e, .headerWrite j err], if err ≠ 0 then err else e)

/-- The event of an optional flush. -/
def flushEvents (r : Option Nat) : List FlushEvent := (r.map FlushEvent.flush).toList

/-- The operations up to the test before the header write. -/
def XopFlush.syncEvents (x : XopFlush) (d : VolDev β) : List FlushEvent :=
  let f := x.flushFchain d
  flushEvents x.inodeFlush ++ flushEvents x.spmpFlush ++ flushEvents f.2 ++
    flushEvents (x.flushVchain f.1).2 ++ x.devs.map fun dev => .writeback dev (x.writeback dev)

/-- `hammer2_xop_inode_flush`. -/
def xopInodeFlush (x : XopFlush) (d : VolDev β) : FlushRun β :=
  if x.reachesRoots then
    if x.writesHeader d then
      let (d', evs, err) := x.headerSync (x.flushedDev d)
      { dev := d', events := x.syncEvents d ++ evs, flushError := x.flushError d
        fsyncError := err }
    else
      { dev := x.flushedDev d, events := x.syncEvents d, flushError := x.flushError d
        fsyncError := x.fsyncError }
  else { dev := d, events := flushEvents x.inodeFlush, flushError := 0, fsyncError := 0 }

/-! ## What a header write needs -/

/-- A header is written only after every flush of the call succeeded, every device was written back
and the write cache of every device was flushed. -/
def XopFlush.HeaderDurable (x : XopFlush) (d : VolDev β) : Prop :=
  ∀ pre post slot e, (xopInodeFlush x d).events = pre ++ .headerWrite slot e :: post →
    (∀ err, .flush err ∈ (xopInodeFlush x d).events → err = 0) ∧
    (∀ dev ∈ x.devs, .writeback dev 0 ∈ pre) ∧ (∀ dev ∈ x.devs, .cacheFlush dev 0 ∈ pre)

/-- The header is to be written: the flag stands when the call decides about the write. -/
def XopFlush.pending (x : XopFlush) (d : VolDev β) : Bool :=
  if x.reachesRoots then (x.flushedDev d).volumesync else d.volumesync

/-- A header that was to be written and was not, or whose write failed, stays flagged. -/
def XopFlush.Retried (x : XopFlush) (d : VolDev β) : Prop :=
  x.pending d = true → (∀ slot, .headerWrite slot 0 ∉ (xopInodeFlush x d).events) →
    (xopInodeFlush x d).dev.volumesync = true

/-! ## The outcomes that decide -/

/-- The result of the last writeback. -/
def XopFlush.lastWriteback (x : XopFlush) : Nat := (x.devs.getLast?.map x.writeback).getD 0

/-- The flush of `fchain` is made. -/
def XopFlush.freemapDue (x : XopFlush) (d : VolDev β) : Bool :=
    x.freemap.flagged || d.fchainModified

/-- The volume data are modified, by the flush of `fchain` at the latest. -/
def XopFlush.voldataDirty (x : XopFlush) (d : VolDev β) : Bool := d.vchainModified || x.freemapDue d

/-- The flush of `vchain` is made. -/
def XopFlush.topologyDue (x : XopFlush) (d : VolDev β) : Bool :=
  x.topology.flagged || x.voldataDirty d

/-- The results of the flushes of the roots that are made. -/
def XopFlush.rootsWord (x : XopFlush) (d : VolDev β) : Nat :=
  flushResult x.spmpFlush ||| (if x.freemapDue d then x.freemap.error else 0) |||
    (if x.topologyDue d then x.topology.error else 0)

/-- There is a header to write: one is left from before, or the flush of `vchain` has come to it. -/
def XopFlush.headerDue (x : XopFlush) (d : VolDev β) : Bool :=
  d.volumesync ||
    (x.topologyDue d && x.topology.reached && (x.topology.modifies || x.voldataDirty d))

/-- The condition: when the last writeback and the flushes of the roots have succeeded, the device
has no error and there is a header to write, then the flush of the inode and every writeback
succeeded, the root device is the only one and its cache flush succeeds, and so does the write. -/
def XopFlush.HeaderOk (x : XopFlush) (d : VolDev β) : Prop :=
  x.reachesRoots = true → x.lastWriteback = 0 → x.rootsWord d = 0 → x.deviceError = false →
    x.headerDue d = true →
    flushResult x.inodeFlush = 0 ∧ (∀ dev ∈ x.devs, x.writeback dev = 0) ∧
    (∀ dev ∈ x.devs, dev = x.root) ∧ (x.devs ≠ [] → x.cacheFlush x.root = 0) ∧
    x.headerIo = .written 0

variable {x : XopFlush} {d : VolDev β}

/-- The loop over the devices keeps the last result. -/
theorem fsyncError_eq (x : XopFlush) : x.fsyncError = x.lastWriteback := by
  unfold XopFlush.fsyncError XopFlush.lastWriteback
  induction x.devs using List.reverseRecOn with
  | nil => rfl
  | append_singleton l dev _ => simp

/-- The flush of `fchain` is made when it is due, and modifies the volume data first. -/
theorem flushFchain_eq (x : XopFlush) (d : VolDev β) :
    (x.flushFchain d).2 = (if x.freemapDue d then some x.freemap.error else none) ∧
      (x.flushFchain d).1.vchainModified = x.voldataDirty d ∧
      (x.flushFchain d).1.volumesync = d.volumesync := by
  unfold XopFlush.flushFchain XopFlush.voldataDirty XopFlush.freemapDue
  cases hdue : x.freemap.flagged || d.fchainModified with
  | false => simp
  | true =>
    cases hv : d.vchainModified <;> cases x.freemap.modifies <;> cases x.freemap.reached <;>
      cases hf : d.fchainModified <;>
      simp [VolDev.voldataModify, VolDev.fchainModify, VolDev.flushFreemap, hv, hf]

/-- The error word is that of the flushes that are due. -/
theorem flushError_eq (x : XopFlush) (d : VolDev β) : x.flushError d = x.rootsWord d := by
  obtain ⟨hf, hv, -⟩ := flushFchain_eq x d
  have hr : ∀ (b : Bool) (e : Nat),
      flushResult (if b then some e else none) = if b then e else 0 := by
    intro b e
    cases b <;> rfl
  have ht : (x.flushVchain (x.flushFchain d).1).2 =
      if x.topologyDue d then some x.topology.error else none := by
    unfold XopFlush.flushVchain XopFlush.topologyDue
    rw [hv]
    split <;> rfl
  rw [XopFlush.flushError, XopFlush.rootsWord, hf, ht, hr, hr]

/-- The flag stands when a header is due. -/
theorem volumesync_flushedDev (x : XopFlush) (d : VolDev β) :
    (x.flushedDev d).volumesync = x.headerDue d := by
  obtain ⟨-, hv, hs⟩ := flushFchain_eq x d
  unfold XopFlush.flushedDev XopFlush.headerDue XopFlush.topologyDue XopFlush.flushVchain
  rw [← hv, ← hs]
  generalize (x.flushFchain d).1 = e
  cases hdue : x.topology.flagged || e.vchainModified with
  | false => simp
  | true =>
    cases hv : e.vchainModified <;> cases x.topology.modifies <;> cases x.topology.reached <;>
      simp [VolDev.vchainModify, VolDev.flushVolume, hv]

/-- The test before the header write, on the outcomes. -/
theorem writesHeader_iff : x.writesHeader d = true ↔ x.lastWriteback = 0 ∧ x.rootsWord d = 0 ∧
    x.deviceError = false ∧ x.headerDue d = true := by
  rw [XopFlush.writesHeader, fsyncError_eq, flushError_eq, volumesync_flushedDev]
  simp only [Bool.and_eq_true, beq_iff_eq, Bool.not_eq_true', and_assoc]

/-! ## The operations before the header write -/

/-- The event of a flush that is made. -/
theorem mem_flushEvents {r : Option Nat} {ev : FlushEvent} :
    ev ∈ flushEvents r ↔ ∃ e, r = some e ∧ ev = .flush e := by
  cases r with
  | none => simp [flushEvents]
  | some e => simp [flushEvents]

theorem mem_syncEvents {ev : FlushEvent} : ev ∈ x.syncEvents d ↔
    (∃ e, (x.inodeFlush = some e ∨ x.spmpFlush = some e ∨ (x.flushFchain d).2 = some e ∨
      (x.flushVchain (x.flushFchain d).1).2 = some e) ∧ ev = .flush e) ∨
    ∃ dev ∈ x.devs, ev = .writeback dev (x.writeback dev) := by
  simp only [XopFlush.syncEvents, List.mem_append, mem_flushEvents, List.mem_map]
  constructor
  · rintro ((((⟨e, h, rfl⟩ | ⟨e, h, rfl⟩) | ⟨e, h, rfl⟩) | ⟨e, h, rfl⟩) | ⟨dev, h, rfl⟩)
    · exact Or.inl ⟨e, Or.inl h, rfl⟩
    · exact Or.inl ⟨e, Or.inr (Or.inl h), rfl⟩
    · exact Or.inl ⟨e, Or.inr (Or.inr (Or.inl h)), rfl⟩
    · exact Or.inl ⟨e, Or.inr (Or.inr (Or.inr h)), rfl⟩
    · exact Or.inr ⟨dev, h, rfl⟩
  · rintro (⟨e, h | h | h | h, rfl⟩ | ⟨dev, h, rfl⟩)
    · exact Or.inl (Or.inl (Or.inl (Or.inl ⟨e, h, rfl⟩)))
    · exact Or.inl (Or.inl (Or.inl (Or.inr ⟨e, h, rfl⟩)))
    · exact Or.inl (Or.inl (Or.inr ⟨e, h, rfl⟩))
    · exact Or.inl (Or.inr ⟨e, h, rfl⟩)
    · exact Or.inr ⟨dev, h, rfl⟩

/-- The sync of the chains writes no header. -/
theorem headerWrite_notMem_syncEvents {slot e : Nat} : .headerWrite slot e ∉ x.syncEvents d := by
  rw [mem_syncEvents]
  rintro (⟨e, -, h⟩ | ⟨dev, -, h⟩) <;> cases h

/-- The flushes before the header are those of the four chains. -/
theorem flush_mem_syncEvents {e : Nat} : .flush e ∈ x.syncEvents d ↔
    x.inodeFlush = some e ∨ x.spmpFlush = some e ∨ (x.flushFchain d).2 = some e ∨
      (x.flushVchain (x.flushFchain d).1).2 = some e := by
  rw [mem_syncEvents]
  constructor
  · rintro (⟨e', h, he⟩ | ⟨dev, -, h⟩)
    · cases he; exact h
    · cases h
  · exact fun h => Or.inl ⟨e, h, rfl⟩

/-- All devices are written back before the header. -/
theorem writeback_mem_syncEvents {dev e : Nat} :
    .writeback dev e ∈ x.syncEvents d ↔ dev ∈ x.devs ∧ e = x.writeback dev := by
  rw [mem_syncEvents]
  constructor
  · rintro (⟨e', -, h⟩ | ⟨dev', h, he⟩)
    · cases h
    · cases he; exact ⟨h, rfl⟩
  · rintro ⟨h, rfl⟩
    exact Or.inr ⟨dev, h, rfl⟩

/-- The sync of the chains flushes no cache. -/
theorem cacheFlush_notMem_syncEvents {dev e : Nat} : .cacheFlush dev e ∉ x.syncEvents d := by
  rw [mem_syncEvents]
  rintro (⟨e, -, h⟩ | ⟨dev, -, h⟩) <;> cases h

/-- A clear error word means that the flushes of the roots succeeded. -/
theorem flushError_eq_zero_iff : x.flushError d = 0 ↔ flushResult x.spmpFlush = 0 ∧
    flushResult (x.flushFchain d).2 = 0 ∧
    flushResult (x.flushVchain (x.flushFchain d).1).2 = 0 := by
  simp only [XopFlush.flushError, Nat.or_eq_zero_iff, and_assoc]

/-- The events of a call that writes its header to slot `j` with result `err`. -/
theorem events_written {err : Nat} (hr : x.reachesRoots = true) (hw : x.writesHeader d = true)
    (hio : x.headerIo = .written err) :
    (xopInodeFlush x d).events = (x.syncEvents d ++ [.cacheFlush x.root (x.cacheFlush x.root)]) ++
      [.headerWrite (x.flushedDev d).nextVolhdr err] := by
  simp only [xopInodeFlush, hr, hw, if_true, XopFlush.headerSync, hio, List.append_assoc]
  rfl

/-- Going on to the header write clears the flag. -/
theorem volumesync_headerSync (hr : x.reachesRoots = true) (hw : x.writesHeader d = true) :
    (xopInodeFlush x d).dev.volumesync = false := by
  simp only [xopInodeFlush, hr, hw, if_true, XopFlush.headerSync]
  cases x.headerIo <;> rfl

/-- A header write is the last operation of a call that passed the test. -/
theorem headerWrite_mem {slot e : Nat} (h : .headerWrite slot e ∈ (xopInodeFlush x d).events) :
    x.reachesRoots = true ∧ x.writesHeader d = true ∧ x.headerIo = .written e := by
  by_cases hr : x.reachesRoots = true
  · by_cases hw : x.writesHeader d = true
    · cases hio : x.headerIo with
      | noFolio err =>
        simp only [xopInodeFlush, hr, hw, if_true, XopFlush.headerSync, hio, List.mem_append,
          List.mem_singleton] at h
        rcases h with h | h
        · exact absurd h headerWrite_notMem_syncEvents
        · cases h
      | written err =>
        rw [events_written hr hw hio] at h
        simp only [List.mem_append, List.mem_singleton] at h
        rcases h with (h | h) | h
        · exact absurd h headerWrite_notMem_syncEvents
        · cases h
        · cases h; exact ⟨hr, hw, rfl⟩
    · simp only [xopInodeFlush, hr, if_true, hw] at h
      exact absurd h headerWrite_notMem_syncEvents
  · simp only [xopInodeFlush, hr] at h
    obtain ⟨e, -, he⟩ := mem_flushEvents.1 h
    cases he

/-- The flag is kept when the call does not go on to the header write. -/
theorem volumesync_kept (h : ¬ (x.reachesRoots = true ∧ x.writesHeader d = true)) :
    (xopInodeFlush x d).dev.volumesync = x.pending d := by
  unfold xopInodeFlush XopFlush.pending
  by_cases hr : x.reachesRoots = true
  · have hw : ¬ x.writesHeader d = true := fun hw => h ⟨hr, hw⟩
    rw [if_pos hr, if_pos hr, if_neg hw]
  · rw [if_neg hr, if_neg hr]

/-- The condition makes the header durable. -/
theorem XopFlush.HeaderOk.durable (h : x.HeaderOk d) : x.HeaderDurable d := by
  intro pre post slot e hev
  have hmem : .headerWrite slot e ∈ (xopInodeFlush x d).events := by
    rw [hev]; exact List.mem_append_right _ List.mem_cons_self
  obtain ⟨hr, hw, hio⟩ := headerWrite_mem hmem
  obtain ⟨hlast, hword, hdev, hdue⟩ := writesHeader_iff.1 hw
  obtain ⟨hino, hwb, hroot, hcf, -⟩ := h hr hlast hword hdev hdue
  have hev' := events_written hr hw hio
  have hnot : ∀ slot' e', .headerWrite slot' e' ∉
      x.syncEvents d ++ [.cacheFlush x.root (x.cacheFlush x.root)] := by
    intro slot' e' h
    rcases List.mem_append.1 h with h | h
    · exact headerWrite_notMem_syncEvents h
    · cases List.mem_singleton.1 h
  rw [hev'] at hev
  obtain ⟨hpre, -, -⟩ := (List.append_cons_inj_of_notMem (hnot _ _) List.not_mem_nil).1 hev
  subst hpre
  refine ⟨fun err herr => ?_, fun dev hdev => ?_, fun dev hdev => ?_⟩
  · rw [hev'] at herr
    simp only [List.mem_append, List.mem_singleton, reduceCtorEq, or_false] at herr
    have hfe : x.flushError d = 0 := by rw [flushError_eq, hword]
    obtain ⟨h1, h2, h3⟩ := flushError_eq_zero_iff.1 hfe
    rcases flush_mem_syncEvents.1 herr with he | he | he | he
    · rw [he] at hino; exact hino
    · rw [he] at h1; exact h1
    · rw [he] at h2; exact h2
    · rw [he] at h3; exact h3
  · exact List.mem_append_left _ (writeback_mem_syncEvents.2 ⟨hdev, (hwb dev hdev).symm⟩)
  · have hc := hcf (List.ne_nil_of_mem hdev)
    rw [hroot dev hdev]
    exact List.mem_append_right _ (List.mem_singleton.2 (by rw [hc]))

/-- It also leaves no header behind. -/
theorem XopFlush.HeaderOk.retried (h : x.HeaderOk d) : x.Retried d := by
  intro hp hno
  by_cases hw : x.reachesRoots = true ∧ x.writesHeader d = true
  · obtain ⟨hlast, hword, hdev, hdue⟩ := writesHeader_iff.1 hw.2
    obtain ⟨-, -, -, -, hio⟩ := h hw.1 hlast hword hdev hdue
    refine absurd ?_ (hno (x.flushedDev d).nextVolhdr)
    rw [events_written hw.1 hw.2 hio]
    exact List.mem_append_right _ List.mem_cons_self
  · rw [volumesync_kept hw]; exact hp

/-- A call that goes on to the header write and keeps both promises meets the condition. -/
theorem XopFlush.HeaderOk.of_durable (hdur : x.HeaderDurable d) (hret : x.Retried d) :
    x.HeaderOk d := by
  intro hr hlast hword hdev hdue
  have hw : x.writesHeader d = true := writesHeader_iff.2 ⟨hlast, hword, hdev, hdue⟩
  have hpend : x.pending d = true := by
    rw [XopFlush.pending, if_pos hr, volumesync_flushedDev]
    exact hdue
  -- The flag is gone, so the header must have been written.
  have hio : x.headerIo = .written 0 := by
    by_contra hne
    have := hret hpend fun slot hmem => hne (headerWrite_mem hmem).2.2
    rw [volumesync_headerSync hr hw] at this
    cases this
  have hev := events_written hr hw hio
  obtain ⟨hfl, hwb, hcf⟩ := hdur _ _ _ _ hev
  refine ⟨?_, fun dev hdev => ?_, fun dev hdev => ?_, fun hne => ?_, hio⟩
  · cases hi : x.inodeFlush with
    | none => rfl
    | some e =>
      refine hfl e ?_
      rw [hev]
      exact List.mem_append_left _ (List.mem_append_left _ (flush_mem_syncEvents.2 (Or.inl hi)))
  · rcases List.mem_append.1 (hwb dev hdev) with h | h
    · exact (writeback_mem_syncEvents.1 h).2.symm
    · cases List.mem_singleton.1 h
  · rcases List.mem_append.1 (hcf dev hdev) with h | h
    · exact absurd h cacheFlush_notMem_syncEvents
    · exact (FlushEvent.cacheFlush.inj (List.mem_singleton.1 h)).1
  · obtain ⟨dev, hdev⟩ := List.exists_mem_of_ne_nil _ hne
    rcases List.mem_append.1 (hcf dev hdev) with h | h
    · exact absurd h cacheFlush_notMem_syncEvents
    · exact (FlushEvent.cacheFlush.inj (List.mem_singleton.1 h)).2.symm

end

/-- **When a header refers to durable storage only**: for every call and every outcome of the
operations it issues, the header is written only over durable storage, and an unwritten one stays
flagged, exactly when the condition `HeaderOk` holds. -/
theorem xopInodeFlush_durable_iff {β : Type*} (x : XopFlush) (d : VolDev β) :
    (x.HeaderDurable d ∧ x.Retried d) ↔ x.HeaderOk d :=
  ⟨fun h => XopFlush.HeaderOk.of_durable h.1 h.2,
    fun h => ⟨XopFlush.HeaderOk.durable h, XopFlush.HeaderOk.retried h⟩⟩

/-- A flush of the root of a PFS on two devices of which the first fails its writeback: the result
is overwritten by that of the second. -/
def twoDeviceFlush : XopFlush where
  volhdr := true
  inode := some { flagged := false, flushError := 0, pfsBoundary := true }
  replicated := false
  spmpFlush := none
  freemap := { flagged := false, modifies := false, reached := false, error := 0 }
  topology := { flagged := true, modifies := true, reached := true, error := 0 }
  devs := [0, 1]
  root := 0
  writeback dev := if dev = 0 then 5 else 0
  cacheFlush _ := 0
  deviceError := false
  headerIo := .written 0

/-- A device at rest whose header 3 is in slot 0 of an 8GB volume. -/
def restingDev : VolDev Unit where
  voldata := { mirrorTid := 3, freemapTid := 2, voluSize := 8589934592, body := () }
  volsync := { mirrorTid := 3, freemapTid := 2, voluSize := 8589934592, body := () }
  volhdrno := 0
  vchainModified := false
  vchainTid := 3
  volumesync := false
  fchainModified := false
  fchainTid := 2

/-- The header is written although the writeback of device 0 failed with `EIO` and the write cache
of device 1 was never flushed. -/
theorem xopInodeFlush_lost_writeback :
    (xopInodeFlush twoDeviceFlush restingDev).events =
      [.flush 0, .writeback 0 5, .writeback 1 0, .cacheFlush 0 0, .headerWrite 1 0] ∧
      ¬ twoDeviceFlush.HeaderDurable restingDev := by
  have hev : (xopInodeFlush twoDeviceFlush restingDev).events =
      [.flush 0, .writeback 0 5, .writeback 1 0, .cacheFlush 0 0, .headerWrite 1 0] := by
    decide +kernel
  refine ⟨hev, fun h => ?_⟩
  have hwb := (h [.flush 0, .writeback 0 5, .writeback 1 0, .cacheFlush 0 0] [] 1 0 hev).2.1 0
    (by decide)
  exact absurd hwb (by decide)

end Hammer2
