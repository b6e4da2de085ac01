import Hammer2.Flush.Xop
import Hammer2.Sync.Inode

/-!
# Where the errors of a sync end up

`hammer2_vfs_sync_pmp` visits the inodes of its queue, as often as it restarts, and the root of the
PFS at the end. A `SyncRun` is one such run with the outcome of every backend operation on every
element of the cluster; `SyncRun.reports` are the places it leaves an error in that user space
reads. An operation of the run may fail without a trace there; `syncPmp_reports_iff` says which
failures are seen.

Reference: `hammer2_vfsops.c:3040-3375`, `hammer2_flush.c:1135-1380`, `hammer2_inode.c:1815-1955`,
`hammer2_strategy.c:1600-1640`, `hammer2_vnops.c:2520-2573`.
-/

namespace Hammer2

/-- The calls a sync makes for an inode on every visit: `inum` and `vp` say where its errors go,
`ip` is the inode when the calls are made, `sync` and `flush` are the outcomes on each element. -/
structure InodeCalls (π μ β : Type*) where
  inum : Nat
  vp : Bool
  ip : SyncInode π μ
  sync : List (Element (SyncIo × MediaInode π μ))
  flush : List (Element (XopFlush × VolDev β))

/-- One visit of an inode on the queue. `grabbed` is the result of `igrab`, `writebacks` are the
block writes of its mapping with the error of each element, `requeued` says that the inode was put
back on the side queue meanwhile. -/
structure InodeVisit (π μ β : Type*) extends InodeCalls π μ β where
  grabbed : Bool
  writebacks : List (List (Element Nat))
  requeued : Bool
  des : List (Element (DesIo × MediaInode π μ))
  ins : List (Element (InsIo × MediaInode π μ))

/-- A run of `hammer2_vfs_sync_pmp`: the masters of the PFS, whether it is mounted (`pmp->mp`), the
visits in order and the last calls for the root. -/
structure SyncRun (π μ β : Type*) where
  nmasters : Nat
  mounted : Bool
  visits : List (InodeVisit π μ β)
  root : Option (InodeCalls π μ β)

/-- A place that holds a new error: the mapping of an inode, or the superblock. -/
inductive Report
  | mapping (inum : Nat)
  | superblock
  deriving DecidableEq

section
variable {π μ β : Type*}

/-! ## What is reported -/

/-- The error `hammer2_xop_inode_flush` feeds. -/
def FlushRun.totalError (r : FlushRun β) : Nat :=
  if r.fsyncError ≠ 0 then errnoToError r.fsyncError else r.flushError

/-- `mapping_set_error`: the kernel records the error on the superblock too. -/
def mappingSetError (inum : Nat) : List Report := [.mapping inum, .superblock]

/-- `hammer2_sync_error`. -/
def syncError (mounted vp : Bool) (inum error : Nat) : List Report :=
  if error = 0 then []
  else if vp then mappingSetError inum
  else if mounted then [.superblock]
  else []

/-- What the elements feed in `hammer2_inode_chain_sync`. -/
def InodeCalls.syncFeeds (c : InodeCalls π μ β) : List (Element Nat) :=
  c.sync.map (Element.map fun o => (xopInodeChainSync c.ip.request o.1 o.2).2)

/-- What the elements feed in `hammer2_inode_chain_flush`. -/
def InodeCalls.flushFeeds (c : InodeCalls π μ β) (volhdr : Bool) : List (Element Nat) :=
  c.flush.map (Element.map fun o => (xopInodeFlush { o.1 with volhdr } o.2).totalError)

/-- The result of `hammer2_inode_chain_sync`. -/
def InodeCalls.chainSyncError (c : InodeCalls π μ β) (nmasters : Nat) : Nat :=
  if c.ip.dirty then callError nmasters c.syncFeeds else 0

/-- The result of `hammer2_inode_chain_flush`. -/
def InodeCalls.chainFlushError (c : InodeCalls π μ β) (nmasters : Nat) (volhdr : Bool) : Nat :=
  callError nmasters (c.flushFeeds volhdr)

/-- The reports of the calls for an inode. -/
def InodeCalls.reports (c : InodeCalls π μ β) (nmasters : Nat) (mounted volhdr : Bool) :
    List Report :=
  syncError mounted c.vp c.inum (c.chainSyncError nmasters) ++
    syncError mounted c.vp c.inum (c.chainFlushError nmasters volhdr)

/-- The mapping of the inode is written back. -/
def InodeVisit.writesBack (v : InodeVisit π μ β) : Bool := v.vp && v.grabbed

/-- The visit gets as far as the chains of the inode. -/
def InodeVisit.processed (v : InodeVisit π μ β) : Bool := (!v.vp || v.grabbed) && !v.requeued

/-- The reports of a visit. The write of a block reports its own error; the results of the insertion
and of the removal are not looked at. -/
def InodeVisit.reports (v : InodeVisit π μ β) (nmasters : Nat) (mounted : Bool) : List Report :=
  (if v.writesBack then
    v.writebacks.flatMap fun w => if callError nmasters w ≠ 0 then mappingSetError v.inum else []
  else []) ++
  if v.processed then v.toInodeCalls.reports nmasters mounted false else []

/-- The reports of a run. -/
def SyncRun.reports (r : SyncRun π μ β) : List Report :=
  (r.visits.flatMap fun v => v.reports r.nmasters r.mounted) ++
    (r.root.toList.flatMap fun c => c.reports r.nmasters r.mounted true)

/-- The value `hammer2_vfs_sync_pmp` returns. -/
def SyncRun.result (_ : SyncRun π μ β) : Nat := 0

/-! ## What fails -/

/-- The result of an operation of a flush. -/
def FlushEvent.error : FlushEvent → Nat
  | .flush error => error
  | .writeback _ error => error
  | .cacheFlush _ error => error
  | .headerWrite _ error => error

/-- An operation of the flush fails. -/
def XopFlush.Fails (x : XopFlush) (d : VolDev β) : Prop :=
  (∃ ev ∈ (xopInodeFlush x d).events, ev.error ≠ 0) ∨
    (x.reachesRoots = true ∧ x.writesHeader d = true ∧ ∃ e, x.headerIo = .noFolio e ∧ e ≠ 0)

/-- An operation of the meta-data backend fails: the backend returns an error, or the deletion of a
chain past the end that the scan comes to fails. -/
def SyncXop.Fails (x : SyncXop π μ) (io : SyncIo) (m : MediaInode π μ) : Prop :=
  (xopInodeChainSync x io m).2 ≠ 0 ∨
    (io.parent = some 0 ∧ x.truncates = true ∧ ∃ k ∈ m.chains, roundupBlock x.imeta.size ≤ k ∧
      k ∈ io.undeleted ∧ ∀ stop e, io.lookup = some (stop, e) → k < stop)

/-- An operation of the removal fails. -/
def DesIo.Fails (io : DesIo) (creating : Bool) (m : MediaInode π μ) : Prop :=
  (xopInodeDestroy io creating m).2 ≠ 0 ∨ io.delete ≠ 0

/-- A backend operation of the calls for an inode fails on some element. -/
def InodeCalls.Fails (c : InodeCalls π μ β) (volhdr : Bool) : Prop :=
  (c.ip.dirty = true ∧
    ∃ e ∈ c.sync, ∃ io m, e.fed = some (io, m) ∧ c.ip.request.Fails io m) ∨
  ∃ e ∈ c.flush, ∃ x d, e.fed = some (x, d) ∧ XopFlush.Fails { x with volhdr } d

/-- The update of the inode index fails on some element. -/
def InodeVisit.IndexFails (v : InodeVisit π μ β) : Prop :=
  (v.ip.deleting = true ∧ ∃ e ∈ v.des, ∃ io m, e.fed = some (io, m) ∧ io.Fails v.ip.creating m) ∨
  (v.ip.deleting = false ∧ v.ip.creating = true ∧
    ∃ e ∈ v.ins, ∃ io m, e.fed = some (io, m) ∧ (xopInodeCreateIns io m).2 ≠ 0)

/-- A backend operation of a visit fails on some element. -/
def InodeVisit.Fails (v : InodeVisit π μ β) : Prop :=
  (v.writesBack = true ∧ ∃ w ∈ v.writebacks, ∃ e ∈ w, ∃ error, e.fed = some error ∧ error ≠ 0) ∨
  (v.processed = true ∧ (v.IndexFails ∨ v.toInodeCalls.Fails false))

/-- A backend operation of the run fails for the inode `inum`. -/
def SyncRun.FailsAt (r : SyncRun π μ β) (inum : Nat) : Prop :=
  (∃ v ∈ r.visits, v.inum = inum ∧ v.Fails) ∨ ∃ c ∈ r.root, c.inum = inum ∧ c.Fails true

/-- The run calls `hammer2_xop_inode_flush` as `x` on an element in the state `d`. -/
def SyncRun.FlushCall (r : SyncRun π μ β) (x : XopFlush) (d : VolDev β) : Prop :=
  (∃ v ∈ r.visits, v.processed = true ∧
    ∃ e ∈ v.flush, ∃ y, e.fed = some (y, d) ∧ x = { y with volhdr := false }) ∨
  ∃ c ∈ r.root, ∃ e ∈ c.flush, ∃ y, e.fed = some (y, d) ∧ x = { y with volhdr := true }

/-- Every failure leaves an error where user space reads it, and every flush that fails is fed. -/
structure SyncRun.Reported (r : SyncRun π μ β) : Prop where
  failure : ∀ inum, r.FailsAt inum →
    .mapping inum ∈ r.reports ∨ .superblock ∈ r.reports ∨ r.result ≠ 0
  fed : ∀ x d, r.FlushCall x d → (∃ error, .flush error ∈ (xopInodeFlush x d).events ∧ error ≠ 0) →
    (xopInodeFlush x d).totalError ≠ 0

/-! ## The failures that are seen -/

/-- The error of the meta-data backend, by the first of its operations that fails: the inode's chain
is not found, or has an error, or the scan for the chains past the end fails, if it is made, or the
modify of the inode's chain. -/
def SyncIo.word (truncates : Bool) (io : SyncIo) : Nat :=
  match io.parent with
  | none => errorEio
  | some e =>
    if e ≠ 0 then e
    else match if truncates then io.lookup else none with
      | some (_, e) => e.1
      | none => io.modify

/-- The error of the header write, or of the cache flush before it. -/
def XopFlush.headerError (x : XopFlush) : Nat :=
  match x.headerIo with
  | .noFolio e => if e ≠ 0 then e else x.cacheFlush x.root
  | .written e => if e ≠ 0 then e else x.cacheFlush x.root

/-- The error of a flush, by its operations that fail: the last writeback, a flush of one of the
roots, the header write, or the cache flush before it. -/
def XopFlush.word (x : XopFlush) (d : VolDev β) : Nat :=
  if !x.reachesRoots then 0
  else if x.lastWriteback ≠ 0 then errnoToError x.lastWriteback
  else if x.rootsWord d ≠ 0 then x.rootsWord d
  else if x.deviceError || !x.headerDue d then 0
  else errnoToError x.headerError

/-- The operations of one of the two calls fail on the masters, so many of them and in such a way
that the call has an error (`Carried` counts the masters that answered), and there is a place to
leave it. -/
def InodeCalls.Seen (c : InodeCalls π μ β) (nmasters : Nat) (mounted volhdr : Bool) : Prop :=
  (c.vp = true ∨ mounted = true) ∧
    ((c.ip.dirty = true ∧
      Carried nmasters (c.sync.map (Element.map fun o => o.1.word c.ip.request.truncates))) ∨
    Carried nmasters (c.flush.map (Element.map fun o => XopFlush.word { o.1 with volhdr } o.2)))

/-- A block write of the visit, or one of its two calls whose result is kept, returns an error. -/
def InodeVisit.Seen (v : InodeVisit π μ β) (nmasters : Nat) (mounted : Bool) : Prop :=
  (v.writesBack = true ∧ ∃ w ∈ v.writebacks, Carried nmasters w) ∨
    (v.processed = true ∧ v.toInodeCalls.Seen nmasters mounted false)

/-- Some failure of the run is seen. -/
def SyncRun.Seen (r : SyncRun π μ β) : Prop :=
  (∃ v ∈ r.visits, v.Seen r.nmasters r.mounted) ∨
    ∃ c ∈ r.root, c.Seen r.nmasters r.mounted true

/-- The condition: a run in which something fails has a failure that is seen, and when the flush of
an inode's own chain fails, so does a later operation of the same call that goes into its error. -/
structure SyncRun.ErrorsSeen (r : SyncRun π μ β) : Prop where
  seen : (∃ inum, r.FailsAt inum) → r.Seen
  inode : ∀ x d, r.FlushCall x d → flushResult x.inodeFlush ≠ 0 → x.word d ≠ 0

variable {r : SyncRun π μ β} {c : InodeCalls π μ β} {v : InodeVisit π μ β} {x : XopFlush}
  {d : VolDev β} {nmasters inum : Nat} {mounted volhdr : Bool}

/-- What the meta-data backend feeds is the error of the operation that fails. -/
theorem xopInodeChainSync_word (x : SyncXop π μ) (io : SyncIo) (m : MediaInode π μ) :
    (xopInodeChainSync x io m).2 = io.word x.truncates := by
  unfold xopInodeChainSync SyncIo.word SyncXop.truncate
  cases io.parent with
  | none => rfl
  | some e =>
    by_cases he : e = 0
    · subst he
      cases ht : x.truncates with
      | false => by_cases hm : io.modify = 0 <;> simp [hm]
      | true =>
        cases hl : io.lookup with
        | none => by_cases hm : io.modify = 0 <;> simp [hm]
        | some p => simp [p.2.2]
    · simp [he]

/-- The error word of a call that reaches the roots. -/
theorem flushError_of_reachesRoots (hr : x.reachesRoots = true) :
    (xopInodeFlush x d).flushError = x.flushError d := by
  rw [xopInodeFlush, if_pos hr]
  split <;> rfl

/-- What the flush feeds is the error of the operations that fail. -/
theorem totalError_word (x : XopFlush) (d : VolDev β) :
    (xopInodeFlush x d).totalError = x.word d := by
  unfold XopFlush.word
  by_cases hr : x.reachesRoots = true
  · by_cases hw : x.writesHeader d = true
    · obtain ⟨hlast, hword, hdev, hdue⟩ := writesHeader_iff.1 hw
      have herr : (xopInodeFlush x d).fsyncError = x.headerError := by
        rw [xopInodeFlush, if_pos hr, if_pos hw]
        show (x.headerSync (x.flushedDev d)).2.2 = x.headerError
        unfold XopFlush.headerSync XopFlush.headerError
        cases x.headerIo <;> rfl
      rw [FlushRun.totalError, herr, flushError_of_reachesRoots hr, flushError_eq, hword]
      by_cases he : x.headerError = 0
      · simp [hr, hlast, hdev, hdue, he, errnoToError]
      · simp [hr, hlast, hdev, hdue, he]
    · rw [xopInodeFlush, if_pos hr, if_neg hw]
      simp only [FlushRun.totalError, fsyncError_eq, flushError_eq, hr]
      by_cases hlast : x.lastWriteback = 0
      · by_cases hword : x.rootsWord d = 0
        · have hn : x.deviceError = true ∨ x.headerDue d = false := by
            by_contra hn
            rw [not_or] at hn
            exact hw (writesHeader_iff.2 ⟨hlast, hword, by simpa using hn.1, by simpa using hn.2⟩)
          rcases hn with hn | hn <;> simp [hlast, hword, hn]
        · simp [hlast, hword]
      · simp [hlast]
  · rw [xopInodeFlush, if_neg hr]
    simp [hr, FlushRun.totalError]

/-- An error reaches the superblock if there is a vnode or a mount. -/
theorem mem_syncError_superblock {vp : Bool} {error : Nat} :
    .superblock ∈ syncError mounted vp inum error ↔ error ≠ 0 ∧ (vp = true ∨ mounted = true) := by
  unfold syncError mappingSetError
  by_cases h : error = 0
  · simp [h]
  · cases vp <;> cases mounted <;> simp [h]

/-- The error of a mapping is on the superblock too. -/
theorem superblock_of_mapping_syncError {vp : Bool} {error i : Nat}
    (h : .mapping i ∈ syncError mounted vp inum error) :
    .superblock ∈ syncError mounted vp inum error := by
  unfold syncError mappingSetError at h ⊢
  by_cases he : error = 0
  · simp [he] at h
  · cases vp <;> cases mounted <;> simp_all

/-- The meta-data update reports what its cluster carries. -/
theorem chainSyncError_ne_zero_iff :
    c.chainSyncError nmasters ≠ 0 ↔ c.ip.dirty = true ∧ Carried nmasters c.syncFeeds := by
  unfold InodeCalls.chainSyncError
  split
  · next h => simp [callError_ne_zero_iff, h]
  · next h => simp [h]

/-- What the calls for an inode record on the superblock. -/
theorem superblock_mem_calls :
    .superblock ∈ c.reports nmasters mounted volhdr ↔ c.Seen nmasters mounted volhdr := by
  rw [InodeCalls.reports, List.mem_append, mem_syncError_superblock, mem_syncError_superblock,
    chainSyncError_ne_zero_iff, InodeCalls.chainFlushError, callError_ne_zero_iff,
    InodeCalls.Seen, ← or_and_right, and_comm]
  simp only [InodeCalls.syncFeeds, InodeCalls.flushFeeds, xopInodeChainSync_word, totalError_word]

/-- What a visit records. -/
theorem superblock_mem_visit :
    .superblock ∈ v.reports nmasters mounted ↔ v.Seen nmasters mounted := by
  rw [InodeVisit.reports, List.mem_append, InodeVisit.Seen]
  refine or_congr ?_ ?_
  · split
    · next h =>
      simp only [h, true_and, List.mem_flatMap]
      refine exists_congr fun w => and_congr_right fun _ => ?_
      rw [← callError_ne_zero_iff]
      by_cases hc : callError nmasters w = 0
      · simp [hc]
      · simp [hc, mappingSetError]
    · next h => simp [h]
  · split
    · next h => simp only [h, true_and, superblock_mem_calls]
    · next h => simp [h]

/-- What a whole sync records. -/
theorem superblock_mem_reports : .superblock ∈ r.reports ↔ r.Seen := by
  rw [SyncRun.reports, List.mem_append, List.mem_flatMap, List.mem_flatMap, SyncRun.Seen]
  refine or_congr ?_ ?_
  · exact exists_congr fun v => and_congr_right fun _ => superblock_mem_visit
  · exact exists_congr fun c => and_congr (by simp) superblock_mem_calls

/-- Whatever the calls record on a mapping they record on the superblock. -/
theorem superblock_of_mapping_calls (h : .mapping inum ∈ c.reports nmasters mounted volhdr) :
    .superblock ∈ c.reports nmasters mounted volhdr := by
  rw [InodeCalls.reports, List.mem_append] at h ⊢
  exact h.imp superblock_of_mapping_syncError superblock_of_mapping_syncError

/-- So does a visit. -/
theorem superblock_of_mapping_visit (h : .mapping inum ∈ v.reports nmasters mounted) :
    .superblock ∈ v.reports nmasters mounted := by
  rw [InodeVisit.reports, List.mem_append] at h ⊢
  refine h.imp (fun h => ?_) fun h => ?_
  · split at h
    · next hw =>
      rw [if_pos hw]
      obtain ⟨w, hmem, hw⟩ := List.mem_flatMap.1 h
      refine List.mem_flatMap.2 ⟨w, hmem, ?_⟩
      split at hw
      · next hc =>
        rw [if_pos hc]
        exact List.mem_cons_of_mem _ List.mem_cons_self
      · cases hw
    · cases h
  · split at h
    · next hp =>
      rw [if_pos hp]
      exact superblock_of_mapping_calls h
    · cases h

/-- So does a whole sync. -/
theorem superblock_of_mapping (h : .mapping inum ∈ r.reports) : .superblock ∈ r.reports := by
  rw [SyncRun.reports, List.mem_append] at h ⊢
  refine h.imp (fun h => ?_) fun h => ?_
  · obtain ⟨v, hv, h⟩ := List.mem_flatMap.1 h
    exact List.mem_flatMap.2 ⟨v, hv, superblock_of_mapping_visit h⟩
  · obtain ⟨c, hc, h⟩ := List.mem_flatMap.1 h
    exact List.mem_flatMap.2 ⟨c, hc, superblock_of_mapping_calls h⟩

/-! ## The error a flush feeds -/

/-- The flush reports an error of the flush or of the writeback. -/
theorem totalError_ne_zero_iff (f : FlushRun β) :
    f.totalError ≠ 0 ↔ f.flushError ≠ 0 ∨ f.fsyncError ≠ 0 := by
  unfold FlushRun.totalError
  split
  · next h => simp [errnoToError_eq_zero_iff, h]
  · next h => simp [not_not.1 h]

/-- The flushes that are made. -/
theorem flush_mem_events {e : Nat} : .flush e ∈ (xopInodeFlush x d).events ↔
    x.inodeFlush = some e ∨ (x.reachesRoots = true ∧ .flush e ∈ x.syncEvents d) := by
  by_cases hr : x.reachesRoots = true
  · -- the operations from the cache flush on are no chain flushes
    have hev : .flush e ∈ (xopInodeFlush x d).events ↔ .flush e ∈ x.syncEvents d := by
      rw [xopInodeFlush, if_pos hr]
      split
      · simp only [XopFlush.headerSync]
        cases x.headerIo <;> simp
      · exact Iff.rfl
    rw [hev, flush_mem_syncEvents]
    simp [hr]
  · rw [xopInodeFlush, if_neg hr]
    simp [hr, mem_flushEvents]

/-- A flush of one of the roots that fails shows in the error word. -/
theorem flushError_ne_zero_of_event {e : Nat} (he : e ≠ 0) (h : .flush e ∈ x.syncEvents d)
    (hi : x.inodeFlush ≠ some e) : x.flushError d ≠ 0 := by
  intro h0
  obtain ⟨h1, h2, h3⟩ := flushError_eq_zero_iff.1 h0
  rcases flush_mem_syncEvents.1 h with h | h | h | h
  · exact hi h
  · rw [h] at h1
    exact he h1
  · rw [h] at h2
    exact he h2
  · rw [h] at h3
    exact he h3

/-- A call feeds an error whenever one of its flushes fails exactly when the failure of the inode's
own flush comes with another one that it keeps. -/
theorem flush_fed_iff :
    ((∃ error, .flush error ∈ (xopInodeFlush x d).events ∧ error ≠ 0) →
      (xopInodeFlush x d).totalError ≠ 0) ↔
    (flushResult x.inodeFlush ≠ 0 → x.word d ≠ 0) := by
  rw [← totalError_word]
  constructor
  · intro h hi
    cases hx : x.inodeFlush with
    | none => rw [hx] at hi; exact absurd rfl hi
    | some e =>
      rw [hx] at hi
      exact h ⟨e, flush_mem_events.2 (.inl hx), hi⟩
  · rintro h ⟨e, hmem, he⟩
    by_cases hino : x.inodeFlush = some e
    · exact h (by rw [hino]; exact he)
    · obtain ⟨hr, hmem⟩ := (flush_mem_events.1 hmem).resolve_left hino
      rw [totalError_ne_zero_iff, flushError_of_reachesRoots hr]
      exact .inl (flushError_ne_zero_of_event he hmem hino)

/-- **Which failures a sync reports.** Every failure of a run is reported, and every failed flush
fed, exactly when the run has a failure that is seen, if it has any, and no flush of an inode's own
chain fails alone. What is seen is said on the operations that fail and on the number of masters. -/
theorem syncPmp_reports_iff (r : SyncRun π μ β) : r.Reported ↔ r.ErrorsSeen := by
  constructor
  · intro h
    refine ⟨?_, fun x d hcall => flush_fed_iff.1 (h.fed x d hcall)⟩
    rintro ⟨inum, hf⟩
    rw [← superblock_mem_reports]
    rcases h.failure inum hf with h | h | h
    · exact superblock_of_mapping h
    · exact h
    · exact absurd rfl h
  · intro h
    refine ⟨fun inum hf => .inr (.inl ?_), fun x d hcall => flush_fed_iff.2 (h.inode x d hcall)⟩
    exact superblock_mem_reports.2 (h.seen ⟨inum, hf⟩)

end

/-! ## A sync whose failures nobody sees -/

/-- A file truncated from 128 KiB to nothing that is also new. -/
def truncatedInode : SyncInode Unit Unit where
  imeta := ⟨0, false, false, (), ()⟩
  osize := 131072
  resized := true
  modified := true
  creating := true
  deleting := false

/-- Its chain: two blocks, and not in the index. -/
def truncatedMedia : MediaInode Unit Unit where
  imeta := ⟨131072, false, false, (), ()⟩
  chains := [0, 65536]
  area := .blockset
  indexed := false
  intact := true

/-- The flush of an inode whose chain cannot be written. -/
def inodeFlushEio : XopFlush where
  volhdr := false
  inode := some ⟨true, errorEio, false⟩
  replicated := false
  spmpFlush := none
  freemap := ⟨false, false, false, 0⟩
  topology := ⟨false, false, false, 0⟩
  devs := [0]
  root := 0
  writeback := fun _ => 0
  cacheFlush := fun _ => 0
  deviceError := false
  headerIo := .written 0

/-- A visit of that file in which the insertion finds no space, the deletion of a block fails and
the inode's chain cannot be written. -/
def silentVisit : InodeVisit Unit Unit Unit where
  inum := 2
  vp := true
  ip := truncatedInode
  sync := [⟨.master, some (⟨some 0, [65536], none, 0, false⟩, truncatedMedia)⟩]
  flush := [⟨.master, some (inodeFlushEio, restingDev)⟩]
  grabbed := true
  writebacks := []
  requeued := false
  des := []
  ins := [⟨.master, some (⟨true, true, errorEnospc⟩, truncatedMedia)⟩]

/-- A sync of one file on one device. -/
def silentSync : SyncRun Unit Unit Unit where
  nmasters := 1
  mounted := true
  visits := [silentVisit]
  root := none

/-- The insertion of the inode, the deletion of its block and the flush of its chain all fail, and
nothing is reported. -/
theorem syncPmp_silent : silentSync.reports = [] ∧ silentSync.result = 0 ∧
    silentVisit.IndexFails ∧
    SyncXop.Fails truncatedInode.request ⟨some 0, [65536], none, 0, false⟩ truncatedMedia ∧
    XopFlush.Fails inodeFlushEio restingDev ∧ silentSync.FailsAt 2 ∧ ¬ silentSync.Reported := by
  have hreports : silentSync.reports = [] := by decide +kernel
  have hindex : silentVisit.IndexFails :=
    .inr ⟨rfl, rfl, _, List.mem_cons_self, _, _, rfl, by decide⟩
  have hfails : silentSync.FailsAt 2 :=
    .inl ⟨silentVisit, List.mem_cons_self, rfl, .inr ⟨rfl, .inl hindex⟩⟩
  refine ⟨hreports, rfl, hindex, .inr ⟨rfl, rfl, 65536, by decide, by decide, by decide, ?_⟩,
    .inl ⟨.flush errorEio, by decide +kernel, by decide⟩, hfails, fun h => ?_⟩
  · exact fun _ _ h => nomatch h
  · rcases h.failure 2 hfails with h | h | h
    · rw [hreports] at h
      cases h
    · rw [hreports] at h
      cases h
    · exact h rfl

end Hammer2
