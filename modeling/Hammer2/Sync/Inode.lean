import Hammer2.Xop.Collect
import Hammer2.Lib.Run

/-!
# Writing an inode back to its chain

The frontend keeps an inode in memory and records in its flags what the chain below does not hold
yet: `RESIZED` and `MODIFIED` for the meta-data and the file's size, `CREATING` and `DELETING` for
the entry in the inode index. `chainSync`, `chainIns` and `chainDes` take the flags down and then
run the backend that does the work; `fullSync` is what the sync of the filesystem does for one
inode. The outcome of each operation of the backend is an input (`SyncIo`, `InsIo`, `DesIo`).

The model is of one element of the cluster: the media it holds for the inode is what its chain says,
and every element runs the same backend on its own.

Reference: `hammer2_inode.c:1806-1955`, `hammer2_xops.c:1140-1242`, `hammer2_xops.c:1364-1469`,
`hammer2_vfsops.c:3268-3303`.
-/

namespace Hammer2

open Transition

/-- `HAMMER2_EMBEDDED_BYTES`: the size up to which a file's data may stand in its inode. -/
def embeddedBytes : Nat := 512

/-- `hammer2_inode_meta_t`: the size, the two bits of `op_flags` that are read here, the identity of
a PFS root, and the rest. -/
structure InodeMeta (π μ : Type*) where
  size : Nat
  directdata : Bool
  pfsroot : Bool
  pfs : π
  rest : μ
  deriving DecidableEq

/-- The inode in memory. -/
structure SyncInode (π μ : Type*) where
  imeta : InodeMeta π μ
  osize : Nat
  resized : Bool
  modified : Bool
  creating : Bool
  deleting : Bool
  deriving DecidableEq

/-- What the union at the end of the inode on the media holds. -/
inductive InodeArea
  | zeroed
  | embedded
  | blockset
  deriving DecidableEq

/-- The inode on the media: the meta-data, the keys of its data chains, the form of its union,
whether the inode index has it, and whether the inode and its block tables are still what was
written there. -/
structure MediaInode (π μ : Type*) where
  imeta : InodeMeta π μ
  chains : List Nat
  area : InodeArea
  indexed : Bool
  intact : Bool
  deriving DecidableEq

/-- An inode in memory and on the media. -/
structure SyncSys (π μ : Type*) where
  ip : SyncInode π μ
  media : MediaInode π μ
  deriving DecidableEq

/-- The outcomes of `hammer2_xop_inode_chain_sync`: the chain of the inode (`none` when there is
none, otherwise its `error`), the chains whose deletion fails, the key from which the scan fails
with its error, and the result of modifying the inode's chain. `torn` says that a
`hammer2_chain_modify`, of the inode or in a deletion, has failed in I/O after it had moved the
block to new storage: what the block held is dropped then. -/
structure SyncIo where
  parent : Option Nat
  undeleted : List Nat
  lookup : Option (Nat × ErrorCode)
  modify : Nat
  torn : Bool

/-- The outcomes of `hammer2_xop_inode_create_ins`: whether the chains of the root and of the inode
are found, and the result of the insertion. -/
structure InsIo where
  iroot : Bool
  chain : Bool
  create : Nat

/-- The outcomes of `hammer2_xop_inode_destroy`: whether the inode's chain and its parent are found,
the result of the deletion, and whether it has failed with the parent's block table dropped. -/
structure DesIo where
  chain : Bool
  parent : Bool
  delete : Nat
  torn : Bool

/-- The fields of `hammer2_xop_fsync_t`. -/
structure SyncXop (π μ : Type*) where
  clearDirectdata : Bool
  osize : Nat
  resized : Bool
  imeta : InodeMeta π μ

section
variable {π μ : Type*}

/-! ## The backend -/

/-- The file's end, rounded up to a block. -/
def roundupBlock (size : Nat) : Nat := (size + (pbufSize - 1)) / pbufSize * pbufSize

/-- The chains that the deletion of everything at or past `lbase` leaves. A deletion that fails is
passed over, and a scan that fails leaves what it has not come to. -/
def truncateChains (io : SyncIo) (lbase : Nat) (chains : List Nat) : List Nat :=
  chains.filter fun k => k < lbase || io.undeleted.contains k ||
    match io.lookup with
    | some (stop, _) => stop ≤ k
    | none => false

/-- `*wmeta = xop->meta`, with the identity of a PFS root kept. -/
def InodeMeta.keepIdentity (new old : InodeMeta π μ) : InodeMeta π μ :=
  { new with pfs := if old.pfsroot then old.pfs else new.pfs }

/-- The backend is to delete the chains past the end. -/
def SyncXop.truncates (x : SyncXop π μ) : Bool := x.resized && x.imeta.size < x.osize

/-- The deletion of the chains past the end, with its error. -/
def SyncXop.truncate (x : SyncXop π μ) (io : SyncIo) (m : MediaInode π μ) : MediaInode π μ × Nat :=
  if x.truncates then
    ({ m with chains := truncateChains io (roundupBlock x.imeta.size) m.chains },
      match io.lookup with
      | some (_, e) => e.1
      | none => 0)
  else (m, 0)

/-- The meta-data of the request, stored in the inode's chain. -/
def SyncXop.store (x : SyncXop π μ) (m : MediaInode π μ) : MediaInode π μ :=
  { m with
    imeta := x.imeta.keepIdentity m.imeta
    area := if x.clearDirectdata then .zeroed else m.area }

/-- `hammer2_xop_inode_chain_sync`. -/
def xopInodeChainSync (x : SyncXop π μ) (io : SyncIo) (m : MediaInode π μ) :
    MediaInode π μ × Nat :=
  match io.parent with
  | none => (m, errorEio)
  | some e =>
    if e ≠ 0 then (m, e)
    else
      let (m', err) := x.truncate io { m with intact := m.intact && !io.torn }
      if err ≠ 0 then (m', err)
      else if io.modify ≠ 0 then (m', io.modify)
      else (x.store m', 0)

/-- `hammer2_xop_inode_create_ins`. The error of the lookup is overwritten by that of the
insertion. -/
def xopInodeCreateIns (io : InsIo) (m : MediaInode π μ) : MediaInode π μ × Nat :=
  if !io.iroot then (m, errorEio)
  else if m.indexed then (m, errorEexist)
  else if !io.chain then (m, errorEio)
  else if io.create ≠ 0 then (m, io.create)
  else ({ m with indexed := true }, 0)

/-- `hammer2_xop_inode_destroy`. An inode that was never inserted has no parent to look for; the
result of the deletion is not looked at. The entry of the inode goes with a table that is
dropped. -/
def xopInodeDestroy (io : DesIo) (creating : Bool) (m : MediaInode π μ) : MediaInode π μ × Nat :=
  if !io.chain then (m, errorEio)
  else if !creating && !io.parent then (m, errorEio)
  else (if io.delete = 0 || io.torn then { m with indexed := false } else m, 0)

/-! ## The frontend -/

/-- The file outgrows its inode. -/
def SyncInode.outgrows (ip : SyncInode π μ) : Bool :=
  ip.resized && ip.imeta.directdata && embeddedBytes < ip.imeta.size

/-- There is meta-data to write. -/
def SyncInode.dirty (ip : SyncInode π μ) : Bool := ip.resized || ip.modified

/-- The inode as `hammer2_inode_chain_sync` leaves it, whatever comes of the backend. -/
def SyncInode.settle (ip : SyncInode π μ) : SyncInode π μ :=
  { ip with
    imeta := if ip.outgrows then { ip.imeta with directdata := false } else ip.imeta
    resized := false
    modified := false }

/-- The request `hammer2_inode_chain_sync` makes. -/
def SyncInode.request (ip : SyncInode π μ) : SyncXop π μ where
  clearDirectdata :=
    ip.outgrows || (ip.resized && ip.imeta.directdata && ip.imeta.size < ip.osize)
  osize := if ip.resized then ip.osize else ip.imeta.size
  resized := ip.resized
  imeta := ip.settle.imeta

/-- `hammer2_inode_chain_sync`. -/
def chainSync (io : SyncIo) (s : SyncSys π μ) : SyncSys π μ :=
  if s.ip.dirty then
    { ip := s.ip.settle, media := (xopInodeChainSync s.ip.request io s.media).1 }
  else s

/-- `hammer2_inode_chain_ins`. -/
def chainIns (io : InsIo) (s : SyncSys π μ) : SyncSys π μ :=
  if s.ip.creating then
    { ip := { s.ip with creating := false }, media := (xopInodeCreateIns io s.media).1 }
  else s

/-- `hammer2_inode_chain_des`. -/
def chainDes (io : DesIo) (s : SyncSys π μ) : SyncSys π μ :=
  if s.ip.deleting then
    { ip := { s.ip with deleting := false }
      media := (xopInodeDestroy io s.ip.creating s.media).1 }
  else s

/-- The step of a full sync that brings the inode index up to date. -/
def indexSync (ins : InsIo) (des : DesIo) (s : SyncSys π μ) : SyncSys π μ :=
  if s.ip.deleting then chainDes des s else chainIns ins s

/-- What is done to the inode: one of the three calls, or a full sync. -/
inductive SyncAct
  | chainSync (io : SyncIo)
  | chainIns (io : InsIo)
  | chainDes (io : DesIo)
  | fullSync (ins : InsIo) (des : DesIo) (sync : SyncIo)

/-- The state after an action. -/
def syncNext (s : SyncSys π μ) : SyncAct → SyncSys π μ
  | .chainSync io => chainSync io s
  | .chainIns io => chainIns io s
  | .chainDes io => chainDes io s
  | .fullSync ins des sync => chainSync sync (indexSync ins des s)

/-- The step of the system. -/
def SyncStep (s : SyncSys π μ) (a : SyncAct) (t : SyncSys π μ) : Prop := t = syncNext s a

/-! ## What the flags record -/

/-- The union has the form that `op_flags` says. -/
def InodeArea.Fits : InodeArea → Bool → Prop
  | .zeroed, _ => True
  | .embedded, directdata => directdata = true
  | .blockset, directdata => directdata = false

/-- The chain holds the inode's meta-data, no data past its end, and a union of the right form. -/
structure DataAgrees (s : SyncSys π μ) : Prop where
  imeta : s.media.imeta = s.ip.imeta
  chains : ∀ k ∈ s.media.chains, k < roundupBlock s.ip.imeta.size
  area : s.media.area.Fits s.ip.imeta.directdata
  intact : s.media.intact = true

/-- The media agrees with memory, for an inode that is deleted (`gone`) or is not. -/
structure Agrees (gone : Bool) (s : SyncSys π μ) : Prop where
  data : DataAgrees s
  index : s.media.indexed = !gone

/-- The differences that pending work of the frontend leaves: chains past the end only after a
truncation, embedded data only after an extension, an inode out of the index only before its
insertion or after its deletion. -/
structure Recorded (gone : Bool) (s : SyncSys π μ) : Prop where
  imeta : s.ip.dirty = false → s.media.imeta = s.ip.imeta
  chains : (s.ip.resized = true ∧ s.ip.imeta.size < s.ip.osize) ∨
    ∀ k ∈ s.media.chains, k < roundupBlock s.ip.imeta.size
  area : s.ip.outgrows = true ∨ s.media.area.Fits s.ip.imeta.directdata
  identity : s.media.imeta.pfsroot = true → s.media.imeta.pfs = s.ip.imeta.pfs
  deleting : s.ip.deleting = true → gone = true
  index : s.media.indexed = (!s.ip.creating && (s.ip.deleting || !gone))
  intact : s.media.intact = true

/-- Every operation of the meta-data backend succeeds. -/
def SyncIo.Clean (io : SyncIo) : Prop :=
  io.parent = some 0 ∧ io.undeleted = [] ∧ io.lookup = none ∧ io.modify = 0 ∧ io.torn = false

/-- Every operation of the insertion succeeds. -/
def InsIo.Clean (io : InsIo) : Prop := io.iroot = true ∧ io.chain = true ∧ io.create = 0

/-- Every operation of the removal succeeds. -/
def DesIo.Clean (io : DesIo) : Prop :=
  io.chain = true ∧ io.parent = true ∧ io.delete = 0 ∧ io.torn = false

/-- The insertion succeeds, and is not that of an inode whose removal has been done. -/
def InsSucceeds (gone : Bool) (s : SyncSys π μ) (io : InsIo) : Prop :=
  s.ip.creating = true → io.Clean ∧ (gone = true → s.ip.deleting = true)

/-- Every backend call the action makes succeeds. -/
def Succeeds (gone : Bool) (s : SyncSys π μ) : SyncAct → Prop
  | .chainSync io => s.ip.dirty = true → io.Clean
  | .chainIns io => InsSucceeds gone s io
  | .chainDes io => s.ip.deleting = true → io.Clean
  | .fullSync ins des sync => (s.ip.deleting = true → des.Clean) ∧
      (s.ip.deleting = false → InsSucceeds gone s ins) ∧ (s.ip.dirty = true → sync.Clean)

variable {gone : Bool} {s t : SyncSys π μ}

/-! ## What each call leaves alone -/

/-- The meta-data update leaves the index. -/
theorem xopInodeChainSync_indexed (x : SyncXop π μ) (io : SyncIo) (m : MediaInode π μ) :
    (xopInodeChainSync x io m).1.indexed = m.indexed := by
  have htr : (x.truncate io { m with intact := m.intact && !io.torn }).1.indexed = m.indexed := by
    unfold SyncXop.truncate
    split <;> rfl
  unfold xopInodeChainSync
  split
  · rfl
  · split
    · rfl
    · dsimp only
      split
      · exact htr
      · split
        · exact htr
        · exact htr

/-- The insertion writes the index alone, and only adds to it. -/
theorem xopInodeCreateIns_eq (io : InsIo) (m : MediaInode π μ) :
    (xopInodeCreateIns io m).1 = m ∨ (xopInodeCreateIns io m).1 = { m with indexed := true } := by
  unfold xopInodeCreateIns
  split
  · exact .inl rfl
  · split
    · exact .inl rfl
    · split
      · exact .inl rfl
      · split
        · exact .inl rfl
        · exact .inr rfl

/-- The removal writes the index alone, and only takes from it. -/
theorem xopInodeDestroy_eq (io : DesIo) (creating : Bool) (m : MediaInode π μ) :
    (xopInodeDestroy io creating m).1 = m ∨
      (xopInodeDestroy io creating m).1 = { m with indexed := false } := by
  unfold xopInodeDestroy
  split
  · exact .inl rfl
  · split
    · exact .inl rfl
    · dsimp only
      split
      · exact .inr rfl
      · exact .inl rfl

variable {io sync : SyncIo} {ins : InsIo} {des : DesIo} {a : SyncAct} {x : SyncXop π μ}

theorem chainSync_idle (h : ¬ s.ip.dirty = true) : chainSync io s = s := if_neg h

theorem chainIns_idle {io : InsIo} (h : ¬ s.ip.creating = true) : chainIns io s = s := if_neg h

theorem chainDes_idle {io : DesIo} (h : ¬ s.ip.deleting = true) : chainDes io s = s := if_neg h

@[simp] theorem chainSync_creating (io : SyncIo) (s : SyncSys π μ) :
    (chainSync io s).ip.creating = s.ip.creating := by
  unfold chainSync
  split <;> rfl

@[simp] theorem chainSync_deleting (io : SyncIo) (s : SyncSys π μ) :
    (chainSync io s).ip.deleting = s.ip.deleting := by
  unfold chainSync
  split <;> rfl

@[simp] theorem chainSync_indexed (io : SyncIo) (s : SyncSys π μ) :
    (chainSync io s).media.indexed = s.media.indexed := by
  unfold chainSync
  split
  · exact xopInodeChainSync_indexed _ _ _
  · rfl

/-- A change of the index entry alone: its two flags in memory and its presence on the media. -/
structure IndexOnly (s t : SyncSys π μ) : Prop where
  imeta : t.ip.imeta = s.ip.imeta
  osize : t.ip.osize = s.ip.osize
  resized : t.ip.resized = s.ip.resized
  modified : t.ip.modified = s.ip.modified
  media : ∃ indexed, t.media = { s.media with indexed }

/-- The insertion changes the index only. -/
theorem chainIns_indexOnly (io : InsIo) (s : SyncSys π μ) : IndexOnly s (chainIns io s) := by
  unfold chainIns
  split
  · refine ⟨rfl, rfl, rfl, rfl, ?_⟩
    rcases xopInodeCreateIns_eq io s.media with h | h
    · exact ⟨_, h⟩
    · exact ⟨_, h⟩
  · exact ⟨rfl, rfl, rfl, rfl, _, rfl⟩

/-- So does the deletion. -/
theorem chainDes_indexOnly (io : DesIo) (s : SyncSys π μ) : IndexOnly s (chainDes io s) := by
  unfold chainDes
  split
  · refine ⟨rfl, rfl, rfl, rfl, ?_⟩
    rcases xopInodeDestroy_eq io s.ip.creating s.media with h | h
    · exact ⟨_, h⟩
    · exact ⟨_, h⟩
  · exact ⟨rfl, rfl, rfl, rfl, _, rfl⟩

theorem IndexOnly.dirty (h : IndexOnly s t) : t.ip.dirty = s.ip.dirty := by
  rw [SyncInode.dirty, SyncInode.dirty, h.resized, h.modified]

theorem IndexOnly.outgrows (h : IndexOnly s t) : t.ip.outgrows = s.ip.outgrows := by
  rw [SyncInode.outgrows, SyncInode.outgrows, h.resized, h.imeta]

/-! ## Calls that succeed -/

/-- A truncation in which nothing fails. -/
theorem truncate_clean (hio : io.Clean) (m : MediaInode π μ) :
    (x.truncate io m).2 = 0 ∧ (x.truncate io m).1 = { m with
      chains := if x.truncates then m.chains.filter (· < roundupBlock x.imeta.size)
        else m.chains } := by
  obtain ⟨-, hun, hlk, -, -⟩ := hio
  unfold SyncXop.truncate
  split
  · simp [truncateChains, hun, hlk]
  · exact ⟨rfl, rfl⟩

/-- A meta-data update in which nothing fails. -/
theorem xopInodeChainSync_clean (hio : io.Clean) (m : MediaInode π μ) :
    (xopInodeChainSync x io m).1 = x.store (x.truncate io m).1 := by
  have herr := (truncate_clean (x := x) hio m).1
  obtain ⟨hp, -, -, hmod, ht⟩ := hio
  simp [xopInodeChainSync, hp, hmod, herr, ht]

theorem settle_imeta_size (ip : SyncInode π μ) : ip.settle.imeta.size = ip.imeta.size := by
  unfold SyncInode.settle
  dsimp only
  split <;> rfl

theorem settle_imeta_pfs (ip : SyncInode π μ) : ip.settle.imeta.pfs = ip.imeta.pfs := by
  unfold SyncInode.settle
  dsimp only
  split <;> rfl

theorem settle_imeta_of_not_outgrows {ip : SyncInode π μ} (h : ip.outgrows = false) :
    ip.settle.imeta = ip.imeta := by
  simp [SyncInode.settle, h]

/-- A meta-data call that succeeds brings the chain up to the inode. -/
theorem Recorded.dataAgrees_chainSync (h : Recorded gone s) (hio : io.Clean)
    (hd : s.ip.dirty = true) : DataAgrees (chainSync io s) := by
  have hmedia : (chainSync io s).media = s.ip.request.store
    (s.ip.request.truncate io s.media).1 := by
    rw [chainSync, if_pos hd]
    exact xopInodeChainSync_clean hio _
  have hip : (chainSync io s).ip = s.ip.settle := by rw [chainSync, if_pos hd]
  have htr := (truncate_clean (x := s.ip.request) hio s.media).2
  rw [htr] at hmedia
  refine ⟨?_, ?_, ?_, by rw [hmedia]; exact h.intact⟩
  · -- the identity of a PFS root is the one memory holds
    rw [hmedia, hip]
    have hpfs : (if s.media.imeta.pfsroot then s.media.imeta.pfs else s.ip.settle.imeta.pfs) =
        s.ip.settle.imeta.pfs := by
      split
      · next hr => rw [h.identity hr, settle_imeta_pfs]
      · rfl
    show s.ip.settle.imeta.keepIdentity s.media.imeta = s.ip.settle.imeta
    rw [InodeMeta.keepIdentity, hpfs]
  · rw [hmedia, hip, settle_imeta_size]
    intro k hk
    simp only [SyncXop.store] at hk
    by_cases htc : s.ip.request.truncates = true
    · rw [if_pos htc, List.mem_filter] at hk
      simpa [SyncInode.request, settle_imeta_size] using hk.2
    · rw [if_neg htc] at hk
      refine h.chains.resolve_left (fun hr => htc ?_) k hk
      simp [SyncXop.truncates, SyncInode.request, settle_imeta_size, hr.1, hr.2]
  · rw [hmedia, hip]
    simp only [SyncXop.store]
    by_cases hc : s.ip.request.clearDirectdata = true
    · rw [if_pos hc]
      trivial
    · have ho : s.ip.outgrows = false := by
        simp only [SyncInode.request, Bool.or_eq_true, not_or, Bool.not_eq_true] at hc
        exact hc.1
      rw [if_neg hc, settle_imeta_of_not_outgrows ho]
      exact h.area.resolve_left (by simp [ho])

/-- A clean meta-data update keeps the record of what is owed. -/
theorem Recorded.chainSync (h : Recorded gone s) (hio : s.ip.dirty = true → io.Clean) :
    Recorded gone (chainSync io s) := by
  by_cases hd : s.ip.dirty = true
  · have hda := h.dataAgrees_chainSync (hio hd) hd
    exact ⟨fun _ => hda.imeta, .inr hda.chains, .inr hda.area, fun _ => by rw [hda.imeta],
      by simpa using h.deleting, by simpa using h.index, hda.intact⟩
  · rw [chainSync_idle hd]
    exact h

/-- The part of `Recorded` that is about the inode's own data is kept by a change of the index. -/
theorem Recorded.indexOnly (h : Recorded gone s) (hio : IndexOnly s t)
    (hdel : t.ip.deleting = true → gone = true)
    (hidx : t.media.indexed = (!t.ip.creating && (t.ip.deleting || !gone))) : Recorded gone t := by
  obtain ⟨indexed, hm⟩ := hio.media
  refine ⟨fun hd => ?_, ?_, ?_, ?_, hdel, hidx, by rw [hm]; exact h.intact⟩
  · rw [hm, hio.imeta]
    exact h.imeta (hio.dirty ▸ hd)
  · rw [hm, hio.imeta, hio.osize, hio.resized]
    exact h.chains
  · rw [hm, hio.imeta, hio.outgrows]
    exact h.area
  · rw [hm, hio.imeta]
    exact h.identity

/-- An insertion that succeeds keeps the record. -/
theorem Recorded.chainIns {io : InsIo} (h : Recorded gone s) (hio : InsSucceeds gone s io) :
    Recorded gone (chainIns io s) := by
  by_cases hc : s.ip.creating = true
  · obtain ⟨⟨hr, hch, hcr⟩, hgone⟩ := hio hc
    have hi : s.media.indexed = false := by simp [h.index, hc]
    have hmedia : (xopInodeCreateIns io s.media).1 = { s.media with indexed := true } := by
      simp [xopInodeCreateIns, hr, hch, hcr, hi]
    refine h.indexOnly (chainIns_indexOnly io s) ?_ ?_
    · rw [Hammer2.chainIns, if_pos hc]
      exact h.deleting
    · rw [Hammer2.chainIns, if_pos hc, hmedia]
      cases gone with
      | false => simp
      | true => simp [hgone rfl]
  · rw [chainIns_idle hc]
    exact h

/-- So does a clean deletion. -/
theorem Recorded.chainDes {io : DesIo} (h : Recorded gone s)
    (hio : s.ip.deleting = true → io.Clean) : Recorded gone (chainDes io s) := by
  by_cases hd : s.ip.deleting = true
  · obtain ⟨hch, hp, hdl, -⟩ := hio hd
    have hmedia : (xopInodeDestroy io s.ip.creating s.media).1 =
        { s.media with indexed := false } := by
      simp [xopInodeDestroy, hch, hp, hdl]
    refine h.indexOnly (chainDes_indexOnly io s) ?_ ?_
    · rw [Hammer2.chainDes, if_pos hd]
      exact fun hf => nomatch hf
    · rw [Hammer2.chainDes, if_pos hd, hmedia]
      simp [h.deleting hd]
  · rw [chainDes_idle hd]
    exact h

/-- So do the two together. -/
theorem Recorded.indexSync (h : Recorded gone s) (hdes : s.ip.deleting = true → des.Clean)
    (hins : s.ip.deleting = false → InsSucceeds gone s ins) :
    Recorded gone (indexSync ins des s) := by
  unfold Hammer2.indexSync
  split
  · exact h.chainDes hdes
  · next hd => exact h.chainIns (hins (by simpa using hd))

/-- The two change the index only. -/
theorem indexSync_indexOnly (ins : InsIo) (des : DesIo) (s : SyncSys π μ) :
    IndexOnly s (indexSync ins des s) := by
  unfold indexSync
  split
  · exact chainDes_indexOnly des s
  · exact chainIns_indexOnly ins s

/-- An action whose backend calls succeed leaves no difference unrecorded. -/
theorem Recorded.next (h : Recorded gone s) (ha : Succeeds gone s a) :
    Recorded gone (syncNext s a) := by
  cases a with
  | chainSync io => exact h.chainSync ha
  | chainIns io => exact h.chainIns ha
  | chainDes io => exact h.chainDes ha
  | fullSync ins des sync =>
    obtain ⟨hdes, hins, hsync⟩ := ha
    refine (h.indexSync hdes hins).chainSync fun hd => hsync ?_
    rwa [(indexSync_indexOnly ins des s).dirty] at hd

/-- Where no flag is up and every difference is recorded, there is none. -/
theorem Recorded.agrees (h : Recorded gone s) (hd : s.ip.dirty = false)
    (hi : (if gone then s.ip.deleting else s.ip.creating) = false) : Agrees gone s := by
  have hr : s.ip.resized = false := by simp_all [SyncInode.dirty]
  refine ⟨⟨h.imeta hd, h.chains.resolve_left (by simp [hr]), h.area.resolve_left ?_, h.intact⟩, ?_⟩
  · simp [SyncInode.outgrows, hr]
  · have hidx := h.index
    cases gone with
    | true => simpa [show s.ip.deleting = false from hi] using hidx
    | false => simpa [show s.ip.creating = false from hi] using hidx

/-! ## Runs -/

theorem chainIns_deleting (io : InsIo) (s : SyncSys π μ) :
    (chainIns io s).ip.deleting = s.ip.deleting := by
  unfold chainIns
  split <;> rfl

/-- After a deletion none is pending. -/
theorem chainDes_deleting (io : DesIo) (s : SyncSys π μ) : (chainDes io s).ip.deleting = false := by
  unfold chainDes
  split
  · rfl
  · next h => simpa using h

/-- After a meta-data update none is pending. -/
theorem dirty_chainSync (io : SyncIo) (s : SyncSys π μ) : (chainSync io s).ip.dirty = false := by
  unfold chainSync
  split
  · rfl
  · next h => simpa using h

/-- A full sync leaves no flag of pending work up. -/
theorem indexPending_fullSync (hdel : s.ip.deleting = true → gone = true) :
    (if gone then (syncNext s (.fullSync ins des sync)).ip.deleting
      else (syncNext s (.fullSync ins des sync)).ip.creating) = false := by
  have hgone : gone = true → (indexSync ins des s).ip.deleting = false := by
    intro _
    unfold indexSync
    split
    · exact chainDes_deleting des s
    · next h => rw [chainIns_deleting]; simpa using h
  have hlive : gone = false → (indexSync ins des s).ip.creating = false := by
    rintro rfl
    have hd : ¬ s.ip.deleting = true := fun h => nomatch hdel h
    rw [indexSync, if_neg hd, chainIns]
    split
    · rfl
    · next h => simpa using h
  cases gone with
  | true => simpa [syncNext] using hgone rfl
  | false => simpa [syncNext] using hlive rfl

/-- **When a sync is as good as retried.** From a state whose differences the flags record, a run of
the three calls and full syncs that ends with a full sync leaves the media in agreement with memory,
if every backend operation of the calls it makes succeeds. -/
theorem inodeSync_agrees {as : List SyncAct} {ins : InsIo} {des : DesIo} {sync : SyncIo}
    (hs : Recorded gone s)
    (hrun : RunMeets SyncStep (Succeeds gone) s (as ++ [.fullSync ins des sync]) t) :
    Agrees gone t := by
  have hrec : ∀ {as s t}, RunMeets SyncStep (Succeeds gone) s as t → Recorded gone s →
      Recorded gone (t : SyncSys π μ) := fun h =>
    h.invariant fun hr hok hst => by cases hst; exact hr.next hok
  have hend := hrec hrun hs
  -- the last step takes every flag of pending work down
  obtain ⟨u, hpre, hlast⟩ := RunMeets.of_append hrun
  have hu := hrec hpre hs
  cases hlast with
  | cons _ hst hnil =>
    cases hnil
    cases hst
    exact hend.agrees (dirty_chainSync _ _) (indexPending_fullSync hu.deleting)

end

/-! ## A run that loses work -/

/-- A new file of 600 bytes that was written 40 bytes long before: its data stand in the inode
still, and the inode is not in the index. -/
def grownSys : SyncSys Unit Unit where
  ip :=
    { imeta := ⟨600, true, false, (), ()⟩, osize := 40, resized := true, modified := true
      creating := true, deleting := false }
  media := { imeta := ⟨40, true, false, (), ()⟩, chains := [], area := .embedded, indexed := false
             intact := true }

/-- Backends that meet no failure. -/
def insOk : InsIo := ⟨true, true, 0⟩

/-- See `insOk`. -/
def desOk : DesIo := ⟨true, true, 0, false⟩

/-- See `insOk`. -/
def syncOk : SyncIo := ⟨some 0, [], none, 0, false⟩

/-- The full sync whose insertion and meta-data update find no space. -/
def failedSync : SyncAct :=
  .fullSync ⟨true, true, errorEnospc⟩ desOk ⟨some 0, [], none, errorEnospc, false⟩

/-- The inode of the example. -/
theorem grownSys_recorded : Recorded false grownSys where
  imeta h := nomatch h
  chains := .inr fun _ h => nomatch h
  area := .inl rfl
  identity h := nomatch h
  deleting h := nomatch h
  index := rfl
  intact := rfl

/-- A full sync in which nothing fails brings the media up to the file that has outgrown its
inode. -/
theorem inodeSync_agrees_grown :
    Agrees false (syncNext grownSys (.fullSync insOk desOk syncOk)) := by
  have hok : Succeeds false grownSys (.fullSync insOk desOk syncOk) :=
    ⟨fun _ => ⟨rfl, rfl, rfl, rfl⟩, fun _ _ => ⟨⟨rfl, rfl, rfl⟩, fun h => (nomatch h)⟩,
      fun _ => ⟨rfl, rfl, rfl, rfl, rfl⟩⟩
  have hrun : RunMeets SyncStep (Succeeds false) grownSys ([] ++ [.fullSync insOk desOk syncOk])
      (syncNext grownSys (.fullSync insOk desOk syncOk)) := .cons hok rfl (.nil _)
  exact inodeSync_agrees grownSys_recorded hrun

/-- After a full sync that failed and one that did not, the inode has its old meta-data and its old
data where the block table should be, and is in no index. -/
theorem inodeSync_not_retried : Recorded false grownSys ∧
    insOk.Clean ∧ desOk.Clean ∧ syncOk.Clean ∧
    ∃ t, Run SyncStep grownSys [failedSync, .fullSync insOk desOk syncOk] t ∧
      t.media.imeta ≠ t.ip.imeta ∧ ¬ t.media.area.Fits t.ip.imeta.directdata ∧
      t.media.indexed = false ∧ ¬ Agrees false t := by
  refine ⟨grownSys_recorded, ⟨rfl, rfl, rfl⟩, ⟨rfl, rfl, rfl, rfl⟩, ⟨rfl, rfl, rfl, rfl, rfl⟩, _,
    .cons trivial rfl (.cons trivial rfl (.nil _)), ?_, ?_, rfl, ?_⟩
  · decide
  · exact fun h => nomatch h
  · exact fun h => nomatch h.index

end Hammer2
