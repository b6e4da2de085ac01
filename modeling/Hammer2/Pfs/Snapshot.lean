import Hammer2.Strategy.Isolation

/-!
# Snapshots that report success

`hammer2_pfs_snapshot` syncs the PFS, advances `pfs_lsnap_tid`, makes a new PFS root, copies the
cached blockset of the root into it and flushes it. Whether the sync wrote everything is not looked
at, and neither is the result of the new root's flush. A later write leaves the storage of the
snapshot alone because `hammer2_chain_modify` takes new storage for what is older than
`pfs_lsnap_tid`.

The elements of a PFS are its blocks: inodes, directory entries, indirect blocks and data. Of an
element the state has what the operations that have returned made of it, its chain, the storage that
the root's blockset names for it, and the storage that the cached blockset does. A snapshot is kept
with what the elements held when it was called for.

Reference: `hammer2_ioctl.c:936-1236`, `hammer2_flush.c:1135-1187`, `hammer2_vfsops.c:3054-3375`,
`hammer2_chain.c:1412-1661`.
-/

namespace Hammer2

open Transition

/-- A PFS and its snapshots, on the chosen element of the cluster. -/
structure SnapPfs (ι γ κ : Type*) where
  pool : Pool γ
  /-- What the operations that have returned made of the elements; `none` is one that is not
  there. -/
  front : ι → Option γ
  chain : ι → Option (Chain κ)
  /-- The storage named by the blockset of the root's chain. -/
  root : ι → Option Nat
  /-- `pmp->pfs_iroot_blocksets[clindex]`. -/
  slot : ι → Option Nat
  /-- The snapshots that were reported: the storage named by the new PFS root on the device, and
  what the elements held at the call. -/
  snaps : List ((ι → Option Nat) × (ι → Option γ))
  /-- The storage that has been recorded for deduplication. -/
  dedup : List Nat
  /-- `pmp->modify_tid`. -/
  tid : Nat
  /-- The storage that has been allocated. -/
  used : List Nat

/-- How the sync of one element goes: whether its write-back and chain sync succeed and with which
storage, and whether its flush and that of the root up to it do. `new` is what its chain is made of
if it has none. -/
structure ElementIo (ι κ : Type*) where
  elem : ι
  new : Chain κ
  write : Bool
  alloc : Option Nat
  flush : Bool

/-- How the calls of `hammer2_pfs_snapshot` after the sync go. -/
structure SnapIo where
  /-- `hammer2_inode_chain` of the root gives the element's chain. -/
  chain : Bool
  /-- `hammer2_inode_create_pfs`. -/
  create : Bool
  /-- `hammer2_chain_modify` of the new root. -/
  modify : Bool
  /-- The source chain is read again. -/
  reread : Bool
  /-- `hammer2_inode_chain_flush` of the new root. -/
  flush : Bool
  /-- The new root is read back. -/
  readback : Bool
  deriving DecidableEq

/-- `hammer2_pfs_snapshot` returns 0: the result of the flush is not looked at. -/
def SnapIo.succeeds (io : SnapIo) : Bool :=
  io.chain && io.create && io.modify && io.reread && io.readback

/-- One operation on the PFS. -/
inductive PfsSnapAct (ι γ κ : Type*)
  /-- An operation returns and has made this of the element. -/
  | op (i : ι) (v : Option γ)
  /-- The element is written back. -/
  | put (i : ι) (new : Chain κ) (alloc : Option Nat)
  /-- The element is written back, and its content is found on the device. -/
  | hit (i : ι) (new : Chain κ) (off : Nat)
  /-- The element's storage is recorded for deduplication. -/
  | record (i : ι)
  | flush (i : ι)
  | evict (i : ι)
  | snapshot (l : List (ElementIo ι κ)) (io : SnapIo)

namespace SnapPfs
variable {ι γ κ : Type*}

/-- What the element's chain holds. -/
def content (s : SnapPfs ι γ κ) (i : ι) : Option γ := (s.chain i).map fun c =>
  s.pool.storage c.dataOff

/-- `newmod`: the chain has to take new storage. -/
def cows (s : SnapPfs ι γ κ) (c : Chain κ) : Bool := newmod { s.pool with chain := c }

variable [DecidableEq ι]

/-- The modified chain of an element, and its content in the chain's storage. -/
def store (s : SnapPfs ι γ κ) (i : ι) (c : Chain κ) (v : γ) : SnapPfs ι γ κ :=
  { s with
    chain := Function.update s.chain i
      (some { c with modified := true, update := true, dedupable := false, modifyTid := s.tid + 1 })
    pool.storage := Function.update s.pool.storage c.dataOff v
    tid := s.tid + 1
    used := c.dataOff :: s.used }

/-- The write-back of an element. Without storage it fails and the chain stays as it is, unless the
device is in the emergency mode. -/
def put (new : Chain κ) (alloc : Option Nat) (s : SnapPfs ι γ κ) (i : ι) : SnapPfs ι γ κ :=
  match s.front i with
  | none => { s with chain := Function.update s.chain i none, tid := s.tid + 1 }
  | some v =>
    match s.chain i with
    | none =>
      match alloc with
      | none => s
      | some off => s.store i { new with dataOff := off } v
    | some c =>
      if s.cows c then
        match alloc with
        | none => if s.pool.emerg then s.store i c v else s
        | some off => s.store i { c with dataOff := off } v
      else s.store i c v

/-- The write-back of an element whose content was found at `off`. A chain that keeps its storage is
not given the one found. -/
def hit (new : Chain κ) (off : Nat) (s : SnapPfs ι γ κ) (i : ι) : SnapPfs ι γ κ :=
  let c := (s.chain i).getD new
  let c := { c with update := true, modifyTid := s.tid + 1 }
  let c := if (s.chain i).all s.cows then
    { c with dataOff := off, modified := false, dedupable := true }
    else { c with modified := true }
  { s with chain := Function.update s.chain i (some c), tid := s.tid + 1 }

/-- The flush of an element, up to the root's blockset. -/
def flushOne (s : SnapPfs ι γ κ) (i : ι) : SnapPfs ι γ κ :=
  { s with
    chain := Function.update s.chain i ((s.chain i).map Chain.flushed)
    root := Function.update s.root i ((s.chain i).map (·.dataOff)) }

variable [DecidableEq γ]

/-- The sync of one element: its errors are reported to the inode's mapping and go no further. -/
def syncOne (s : SnapPfs ι γ κ) (io : ElementIo ι κ) : SnapPfs ι γ κ :=
  let s := if io.write && s.content io.elem ≠ s.front io.elem then
    s.put io.new io.alloc io.elem else s
  if io.flush then s.flushOne io.elem else s

/-- `hammer2_vfs_sync_pmp`: the elements that are queued, then the root, whose blockset is
cached. -/
def syncPmp (s : SnapPfs ι γ κ) (l : List (ElementIo ι κ)) : SnapPfs ι γ κ :=
  let s := l.foldl syncOne s
  { s with slot := s.root }

/-- `hammer2_pfs_snapshot` without `NOSYNC`. -/
def snapshot (s : SnapPfs ι γ κ) (l : List (ElementIo ι κ)) (io : SnapIo) : SnapPfs ι γ κ :=
  let t := s.syncPmp l
  let t := { t with tid := t.tid + 1, pool.lsnapTid := t.tid + 1 }
  if io.succeeds then
    { t with snaps := t.snaps ++ [(if io.flush then t.slot else fun _ => none, s.front)] }
  else t

/-- The state after an operation. -/
def next (s : SnapPfs ι γ κ) : PfsSnapAct ι γ κ → SnapPfs ι γ κ
  | .op i v => { s with front := Function.update s.front i v }
  | .put i new alloc => s.put new alloc i
  | .hit i new off => s.hit new off i
  | .record i =>
    { s with
      chain := Function.update s.chain i ((s.chain i).map fun c => { c with dedupable := true })
      dedup := ((s.chain i).map (·.dataOff)).toList ++ s.dedup }
  | .flush i => s.flushOne i
  | .evict i =>
    { s with chain := Function.update s.chain i ((s.chain i).map fun c =>
      if c.modified || c.update then c else c.reloaded) }
  | .snapshot l io => s.snapshot l io

/-- The storage that a sync gets. -/
def allocs (l : List (ElementIo ι κ)) : List Nat := l.filterMap (·.alloc)

/-- The answers that an operation may get: storage that has not been used, a hit on recorded storage
that holds the very content, and a record of storage that has a check code. -/
def Answers (s : SnapPfs ι γ κ) : PfsSnapAct ι γ κ → Prop
  | .put _ _ alloc => ∀ off ∈ alloc, off ∉ s.used
  | .hit i _ off => off ∈ s.dedup ∧ s.front i = some (s.pool.storage off)
  | .record i => ∀ c ∈ s.chain i, c.check ≠ .none
  | .snapshot l _ => (allocs l).Nodup ∧ ∀ off ∈ allocs l, off ∉ s.used
  | .op _ _ | .flush _ | .evict _ => True

/-- A step of the PFS. -/
def Step (s : SnapPfs ι γ κ) (a : PfsSnapAct ι γ κ) (t : SnapPfs ι γ κ) : Prop :=
  s.Answers a ∧ t = s.next a

/-- The element is in the root's blockset as the last operation left it, and its chain is clean. -/
structure Synced (s : SnapPfs ι γ κ) (i : ι) : Prop where
  content : s.content i = s.front i
  clean : ∀ c, s.chain i = some c → c.modified = false
  root : s.root i = (s.chain i).map (·.dataOff)

/-- Outside of the emergency mode, a hit falls to an element with a check code whose chain takes new
storage, and a snapshot that reports success has synced every element that was not and has flushed
the new root. -/
def Meets (s : SnapPfs ι γ κ) : PfsSnapAct ι γ κ → Prop
  | .put _ _ _ => s.pool.emerg = false
  | .hit i new _ => ((s.chain i).getD new).check ≠ .none ∧ (s.chain i).all s.cows = true
  | .snapshot l io => s.pool.emerg = false ∧ (io.succeeds = true → io.flush = true ∧
      (∀ e ∈ l, e.write = true ∧ e.alloc.isSome = true ∧ e.flush = true) ∧
      ∀ i, ¬ s.Synced i → ∃ e ∈ l, e.elem = i)
  | .op _ _ | .record _ | .flush _ | .evict _ => True

/-- Every snapshot that was reported reads as the elements were at its call. -/
def Complete (s : SnapPfs ι γ κ) : Prop :=
  ∀ p ∈ s.snaps, ∀ i, (p.1 i).map s.pool.storage = p.2 i

/-! ## The invariant -/

/-- The snapshots are complete, and storage that may be overwritten where it lies is named once. The
exception is a snapshot, whose storage is not overwritten because of its age. -/
structure Inv (s : SnapPfs ι γ κ) : Prop where
  complete : s.Complete
  lsnapTid : s.pool.lsnapTid ≤ s.tid
  modifyTid : ∀ i c, s.chain i = some c → c.modifyTid ≤ s.tid
  exclusive : ∀ i c, s.chain i = some c → c.Exclusive → c.dataOff ∉ s.dedup ∧
    ∀ j d, j ≠ i → s.chain j = some d → d.dataOff ≠ c.dataOff
  aged : ∀ i c, s.chain i = some c → c.Exclusive → ∀ p ∈ s.snaps, ∀ j, p.1 j = some c.dataOff →
    c.modified = false ∧ c.modifyTid ≤ s.pool.lsnapTid
  chain_used : ∀ i c, s.chain i = some c → c.dataOff ∈ s.used
  snap_used : ∀ p ∈ s.snaps, ∀ j off, p.1 j = some off → off ∈ s.used
  dedup_used : ∀ off ∈ s.dedup, off ∈ s.used

omit [DecidableEq ι] [DecidableEq γ] in
/-- A chain that is overwritten where it lies is exclusive, and not in a snapshot. -/
theorem Inv.of_not_cows {s : SnapPfs ι γ κ} (h : s.Inv) (hem : s.pool.emerg = false) {i : ι}
    {c : Chain κ} (hc : s.chain i = some c) (hno : s.cows c = false) :
    c.Exclusive ∧ ∀ p ∈ s.snaps, ∀ j, p.1 j ≠ some c.dataOff := by
  have hexcl : c.Exclusive := by
    unfold cows newmod at hno
    unfold Chain.Exclusive
    grind
  refine ⟨hexcl, fun p hp j hj => ?_⟩
  obtain ⟨hmod, hold⟩ := h.aged i c hc hexcl p hp j hj
  unfold cows newmod at hno
  grind

section
variable {s : SnapPfs ι γ κ} {i j : ι}

/-- No other element, no snapshot and no entry of the dedup table names the storage at `off`. -/
structure Alone (s : SnapPfs ι γ κ) (i : ι) (off : Nat) : Prop where
  chain : ∀ j d, j ≠ i → s.chain j = some d → d.dataOff ≠ off
  snaps : ∀ p ∈ s.snaps, ∀ j, p.1 j ≠ some off
  dedup : off ∉ s.dedup

variable {off : Nat} {c : Chain κ} {e : ElementIo ι κ} {t : SnapPfs ι γ κ}
  {l : List (ElementIo ι κ)}

section
omit [DecidableEq γ]

omit [DecidableEq ι] in
/-- Storage not in use is nobody's. -/
theorem Inv.alone_of_fresh (h : s.Inv) (hoff : off ∉ s.used) : s.Alone i off where
  chain j d _ hd heq := hoff (heq ▸ h.chain_used j d hd)
  snaps p hp j hj := hoff (h.snap_used p hp j off hj)
  dedup hmem := hoff (h.dedup_used off hmem)

omit [DecidableEq ι] in
/-- A chain that is modified in place has its storage alone. -/
theorem Inv.alone_of_not_cows (h : s.Inv) (hem : s.pool.emerg = false) (hc : s.chain i = some c)
    (hno : s.cows c = false) : s.Alone i c.dataOff := by
  obtain ⟨hexcl, hsnaps⟩ := h.of_not_cows hem hc hno
  exact ⟨(h.exclusive i c hc hexcl).2, hsnaps, (h.exclusive i c hc hexcl).1⟩

/-- The three ends of a write-back: it fails for want of storage, it removes the chain, or it stores
the content where nothing else is. -/
theorem Inv.put_cases (h : s.Inv) (hem : s.pool.emerg = false) {new : Chain κ} {alloc : Option Nat}
    (halloc : ∀ off ∈ alloc, off ∉ s.used) :
    alloc = none ∧ s.put new alloc i = s ∨
    s.front i = none ∧
      s.put new alloc i = { s with chain := Function.update s.chain i none, tid := s.tid + 1 } ∨
    ∃ v c, s.front i = some v ∧ s.put new alloc i = s.store i c v ∧ s.Alone i c.dataOff ∧
      (c.dataOff ∈ s.used ∨ c.dataOff ∈ alloc) := by
  unfold put
  cases hf : s.front i with
  | none => exact .inr (.inl ⟨rfl, rfl⟩)
  | some v =>
    cases hc : s.chain i with
    | none =>
      cases alloc with
      | none => exact .inl ⟨rfl, rfl⟩
      | some off =>
        exact .inr (.inr ⟨v, _, rfl, rfl, h.alone_of_fresh (halloc off rfl), .inr rfl⟩)
    | some c =>
      cases hcow : s.cows c with
      | false =>
        exact .inr (.inr ⟨v, c, rfl, by simp [hcow], h.alone_of_not_cows hem hc hcow,
          .inl (h.chain_used i c hc)⟩)
      | true =>
        cases alloc with
        | none => exact .inl ⟨rfl, by simp [hcow, hem]⟩
        | some off =>
          exact .inr (.inr ⟨v, { c with dataOff := off }, rfl, by simp only [hcow, if_true],
            h.alone_of_fresh (halloc off rfl), .inr rfl⟩)

/-- A store into storage of its own keeps the invariant. -/
theorem Inv.store (h : s.Inv) {v : γ} (hal : s.Alone i c.dataOff) :
    (s.store i c v).Inv := by
  have hchain : ∀ {j d}, (s.store i c v).chain j = some d → j = i ∧ d.dataOff = c.dataOff ∧
      d.modifyTid = s.tid + 1 ∨ j ≠ i ∧ s.chain j = some d := by
    intro j d hd
    by_cases hj : j = i
    · subst hj
      simp only [SnapPfs.store, Function.update_self, Option.some.injEq] at hd
      subst hd
      exact .inl ⟨rfl, rfl, rfl⟩
    · simp only [SnapPfs.store, Function.update_of_ne hj] at hd
      exact .inr ⟨hj, hd⟩
  refine
    { complete := fun p hp j => ?_
      lsnapTid := h.lsnapTid.trans (Nat.le_succ _)
      modifyTid := fun j d hd => ?_
      exclusive := fun j d hd hex => ?_
      aged := fun j d hd hex p hp k hk => ?_
      chain_used := fun j d hd => ?_
      snap_used := fun p hp j off hoff => List.mem_cons_of_mem _ (h.snap_used p hp j off hoff)
      dedup_used := fun off hoff => List.mem_cons_of_mem _ (h.dedup_used off hoff) }
  · rw [← h.complete p hp j]
    cases hpj : p.1 j with
    | none => rfl
    | some off =>
      have hne : off ≠ c.dataOff := fun heq => hal.snaps p hp j (heq ▸ hpj)
      simp [SnapPfs.store, Function.update_of_ne hne]
  · rcases hchain hd with ⟨-, -, htid⟩ | ⟨-, hd⟩
    · exact htid.le
    · exact (h.modifyTid j d hd).trans (Nat.le_succ _)
  · rcases hchain hd with ⟨rfl, hoff, -⟩ | ⟨hj, hd⟩
    · rw [hoff]
      refine ⟨hal.dedup, fun k e hk he => ?_⟩
      rcases hchain he with ⟨rfl, -⟩ | ⟨-, he⟩
      · exact absurd rfl hk
      · exact hal.chain k e hk he
    · refine ⟨(h.exclusive j d hd hex).1, fun k e hk he => ?_⟩
      rcases hchain he with ⟨hki, hoff, -⟩ | ⟨-, he⟩
      · rw [hoff]
        exact (hal.chain j d hj hd).symm
      · exact (h.exclusive j d hd hex).2 k e hk he
  · rcases hchain hd with ⟨-, hoff, -⟩ | ⟨-, hd⟩
    · exact absurd (hoff ▸ hk) (hal.snaps p hp k)
    · exact h.aged j d hd hex p hp k hk
  · rcases hchain hd with ⟨-, hoff, -⟩ | ⟨-, hd⟩
    · exact hoff ▸ List.mem_cons_self
    · exact List.mem_cons_of_mem _ (h.chain_used j d hd)

/-- Removing a chain keeps it. -/
theorem Inv.remove (h : s.Inv) :
    Inv { s with chain := Function.update s.chain i none, tid := s.tid + 1 } := by
  have hchain : ∀ {j d}, Function.update s.chain i none j = some d → s.chain j = some d := by
    intro j d hd
    by_cases hj : j = i
    · subst hj
      simp at hd
    · rwa [Function.update_of_ne hj] at hd
  exact
    { complete := h.complete
      lsnapTid := h.lsnapTid.trans (Nat.le_succ _)
      modifyTid := fun j d hd => (h.modifyTid j d (hchain hd)).trans (Nat.le_succ _)
      exclusive := fun j d hd hex => ⟨(h.exclusive j d (hchain hd) hex).1, fun k e hk he =>
        (h.exclusive j d (hchain hd) hex).2 k e hk (hchain he)⟩
      aged := fun j d hd => h.aged j d (hchain hd)
      chain_used := fun j d hd => h.chain_used j d (hchain hd)
      snap_used := h.snap_used
      dedup_used := h.dedup_used }

/-- A modify keeps it, in place or copied. -/
theorem Inv.put (h : s.Inv) (hem : s.pool.emerg = false) {new : Chain κ} {alloc : Option Nat}
    (halloc : ∀ off ∈ alloc, off ∉ s.used) : (s.put new alloc i).Inv := by
  rcases h.put_cases hem halloc with ⟨-, heq⟩ | ⟨-, heq⟩ | ⟨v, c, -, heq, hal, -⟩
  · rwa [heq]
  · rw [heq]
    exact h.remove
  · rw [heq]
    exact h.store hal

/-- Another chain for an element, and more recorded storage: what is exclusive afterwards was so
before, and is not the storage recorded. -/
theorem Inv.replace (h : s.Inv) {t : Option (Chain κ)} {tid : Nat} {r : List Nat}
    (htid : s.tid ≤ tid)
    (hmod : ∀ d, t = some d → d.modifyTid ≤ tid)
    (hex : ∀ d, t = some d → d.Exclusive → ∃ c, s.chain i = some c ∧ c.Exclusive ∧
      d.dataOff = c.dataOff ∧ d.modifyTid = c.modifyTid ∧ (d.modified = true → c.modified = true))
    (hoff : ∀ d, t = some d → d.dataOff ∈ s.dedup ∨ ∃ c, s.chain i = some c ∧ d.dataOff = c.dataOff)
    (hrec : ∀ off ∈ r, (∃ c, s.chain i = some c ∧ c.dataOff = off) ∧
      ∀ d, t = some d → ¬ d.Exclusive) :
    Inv { s with chain := Function.update s.chain i t, tid := tid, dedup := r ++ s.dedup } := by
  have hchain : ∀ {j d}, Function.update s.chain i t j = some d →
      j = i ∧ t = some d ∨ j ≠ i ∧ s.chain j = some d := by
    intro j d hd
    by_cases hj : j = i
    · rw [hj, Function.update_self] at hd
      exact .inl ⟨hj, hd⟩
    · rw [Function.update_of_ne hj] at hd
      exact .inr ⟨hj, hd⟩
  refine
    { complete := h.complete
      lsnapTid := h.lsnapTid.trans htid
      modifyTid := fun j d hd => ?_
      exclusive := fun j d hd hexd => ⟨fun hmem => ?_, fun k e hk he heq => ?_⟩
      aged := fun j d hd hexd p hp k hk => ?_
      chain_used := fun j d hd => ?_
      snap_used := h.snap_used
      dedup_used := fun off hmem => ?_ }
  · rcases hchain hd with ⟨-, hd⟩ | ⟨-, hd⟩
    · exact hmod d hd
    · exact (h.modifyTid j d hd).trans htid
  · rcases hchain hd with ⟨-, hd⟩ | ⟨hj, hd⟩
    · obtain ⟨c, hc, hexc, hdoff, -⟩ := hex d hd hexd
      rcases List.mem_append.1 hmem with hmem | hmem
      · exact (hrec _ hmem).2 d hd hexd
      · exact (h.exclusive i c hc hexc).1 (hdoff ▸ hmem)
    · rcases List.mem_append.1 hmem with hmem | hmem
      · obtain ⟨c, hc, hcoff⟩ := (hrec _ hmem).1
        exact (h.exclusive j d hd hexd).2 i c (Ne.symm hj) hc hcoff
      · exact (h.exclusive j d hd hexd).1 hmem
  · rcases hchain hd with ⟨hji, hd⟩ | ⟨hj, hd⟩
    · obtain ⟨c, hc, hexc, hdoff, -⟩ := hex d hd hexd
      rcases hchain he with ⟨hki, -⟩ | ⟨hki, he⟩
      · exact hk (hki.trans hji.symm)
      · exact (h.exclusive i c hc hexc).2 k e hki he (heq.trans hdoff)
    · rcases hchain he with ⟨-, he⟩ | ⟨-, he⟩
      · rcases hoff e he with hmem | ⟨c, hc, hcoff⟩
        · exact (h.exclusive j d hd hexd).1 (heq ▸ hmem)
        · exact (h.exclusive j d hd hexd).2 i c (Ne.symm hj) hc (hcoff.symm.trans heq)
      · exact (h.exclusive j d hd hexd).2 k e hk he heq
  · rcases hchain hd with ⟨-, hd⟩ | ⟨-, hd⟩
    · obtain ⟨c, hc, hexc, hdoff, hdtid, hdmod⟩ := hex d hd hexd
      obtain ⟨hclean, hold⟩ := h.aged i c hc hexc p hp k (hdoff ▸ hk)
      refine ⟨?_, hdtid ▸ hold⟩
      by_contra hm
      simp [hclean] at hdmod
      exact hm hdmod
    · exact h.aged j d hd hexd p hp k hk
  · rcases hchain hd with ⟨-, hd⟩ | ⟨-, hd⟩
    · rcases hoff d hd with hmem | ⟨c, hc, hcoff⟩
      · exact h.dedup_used _ hmem
      · exact hcoff ▸ h.chain_used i c hc
    · exact h.chain_used j d hd
  · rcases List.mem_append.1 hmem with hmem | hmem
    · obtain ⟨c, hc, rfl⟩ := (hrec off hmem).1
      exact h.chain_used i c hc
    · exact h.dedup_used off hmem

/-- Other flags on the chain of an element. -/
theorem Inv.relabel (h : s.Inv) (f : Chain κ → Chain κ) (hoff : ∀ c, (f c).dataOff = c.dataOff)
    (htid : ∀ c, (f c).modifyTid = c.modifyTid) (hex : ∀ c, (f c).Exclusive → c.Exclusive)
    (hmod : ∀ c, (f c).modified = true → c.modified = true) :
    Inv { s with chain := Function.update s.chain i ((s.chain i).map f) } := by
  refine h.replace (r := []) le_rfl (fun d hd => ?_) (fun d hd hexd => ?_) (fun d hd => ?_) nofun
  all_goals obtain ⟨c, hc, rfl⟩ := Option.map_eq_some_iff.1 hd
  · exact htid c ▸ h.modifyTid i c hc
  · exact ⟨c, hc, hex c hexd, hoff c, htid c, hmod c⟩
  · exact .inr ⟨c, hc, hoff c⟩


/-- A flush of one chain keeps the invariant. -/
theorem Inv.flushOne (h : s.Inv) : (s.flushOne i).Inv := by
  have hrel := @Inv.relabel _ _ _ _ _ i h Chain.flushed (fun _ => rfl) (fun _ => rfl)
    (fun c hex => by simpa [Chain.Exclusive, Chain.flushed] using hex.imp id nofun)
    (fun c hmod => nomatch hmod)
  exact ⟨hrel.complete, hrel.lsnapTid, hrel.modifyTid, hrel.exclusive, hrel.aged, hrel.chain_used,
    hrel.snap_used, hrel.dedup_used⟩

/-! ## The sync -/

/-- What the sync of an element leaves as it is. -/
structure SyncFrame (s t : SnapPfs ι γ κ) : Prop where
  front : t.front = s.front
  emerg : t.pool.emerg = s.pool.emerg
  synced : ∀ j, s.Synced j → t.Synced j

/-- A write-back touches no other element, and gives the element its content unless it fails. -/
theorem Inv.put_frame (h : s.Inv) (hem : s.pool.emerg = false) {new : Chain κ} {alloc : Option Nat}
    (halloc : ∀ off ∈ alloc, off ∉ s.used) :
    (s.put new alloc i).front = s.front ∧ (s.put new alloc i).pool.emerg = s.pool.emerg ∧
      (∀ j, j ≠ i → s.Synced j → (s.put new alloc i).Synced j) ∧
      (∀ off ∈ (s.put new alloc i).used, off ∈ s.used ∨ off ∈ alloc) ∧
      (alloc.isSome = true → (s.put new alloc i).content i = s.front i) := by
  rcases h.put_cases hem halloc with ⟨rfl, heq⟩ | ⟨hf, heq⟩ | ⟨v, c, hf, heq, hal, hused⟩
  · rw [heq]
    exact ⟨rfl, rfl, fun _ _ hs => hs, fun _ hmem => .inl hmem, nofun⟩
  · rw [heq]
    refine ⟨rfl, rfl, fun j hj hs => ⟨?_, fun d hd => ?_, ?_⟩, fun _ hmem => .inl hmem, fun _ => ?_⟩
    · simpa [SnapPfs.content, Function.update_of_ne hj] using hs.content
    · exact hs.clean d (by simpa [Function.update_of_ne hj] using hd)
    · simpa [Function.update_of_ne hj] using hs.root
    · simp [SnapPfs.content, hf]
  · rw [heq]
    refine ⟨rfl, rfl, fun j hj hs => ⟨?_, fun d hd => ?_, ?_⟩, fun off hmem => ?_, fun _ => ?_⟩
    · rw [← show _ = (s.store i c v).front j from hs.content]
      cases hd : s.chain j with
      | none => simp [SnapPfs.content, SnapPfs.store, Function.update_of_ne hj, hd]
      | some d =>
        simp [SnapPfs.content, SnapPfs.store, Function.update_of_ne hj, hd,
          Function.update_of_ne (hal.chain j d hj hd)]
    · exact hs.clean d (by simpa [SnapPfs.store, Function.update_of_ne hj] using hd)
    · simpa [SnapPfs.store, Function.update_of_ne hj] using hs.root
    · rcases List.mem_cons.1 hmem with rfl | hmem
      · exact hused
      · exact .inl hmem
    · simp [SnapPfs.content, SnapPfs.store, hf]

/-- A flush touches no other element, and syncs one whose chain holds its content. -/
theorem synced_flushOne (hs : s.Synced j ∨ j = i ∧ s.content i = s.front i) :
    (s.flushOne i).Synced j := by
  by_cases hj : j = i
  · subst hj
    have hcontent : s.content j = s.front j := hs.elim Synced.content And.right
    refine ⟨?_, fun d hd => ?_, ?_⟩
    · rw [← show _ = (s.flushOne j).front j from hcontent]
      cases hc : s.chain j <;> simp [SnapPfs.content, SnapPfs.flushOne, hc, Chain.flushed]
    · simp only [SnapPfs.flushOne, Function.update_self] at hd
      obtain ⟨c, -, rfl⟩ := Option.map_eq_some_iff.1 hd
      rfl
    · cases hc : s.chain j <;> simp [SnapPfs.flushOne, hc, Chain.flushed]
  · have hs := hs.resolve_right fun h => hj h.1
    refine ⟨?_, fun d hd => ?_, ?_⟩
    · simpa [SnapPfs.content, SnapPfs.flushOne, Function.update_of_ne hj] using hs.content
    · exact hs.clean d (by simpa [SnapPfs.flushOne, Function.update_of_ne hj] using hd)
    · simpa [SnapPfs.flushOne, Function.update_of_ne hj] using hs.root

end

/-- The write-back of an element that needs it. -/
theorem Inv.writeBack (h : s.Inv) (hem : s.pool.emerg = false)
    (halloc : ∀ off ∈ e.alloc, off ∉ s.used)
    (ht : t = if e.write && s.content e.elem ≠ s.front e.elem then
      s.put e.new e.alloc e.elem else s) :
    t.Inv ∧ SyncFrame s t ∧ (∀ off ∈ t.used, off ∈ s.used ∨ off ∈ e.alloc) ∧
      (e.write = true → e.alloc.isSome = true → t.content e.elem = t.front e.elem) := by
  subst ht
  obtain ⟨hfront, hemerg, hother, hused, hcontent⟩ :=
    @Inv.put_frame _ _ _ _ _ e.elem h hem e.new e.alloc halloc
  split
  · rename_i hw
    have hne : s.content e.elem ≠ s.front e.elem := by simp_all
    refine ⟨h.put hem halloc, ⟨hfront, hemerg, fun j hs => hother j ?_ hs⟩,
      hused, fun _ hsome => ?_⟩
    · rintro rfl
      exact hne hs.content
    · rw [hcontent hsome, hfront]
  · rename_i hw
    exact ⟨h, ⟨rfl, rfl, fun _ hs => hs⟩, fun _ hmem => .inl hmem, fun hwrite _ => by simp_all⟩

/-- The sync of one element. -/
theorem Inv.syncOne (h : s.Inv) (hem : s.pool.emerg = false)
    (halloc : ∀ off ∈ e.alloc, off ∉ s.used) :
    (s.syncOne e).Inv ∧ SyncFrame s (s.syncOne e) ∧
      (∀ off ∈ (s.syncOne e).used, off ∈ s.used ∨ off ∈ e.alloc) ∧
      (e.write = true ∧ e.alloc.isSome = true ∧ e.flush = true → (s.syncOne e).Synced e.elem) := by
  obtain ⟨hinv, hframe, hused, hcontent⟩ := h.writeBack hem halloc rfl
  unfold SnapPfs.syncOne
  simp only
  split
  · refine ⟨hinv.flushOne, ⟨hframe.front, hframe.emerg, fun j hs => ?_⟩, hused, fun hok => ?_⟩
    · exact synced_flushOne (.inl (hframe.synced j hs))
    · exact synced_flushOne (.inr ⟨rfl, hcontent hok.1 hok.2.1⟩)
  · rename_i hno
    exact ⟨hinv, hframe, hused, fun hok => absurd hok.2.2 hno⟩

/-- The sync of a queue: whatever fails, what was synced stays so; what goes well is synced. -/
theorem Inv.syncAll (h : s.Inv) (hem : s.pool.emerg = false) (hnodup : (allocs l).Nodup)
    (hfresh : ∀ off ∈ allocs l, off ∉ s.used) :
    (l.foldl SnapPfs.syncOne s).Inv ∧ SyncFrame s (l.foldl SnapPfs.syncOne s) ∧
      ∀ e ∈ l, e.write = true ∧ e.alloc.isSome = true ∧ e.flush = true →
        (l.foldl SnapPfs.syncOne s).Synced e.elem := by
  induction l generalizing s with
  | nil =>
    exact ⟨h, ⟨rfl, rfl, fun _ hs => hs⟩, fun e he => absurd he List.not_mem_nil⟩
  | cons e l ih =>
    have hmem : ∀ off ∈ e.alloc, off ∈ allocs (e :: l) := fun off hoff =>
      List.mem_filterMap.2 ⟨e, List.mem_cons_self, hoff⟩
    have hsub : ∀ off ∈ allocs l, off ∈ allocs (e :: l) := fun off hoff => by
      obtain ⟨d, hd, hdoff⟩ := List.mem_filterMap.1 hoff
      exact List.mem_filterMap.2 ⟨d, List.mem_cons_of_mem _ hd, hdoff⟩
    obtain ⟨hinv, hframe, hused, hsynced⟩ := h.syncOne hem fun off hoff =>
      hfresh off (hmem off hoff)
    have hnot : ∀ off ∈ allocs l, off ∉ e.alloc := by
      intro off hoff heq
      simp only [allocs, List.filterMap_cons, Option.mem_def.1 heq] at hnodup
      exact (List.nodup_cons.1 hnodup).1 hoff
    have hnodup' : (allocs l).Nodup := by
      cases ha : e.alloc with
      | none => simpa [allocs, List.filterMap_cons, ha] using hnodup
      | some off =>
        simp only [allocs, List.filterMap_cons, ha] at hnodup
        exact (List.nodup_cons.1 hnodup).2
    obtain ⟨hinv', hframe', hsynced'⟩ := ih hinv (hframe.emerg.trans hem)
      hnodup' fun off hoff hin =>
      (hused off hin).elim (hfresh off (hsub off hoff)) (hnot off hoff)
    refine ⟨hinv', ⟨hframe'.front.trans hframe.front, hframe'.emerg.trans hframe.emerg,
      fun j hs => hframe'.synced j (hframe.synced j hs)⟩, fun d hd hok => ?_⟩
    rcases List.mem_cons.1 hd with rfl | hd
    · exact hframe'.synced _ (hsynced hok)
    · exact hsynced' d hd hok

/-! ## The snapshot -/

omit [DecidableEq ι] [DecidableEq γ] in
/-- The transaction of the snapshot. -/
theorem Inv.lsnap (h : s.Inv) {slot : ι → Option Nat} :
    Inv { s with slot := slot, tid := s.tid + 1, pool.lsnapTid := s.tid + 1 } where
  complete := h.complete
  lsnapTid := le_rfl
  modifyTid i c hc := (h.modifyTid i c hc).trans (Nat.le_succ _)
  exclusive := h.exclusive
  aged i c hc hex p hp j hj :=
    ⟨(h.aged i c hc hex p hp j hj).1, (h.modifyTid i c hc).trans (Nat.le_succ _)⟩
  chain_used := h.chain_used
  snap_used := h.snap_used
  dedup_used := h.dedup_used

omit [DecidableEq ι] [DecidableEq γ] in
/-- The root's blockset of a PFS whose elements are synced, as a snapshot. -/
theorem Inv.take (h : s.Inv) (hsync : ∀ i, s.Synced i) :
    Inv { s with
      slot := s.root, tid := s.tid + 1, pool.lsnapTid := s.tid + 1
      snaps := s.snaps ++ [(s.root, s.front)] } := by
  have hroot : ∀ {j off}, s.root j = some off → ∃ c, s.chain j = some c ∧ c.dataOff = off :=
    fun {j off} hj => Option.map_eq_some_iff.1 ((hsync j).root ▸ hj)
  have hold := @Inv.lsnap _ _ _ _ h s.root
  refine ⟨fun p hp i => ?_, hold.lsnapTid, hold.modifyTid, hold.exclusive,
    fun i c hc hex p hp j hj => ?_, hold.chain_used, fun p hp j off hj => ?_, hold.dedup_used⟩
  · rcases List.mem_append.1 hp with hp | hp
    · exact h.complete p hp i
    · rw [List.mem_singleton.1 hp]
      change (s.root i).map s.pool.storage = s.front i
      rw [← (hsync i).content, (hsync i).root]
      simp [SnapPfs.content, Function.comp_def]
  · rcases List.mem_append.1 hp with hp | hp
    · exact hold.aged i c hc hex p hp j hj
    · exact ⟨(hsync i).clean c hc, (h.modifyTid i c hc).trans (Nat.le_succ _)⟩
  · rcases List.mem_append.1 hp with hp | hp
    · exact h.snap_used p hp j off hj
    · rw [List.mem_singleton.1 hp] at hj
      obtain ⟨c, hc, rfl⟩ := hroot hj
      exact h.chain_used j c hc

/-- A snapshot keeps the invariant. -/
theorem Inv.snapshot (h : s.Inv) {io : SnapIo} (hans : s.Answers (.snapshot l io))
    (hok : s.Meets (.snapshot l io)) : (s.snapshot l io).Inv := by
  obtain ⟨hinv, hframe, hsynced⟩ := h.syncAll hok.1 hans.1 hans.2
  unfold SnapPfs.snapshot SnapPfs.syncPmp
  simp only
  split
  · rename_i hsucc
    obtain ⟨hflush, hall, hqueued⟩ := hok.2 hsucc
    have hsync : ∀ i, (l.foldl SnapPfs.syncOne s).Synced i := by
      intro i
      by_cases hs : s.Synced i
      · exact hframe.synced i hs
      · obtain ⟨e, he, rfl⟩ := hqueued i hs
        exact hsynced e he (hall e he)
    rw [if_pos hflush, ← hframe.front]
    exact hinv.take hsync
  · exact hinv.lsnap

/-! ## Every run -/

section
omit [DecidableEq γ]

/-- A hit on recorded storage, for an element with a check code. -/
theorem Inv.hit (h : s.Inv) {new : Chain κ} (hoff : off ∈ s.dedup)
    (hcheck : ((s.chain i).getD new).check ≠ .none) (hcow : (s.chain i).all s.cows = true) :
    (s.hit new off i).Inv := by
  unfold SnapPfs.hit
  simp only [hcow, if_true]
  refine h.replace (r := []) (Nat.le_succ _) ?_ ?_ ?_ nofun
  · rintro _ ⟨⟩
    exact le_rfl
  · rintro _ ⟨⟩ hex
    exact absurd hex (by simp [Chain.Exclusive, hcheck])
  · rintro _ ⟨⟩
    exact .inl hoff

/-- The storage of an element with a check code is recorded. -/
theorem Inv.record (h : s.Inv) (hcheck : ∀ c ∈ s.chain i, c.check ≠ .none) :
    Inv { s with
      chain := Function.update s.chain i ((s.chain i).map fun c => { c with dedupable := true })
      dedup := ((s.chain i).map (·.dataOff)).toList ++ s.dedup } := by
  have hshared : ∀ d, ((s.chain i).map fun c => { c with dedupable := true }) = some d →
      ¬ d.Exclusive := by
    intro d hd
    obtain ⟨c, hc, rfl⟩ := Option.map_eq_some_iff.1 hd
    simp [Chain.Exclusive, hcheck c hc]
  refine h.replace le_rfl (fun d hd => ?_) (fun d hd hex => absurd hex (hshared d hd))
    (fun d hd => ?_) fun off hoff => ⟨?_, hshared⟩
  · obtain ⟨c, hc, rfl⟩ := Option.map_eq_some_iff.1 hd
    exact h.modifyTid i c hc
  · obtain ⟨c, hc, rfl⟩ := Option.map_eq_some_iff.1 hd
    exact .inr ⟨c, hc, rfl⟩
  · exact Option.map_eq_some_iff.1 (Option.mem_toList.1 hoff)

/-- Dropping a chain's data keeps the invariant. -/
theorem Inv.evict (h : s.Inv) :
    Inv { s with chain := Function.update s.chain i ((s.chain i).map fun c =>
      if c.modified || c.update then c else c.reloaded) } := by
  refine h.relabel _ (fun c => ?_) (fun c => ?_) (fun c hex => ?_) (fun c hmod => ?_)
  · split <;> rfl
  · split <;> rfl
  · split at hex
    · exact hex
    · exact .inl (hex.resolve_right nofun)
  · split at hmod
    · exact hmod
    · cases hmod

end

/-- Every step keeps it. -/
theorem Inv.step {a : PfsSnapAct ι γ κ} (h : s.Inv) (hok : s.Meets a) (hst : Step s a t) :
    t.Inv := by
  obtain ⟨hans, rfl⟩ := hst
  cases a with
  | op i v =>
    exact ⟨h.complete, h.lsnapTid, h.modifyTid, h.exclusive, h.aged, h.chain_used, h.snap_used,
      h.dedup_used⟩
  | put i new alloc => exact h.put hok hans
  | hit i new off => exact h.hit hans.1 hok.1 hok.2
  | record i => exact h.record hans
  | flush i => exact h.flushOne
  | evict i => exact h.evict
  | snapshot l io => exact h.snapshot hans hok

/-- A PFS as it is mounted, without a change that is not on the device: no snapshot has been taken,
and the storage that is overwritten in place is no other element's. -/
structure Init (s : SnapPfs ι γ κ) : Prop where
  snaps : s.snaps = []
  dedup : s.dedup = []
  lsnapTid : s.pool.lsnapTid ≤ s.tid
  modifyTid : ∀ i c, s.chain i = some c → c.modifyTid ≤ s.tid
  unshared : ∀ i c, s.chain i = some c → c.Exclusive → ∀ j d, j ≠ i → s.chain j = some d →
    d.dataOff ≠ c.dataOff
  used : ∀ i c, s.chain i = some c → c.dataOff ∈ s.used

omit [DecidableEq ι] [DecidableEq γ] in
/-- A PFS without snapshots meets the invariant. -/
theorem Init.inv (h : s.Init) : s.Inv where
  complete := by simp [Complete, h.snaps]
  lsnapTid := h.lsnapTid
  modifyTid := h.modifyTid
  exclusive i c hc hex := ⟨by simp [h.dedup], h.unshared i c hc hex⟩
  aged := by simp [h.snaps]
  chain_used := h.used
  snap_used := by simp [h.snaps]
  dedup_used := by simp [h.dedup]

end

instance (s : SnapPfs ι γ κ) : (a : PfsSnapAct ι γ κ) → Decidable (s.Answers a)
  | .put _ _ alloc => inferInstanceAs (Decidable (∀ off ∈ alloc, off ∉ s.used))
  | .hit i _ off =>
    inferInstanceAs (Decidable (off ∈ s.dedup ∧ s.front i = some (s.pool.storage off)))
  | .record i => inferInstanceAs (Decidable (∀ c ∈ s.chain i, c.check ≠ .none))
  | .snapshot l _ =>
    inferInstanceAs (Decidable ((allocs l).Nodup ∧ ∀ off ∈ allocs l, off ∉ s.used))
  | .op _ _ | .flush _ | .evict _ => .isTrue trivial

end SnapPfs

end Hammer2
