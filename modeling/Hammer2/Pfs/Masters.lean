import Hammer2.Xop.Cluster
import Hammer2.Lib.Run

/-!
# The masters of a PFS

A PFS has a table of up to eight elements. A local element is added when its device is mounted, a
remote one when its peer is heard of; both take the slot at `cluster.nchains`. Elements leave in
three ways, which treat the slot differently: a deleted PFS keeps the device of its slot, a remote
element that goes away and a device that is unmounted give the slot up and lower `nchains` past
empty slots.

`pfs_nmasters` is the base of the quorum. A registration raises it to the number of masters in the
table, and that of a local element also to the number recorded in its root inode. It is never
lowered, but a master that left is not in the table any more when the next one comes, and the number
recorded by a remote master is not looked at; so the base can fall behind the masters that were seen
(`nmasters_behind`). Where neither happens it covers them all (`nmasters_covers`).

Reference: `hammer2_vfsops.c:396-955`, `hammer2_remote.c:2590-2748`, `hammer2_cluster.c:141-510`.
-/

namespace Hammer2

open Transition

/-- `HAMMER2_MAXCLUSTER`. -/
def maxCluster : Nat := 8

/-- A device of an element: a block device of this host, or a connection. -/
inductive PfsDev
  | disk (n : Nat)
  | conn (n : Nat)
  deriving DecidableEq

/-- `hammer2_dev_is_conn`. -/
def PfsDev.isConn : PfsDev → Bool
  | .disk _ => false
  | .conn _ => true

/-- What the root inode of an element says: `pfs_fsid`, `pfs_type` and `pfs_nmasters`. -/
structure PfsElem where
  fsid : Nat
  kind : ElementKind
  nmasters : Nat
  deriving DecidableEq

/-- A slot: `pfs_types[]`, `pfs_hmps[]` and the chain in the cluster of the root inode, by the
`pfs_fsid` of its inode. -/
structure PfsSlot where
  kind : ElementKind
  hmp : Option PfsDev
  chain : Option Nat
  deriving DecidableEq

/-- An empty slot. -/
def PfsSlot.free : PfsSlot := ⟨.none, none, none⟩

/-- The elements of a PFS, with `cluster.nchains` and `pfs_nmasters`. -/
structure PfsTable where
  slots : Nat → PfsSlot
  nchains : Nat
  nmasters : Nat

namespace PfsTable
variable (t : PfsTable)

/-- The masters among the first `n` slots. -/
def masters (n : Nat) : Nat := Nat.count (fun i => (t.slots i).kind = .master) n

/-- The slot at `nchains` is taken. -/
def push (s : PfsSlot) : PfsTable :=
  { t with slots := Function.update t.slots t.nchains s, nchains := t.nchains + 1 }

/-- `pfs_nmasters` is raised to the number of masters in the table. -/
def raise : PfsTable := { t with nmasters := max t.nmasters (t.masters t.nchains) }

/-- `hammer2_pfsalloc` of the local element `e`; a device mounted in local mode makes it a master. A
table that is full takes no element, but the number recorded in it counts. -/
def pfsalloc (e : PfsElem) (dev : Nat) (forceLocal : Bool) : PfsTable :=
  let t := if t.nchains = maxCluster then t
    else t.push ⟨if forceLocal then .master else e.kind, some (.disk dev), some e.fsid⟩
  raise { t with nmasters := max t.nmasters e.nmasters }

/-- `hammer2_remote_local_elm`. -/
def localElm : Bool :=
  (List.range maxCluster).any fun i => (t.slots i).hmp.any fun d => !d.isConn

/-- What `hammer2_remote_register` finds besides the table: the span is still queued, the PFS is
mounted read-write, the connection is dead. -/
structure Link where
  found : Bool
  readWrite : Bool
  dead : Bool
  deriving DecidableEq

/-- `hammer2_remote_register` of `e` on a connection: the table with it, or `none` if it is not
taken. -/
def remoteRegister (e : PfsElem) (conn : Nat) (link : Link) : Option PfsTable :=
  if !link.found || !t.localElm || link.readWrite || link.dead then none
  else if (List.range maxCluster).any fun i => (t.slots i).hmp = some (.conn conn) then none
  else if t.nchains = maxCluster then none
  else some (raise (t.push ⟨e.kind, some (.conn conn), some e.fsid⟩))

/-- `nchains` lowered from `n` past slots without a device. -/
def trim (slots : Nat → PfsSlot) : Nat → Nat
  | 0 => 0
  | n + 1 => if (slots n).hmp.isNone then trim slots n else n + 1

/-- `hammer2_remote_detach` of slot `j`. -/
def remoteDetach (j : Nat) : PfsTable :=
  let slots := Function.update t.slots j .free
  { t with slots := slots, nchains := trim slots t.nchains }

/-- `hammer2_remote_detach_pmp`. -/
def remoteDetachPmp : PfsTable :=
  (List.range maxCluster).foldl
    (fun t j => if (t.slots j).hmp.any PfsDev.isConn then t.remoteDetach j else t) t

/-- `hammer2_pfsdealloc` of slot `j`, which keeps its device. -/
def pfsdealloc (j : Nat) : PfsTable :=
  { t with slots := Function.update t.slots j { t.slots j with kind := .none, chain := none } }

/-- The PFS has an element on the device. -/
def affected (dev : Nat) : Bool :=
  (List.range maxCluster).any fun i => (t.slots i).hmp = some (.disk dev)

/-- The slots once those on the device are cleared. -/
def clearDev (dev : Nat) (i : Nat) : PfsSlot :=
  if i < maxCluster ∧ (t.slots i).hmp = some (.disk dev) then .free else t.slots i

/-- `hammer2_pfsfree_scan` of a device. -/
def pfsfreeScan (dev : Nat) : PfsTable :=
  if t.affected dev then
    let t := t.remoteDetachPmp
    { t with slots := t.clearDev dev, nchains := trim (t.clearDev dev) maxCluster }
  else t

end PfsTable

/-! ## Runs -/

/-- A PFS from its allocation on: its table, whether it was freed, and the elements registered so
far with the type of their slot. -/
structure PfsHist where
  table : PfsTable
  freed : Bool
  seen : List PfsElem

/-- The steps of a run. -/
inductive PfsAct
  | alloc (e : PfsElem) (dev : Nat) (forceLocal : Bool)
  | register (e : PfsElem) (conn : Nat) (link : PfsTable.Link)
  | detach (j : Nat)
  | dealloc (j : Nat)
  | freeScan (dev : Nat)

namespace PfsHist
variable (h : PfsHist)

/-- A PFS that has no element yet. -/
def fresh : PfsHist := ⟨⟨fun _ => .free, 0, 0⟩, false, []⟩

/-- The state after a step. A PFS that has no element left after a device was taken out is freed. -/
def next : PfsAct → PfsHist
  | .alloc e dev forceLocal =>
    { h with
      table := h.table.pfsalloc e dev forceLocal
      seen := if h.table.nchains = maxCluster then h.seen
        else { e with kind := if forceLocal then .master else e.kind } :: h.seen }
  | .register e conn link =>
    match h.table.remoteRegister e conn link with
    | none => h
    | some t => { h with table := t, seen := e :: h.seen }
  | .detach j => { h with table := h.table.remoteDetach j }
  | .dealloc j => { h with table := h.table.pfsdealloc j }
  | .freeScan dev =>
    let t := h.table.pfsfreeScan dev
    { h with table := t, freed := h.table.affected dev && t.nchains = 0 }

/-- The masters registered so far. -/
def seenMasters : Finset Nat := ((h.seen.filter (·.kind = .master)).map (·.fsid)).toFinset

/-- Every master registered so far is still in the table. -/
def AllAttached : Prop :=
  ∀ f ∈ h.seenMasters, ∃ i < h.table.nchains, (h.table.slots i).kind = .master ∧
    (h.table.slots i).chain = some f

/-- A master that comes with `pfs_nmasters` at `base` can be counted: it was seen before, or all
that were are still there, or the base is above their number anyway. -/
def CanCount (fsid : Nat) (base : Nat) : Prop :=
  fsid ∈ h.seenMasters ∨ h.AllAttached ∨ h.seenMasters.card < base

/-- The condition on a step: a master that is registered can be counted, and the number that a
remote element recorded is in the base or in the table with that element. -/
def Counts : PfsAct → Prop
  | .alloc e _ forceLocal => h.table.nchains = maxCluster ∨
      (¬ forceLocal ∧ e.kind ≠ .master) ∨ h.CanCount e.fsid (max h.table.nmasters e.nmasters)
  | .register e conn link => (h.table.remoteRegister e conn link).isSome →
      e.nmasters ≤ max h.table.nmasters
        (h.table.masters maxCluster + if e.kind = .master then 1 else 0) ∧
      (e.kind = .master → h.CanCount e.fsid h.table.nmasters)
  | _ => True

end PfsHist

/-- One step of a PFS that is not freed. -/
def PfsStep (h : PfsHist) (a : PfsAct) (h' : PfsHist) : Prop := h.freed = false ∧ h' = h.next a

/-- A master that has answered: with a chain, or with the end of its scan. -/
def CItem.answered (it : CItem) : Bool := it.kind.votes && (it.chain.isSome || it.null)

/-- `pfs_nmasters` covers the masters in the table, the numbers recorded in the elements registered
so far and the masters among them; no slot past `nchains` has a chain; and no half of the masters
seen is a quorum. -/
structure BaseCovers (h : PfsHist) : Prop where
  table : h.table.masters maxCluster ≤ h.table.nmasters
  recorded : ∀ e ∈ h.seen, e.nmasters ≤ h.table.nmasters
  seen : h.seenMasters.card ≤ h.table.nmasters
  chains : ∀ i, h.table.nchains ≤ i → (h.table.slots i).chain = none
  majority : ∀ (items : List CItem) (focusIndex key : Nat) (null : Bool),
    2 * items.countP (·.answered) ≤ h.seenMasters.card →
    (clusterCheck h.table.nmasters focusIndex items key null).nmasters < quorum h.table.nmasters ∧
      (clusterCheck h.table.nmasters focusIndex items key null).result ≠ 0 ∧
      (clusterCheck h.table.nmasters focusIndex items key null).result ≠ errorEnoent

/-! ## The table -/

/-- A slot without a device is empty, and so are the slots from `nchains` on. -/
structure PfsTable.Ok (t : PfsTable) : Prop where
  le : t.nchains ≤ maxCluster
  clear : ∀ i, (t.slots i).hmp = none → (t.slots i).kind = .none ∧ (t.slots i).chain = none
  above : ∀ i, t.nchains ≤ i → (t.slots i).hmp = none

namespace PfsTable
variable {t : PfsTable}

/-- No master lies past `nchains`. -/
theorem Ok.masters_eq (h : t.Ok) : t.masters maxCluster = t.masters t.nchains := by
  have hcount : ∀ k, t.masters (t.nchains + k) = t.masters t.nchains := by
    intro k
    induction k with
    | zero => rfl
    | succ k ih =>
      have hnone := (h.clear _ (h.above (t.nchains + k) (Nat.le_add_right _ _))).1
      rw [← Nat.add_assoc, masters, Nat.count_succ, if_neg (by rw [hnone]; decide)]
      exact ih
  rw [← hcount (maxCluster - t.nchains), Nat.add_sub_cancel' h.le]

/-- A new element keeps the table. -/
theorem Ok.push (h : t.Ok) (hroom : t.nchains ≠ maxCluster) {s : PfsSlot} (hs : s.hmp ≠ none) :
    (t.push s).Ok := by
  have hle := h.le
  refine ⟨by change t.nchains + 1 ≤ maxCluster; omega, fun i hi => ?_, fun i hi => ?_⟩
  · simp only [PfsTable.push] at hi ⊢
    by_cases heq : i = t.nchains
    · subst heq
      rw [Function.update_self] at hi
      exact absurd hi hs
    · rw [Function.update_of_ne heq] at hi ⊢
      exact h.clear i hi
  · simp only [PfsTable.push] at hi ⊢
    rw [Function.update_of_ne (by omega)]
    exact h.above i (by omega)

/-- A master that is put into the table is one more. -/
theorem masters_push (t : PfsTable) (s : PfsSlot) :
    (t.push s).masters (t.nchains + 1) =
      t.masters t.nchains + if s.kind = .master then 1 else 0 := by
  have hbelow : (t.push s).masters t.nchains = t.masters t.nchains := by
    rw [masters, masters, Nat.count_eq_card_filter_range, Nat.count_eq_card_filter_range]
    refine congrArg _ (Finset.filter_congr fun i hi => ?_)
    simp only [PfsTable.push, Function.update_of_ne (Finset.mem_range.1 hi).ne]
  rw [← hbelow, masters, Nat.count_succ]
  simp [PfsTable.push, masters]

/-- The table does not depend on `nmasters`. -/
theorem Ok.with_nmasters (h : t.Ok) (n : Nat) : Ok { t with nmasters := n } :=
  ⟨h.le, h.clear, h.above⟩

theorem trim_le (slots : Nat → PfsSlot) (n : Nat) : trim slots n ≤ n := by
  induction n with
  | zero => exact Nat.le_refl 0
  | succ n ih =>
    unfold trim
    split
    · omega
    · exact Nat.le_refl _

/-- Past the trimmed number there is no device up to the old one. -/
theorem trim_above (slots : Nat → PfsSlot) (n i : Nat) (hi : trim slots n ≤ i) (hn : i < n) :
    (slots i).hmp = none := by
  induction n with
  | zero => exact absurd hn (Nat.not_lt_zero i)
  | succ n ih =>
    unfold trim at hi
    split at hi
    · rename_i hnone
      rcases Nat.lt_or_ge i n with hlt | hge
      · exact ih hi hlt
      · obtain rfl : i = n := by omega
        exact Option.isNone_iff_eq_none.1 hnone
    · omega

/-- Emptying slots and trimming keeps the table. -/
theorem Ok.empty {slots : Nat → PfsSlot} {n m : Nat} (h : t.Ok)
    (hslots : ∀ i, slots i = .free ∨ slots i = t.slots i) (hn : t.nchains ≤ n)
    (hle : n ≤ maxCluster) :
    Ok { slots := slots, nchains := trim slots n, nmasters := m } := by
  refine ⟨(trim_le slots n).trans hle, fun i hi => ?_, fun i hi => ?_⟩
  · rcases hslots i with hf | hs
    · simp only [hf]
      exact ⟨rfl, rfl⟩
    · simp only [hs] at hi ⊢
      exact h.clear i hi
  · rcases Nat.lt_or_ge i n with hlt | hge
    · exact trim_above slots n i hi hlt
    · rcases hslots i with hf | hs
      · simp only [hf]
        rfl
      · simp only [hs]
        exact h.above i (by omega)

/-- A removal: slots are emptied of their element or left as they are. -/
structure Removed (t t' : PfsTable) : Prop where
  nmasters : t'.nmasters = t.nmasters
  slots : ∀ i, (t'.slots i).kind = .none ∨ t'.slots i = t.slots i

theorem Removed.refl (t : PfsTable) : t.Removed t := ⟨rfl, fun _ => .inr rfl⟩

theorem Removed.trans {t' t'' : PfsTable} (h : t.Removed t') (h' : t'.Removed t'') :
    t.Removed t'' := by
  refine ⟨h'.nmasters.trans h.nmasters, fun i => ?_⟩
  rcases h'.slots i with hk | heq
  · exact .inl hk
  · rw [heq]
    exact h.slots i

/-- A removal adds no master. -/
theorem Removed.masters_le {t' : PfsTable} (h : t.Removed t') (n : Nat) :
    t'.masters n ≤ t.masters n := by
  refine Nat.count_mono_left fun i _ hi => ?_
  rcases h.slots i with hk | heq
  · rw [hk] at hi
    cases hi
  · rwa [heq] at hi

/-- A detach removes one remote element. -/
theorem Ok.remoteDetach (h : t.Ok) (j : Nat) : (t.remoteDetach j).Ok ∧
    t.Removed (t.remoteDetach j) := by
  have hslots : ∀ i, Function.update t.slots j .free i = .free ∨
      Function.update t.slots j .free i = t.slots i := by
    intro i
    by_cases hij : i = j
    · subst hij
      exact .inl (Function.update_self ..)
    · exact .inr (Function.update_of_ne hij _ _)
  refine ⟨h.empty hslots (Nat.le_refl _) h.le, rfl, fun i => ?_⟩
  exact (hslots i).imp_left fun hf => congrArg PfsSlot.kind hf

/-- A detach of the PFS removes the remote elements. -/
theorem Ok.remoteDetachPmp (h : t.Ok) : t.remoteDetachPmp.Ok ∧ t.Removed t.remoteDetachPmp := by
  unfold PfsTable.remoteDetachPmp
  induction List.range maxCluster generalizing t with
  | nil => exact ⟨h, .refl t⟩
  | cons j js ih =>
    rw [List.foldl_cons]
    split
    · obtain ⟨hok, hrem⟩ := h.remoteDetach j
      obtain ⟨hok', hrem'⟩ := ih hok
      exact ⟨hok', hrem.trans hrem'⟩
    · exact ih h

/-- A dealloc removes one element. -/
theorem Ok.pfsdealloc (h : t.Ok) (j : Nat) : (t.pfsdealloc j).Ok ∧ t.Removed (t.pfsdealloc j) := by
  refine ⟨⟨h.le, fun i hi => ?_, fun i hi => ?_⟩, rfl, fun i => ?_⟩
  all_goals by_cases hij : i = j
  · subst hij
    simp [PfsTable.pfsdealloc]
  · simp only [PfsTable.pfsdealloc, Function.update_of_ne hij] at hi ⊢
    exact h.clear i hi
  · subst hij
    simp only [PfsTable.pfsdealloc, Function.update_self]
    exact h.above i hi
  · simp only [PfsTable.pfsdealloc, Function.update_of_ne hij]
    exact h.above i hi
  · subst hij
    simp [PfsTable.pfsdealloc]
  · simp [PfsTable.pfsdealloc, Function.update_of_ne hij]

/-- An unmounted device takes its elements along. -/
theorem Ok.pfsfreeScan (h : t.Ok) (dev : Nat) :
    (t.pfsfreeScan dev).Ok ∧ t.Removed (t.pfsfreeScan dev) := by
  unfold PfsTable.pfsfreeScan
  split
  · obtain ⟨hok, hrem⟩ := h.remoteDetachPmp
    have hslots : ∀ i, t.remoteDetachPmp.clearDev dev i = .free ∨
        t.remoteDetachPmp.clearDev dev i = t.remoteDetachPmp.slots i := by
      intro i
      unfold clearDev
      split
      · exact .inl rfl
      · exact .inr rfl
    refine ⟨hok.empty hslots hok.le (Nat.le_refl _), hrem.trans ⟨rfl, fun i => ?_⟩⟩
    exact (hslots i).imp_left fun hf => congrArg PfsSlot.kind hf
  · exact ⟨h, .refl t⟩

end PfsTable

/-! ## The base -/

/-- A check counts no more masters than have answered. -/
theorem clusterCheck_nmasters_le_answered (nmasters focusIndex : Nat)
    (items : List CItem) (key : Nat)
    (null : Bool) :
    (clusterCheck nmasters focusIndex items key null).nmasters ≤ items.countP (·.answered) := by
  cases null with
  | true =>
    rw [(clusterCheck_null nmasters focusIndex items key).1]
    refine List.countP_mono_left fun it _ hit => ?_
    simp only [CItem.ended, CItem.answered, Bool.and_eq_true, Bool.or_eq_true] at hit ⊢
    exact ⟨hit.1.1.1, .inr hit.1.2⟩
  | false =>
    refine (clusterCheck_nmasters_le nmasters focusIndex items key).trans ?_
    refine List.countP_mono_left fun it _ hit => ?_
    obtain ⟨hv, c, hc, -⟩ := CItem.hasKey_iff.1 hit
    simp [CItem.answered, hv, hc]

/-- Below the quorum a check neither succeeds nor finds an entry absent. -/
theorem clusterCheck_below {nmasters focusIndex key : Nat} {items : List CItem} {null : Bool}
    (h : (clusterCheck nmasters focusIndex items key null).nmasters < quorum nmasters) :
    (clusterCheck nmasters focusIndex items key null).result ≠ 0 ∧
      (clusterCheck nmasters focusIndex items key null).result ≠ errorEnoent := by
  have hn : (clusterCheck nmasters focusIndex items key null).nmasters =
      (secondPass nmasters focusIndex items key null).nmasters := by
    unfold clusterCheck
    dsimp only
    split
    · rfl
    · split
      · rfl
      · split <;> rfl
  rw [hn] at h
  unfold clusterCheck
  dsimp only
  rw [if_pos h]
  exact noQuorum_ne _ _

/-- Half of what the base covers is no quorum. -/
theorem half_no_quorum {nmasters seen k : Nat} (hseen : seen ≤ nmasters) (hk : 2 * k ≤ seen) :
    k < quorum nmasters := by
  unfold quorum
  omega

/-- What a run keeps. -/
structure PfsHist.Inv (h : PfsHist) : Prop where
  ok : h.table.Ok
  table : h.table.masters maxCluster ≤ h.table.nmasters
  recorded : ∀ e ∈ h.seen, e.nmasters ≤ h.table.nmasters
  seen : h.seenMasters.card ≤ h.table.nmasters

namespace PfsHist
variable {h h' : PfsHist}

/-- The invariant gives what is claimed of the base. -/
theorem Inv.covers (hi : h.Inv) : BaseCovers h := by
  refine ⟨hi.table, hi.recorded, hi.seen, fun i hle =>
    ?_, fun items focusIndex key null hhalf => ?_⟩
  · exact (hi.ok.clear i (hi.ok.above i hle)).2
  · have hlt : (clusterCheck h.table.nmasters focusIndex items key null).nmasters <
        quorum h.table.nmasters :=
      (clusterCheck_nmasters_le_answered ..).trans_lt (half_no_quorum hi.seen hhalf)
    exact ⟨hlt, clusterCheck_below hlt⟩

variable {t : PfsTable} {e : PfsElem} {link : PfsTable.Link} {conn : Nat}

/-- A removal of elements keeps the base above everything. -/
theorem Inv.removed {freed : Bool} (hi : h.Inv) (hok : t.Ok) (hrem : h.table.Removed t) :
    Inv { h with table := t, freed := freed } := by
  refine ⟨hok, ?_, fun e he => ?_, ?_⟩
  · rw [hrem.nmasters]
    exact (hrem.masters_le _).trans hi.table
  · rw [hrem.nmasters]
    exact hi.recorded e he
  · rw [hrem.nmasters]
    exact hi.seen

/-- One more element seen. -/
theorem seenMasters_cons (e : PfsElem) (t : PfsTable) :
    seenMasters { h with table := t, seen := e :: h.seen } =
      if e.kind = .master then insert e.fsid h.seenMasters else h.seenMasters := by
  unfold seenMasters
  by_cases hk : e.kind = .master
  · rw [if_pos hk, List.filter_cons_of_pos (by simpa using hk), List.map_cons, List.toFinset_cons]
  · rw [if_neg hk, List.filter_cons_of_neg (by simpa using hk)]

/-- The masters of a table with distinct ids in its slots. -/
theorem card_le_masters {F : Finset Nat}
    (hF : ∀ f ∈ F, ∃ i < t.nchains, (t.slots i).kind = .master ∧ (t.slots i).chain = some f) :
    F.card ≤ t.masters t.nchains := by
  have hsub : F ⊆ ((Finset.range t.nchains).filter fun i => (t.slots i).kind = .master).image
      fun i => (t.slots i).chain.getD 0 := by
    intro f hf
    obtain ⟨i, hi, hk, hc⟩ := hF f hf
    exact Finset.mem_image.2 ⟨i, Finset.mem_filter.2 ⟨Finset.mem_range.2 hi, hk⟩, by rw [hc]; rfl⟩
  calc F.card ≤ _ := Finset.card_le_card hsub
    _ ≤ _ := Finset.card_image_le
    _ = t.masters t.nchains := (Nat.count_eq_card_filter_range _ _).symm

/-- An element is registered: the base is raised from `base` to the masters in the table. -/
theorem Inv.registered {dev : PfsDev} {base : Nat} (hi : h.Inv)
    (hroom : h.table.nchains ≠ maxCluster) (hbase : h.table.nmasters ≤ base)
    (hcan : e.kind = .master → h.CanCount e.fsid base)
    (hrec : e.nmasters ≤
      max base ((h.table.push ⟨e.kind, some dev, some e.fsid⟩).masters (h.table.nchains + 1))) :
    Inv { h with
      table := PfsTable.raise { h.table.push ⟨e.kind, some dev, some e.fsid⟩ with nmasters := base }
      seen := e :: h.seen } := by
  have hok := hi.ok.push (s := ⟨e.kind, some dev, some e.fsid⟩) hroom (by simp)
  have hmax : base ≤ max base
      ((h.table.push ⟨e.kind, some dev, some e.fsid⟩).masters (h.table.nchains + 1)) :=
    Nat.le_max_left _ _
  refine ⟨hok.with_nmasters _, ?_, fun x hx => ?_, ?_⟩
  · change (h.table.push ⟨e.kind, some dev, some e.fsid⟩).masters maxCluster ≤ max base _
    rw [hok.masters_eq]
    exact Nat.le_max_right _ _
  · change x.nmasters ≤ max base _
    rcases List.mem_cons.1 hx with rfl | hx
    · exact hrec
    · exact (hi.recorded x hx).trans (hbase.trans hmax)
  · rw [seenMasters_cons]
    change _ ≤ max base ((h.table.push ⟨e.kind, some dev, some e.fsid⟩).masters
      (h.table.nchains + 1))
    split
    · rename_i hk
      rcases hcan hk with hold | hall | hlt
      · rw [Finset.insert_eq_self.2 hold]
        exact hi.seen.trans (hbase.trans hmax)
      · refine (card_le_masters fun f hf => ?_).trans (Nat.le_max_right _ _)
        rcases Finset.mem_insert.1 hf with rfl | hf
        · exact ⟨h.table.nchains, Nat.lt_succ_self _, by simp [PfsTable.push, hk], by
            simp [PfsTable.push]⟩
        · obtain ⟨i, hlt, hki, hci⟩ := hall f hf
          have hne : i ≠ h.table.nchains := by omega
          refine ⟨i, Nat.lt_succ_of_lt hlt, ?_, ?_⟩
          · simpa [PfsTable.push, Function.update_of_ne hne] using hki
          · simpa [PfsTable.push, Function.update_of_ne hne] using hci
      · have := Finset.card_insert_le e.fsid h.seenMasters
        omega
    · exact hi.seen.trans (hbase.trans hmax)

/-- An element that is found keeps the invariant. -/
theorem Inv.alloc {dev : Nat} {forceLocal : Bool} (hi : h.Inv)
    (hc : h.Counts (.alloc e dev forceLocal)) : (h.next (.alloc e dev forceLocal)).Inv := by
  simp only [next, PfsTable.pfsalloc]
  by_cases hfull : h.table.nchains = maxCluster
  · rw [if_pos hfull, if_pos hfull]
    have hmax : h.table.nmasters ≤ max (max h.table.nmasters e.nmasters)
      (h.table.masters h.table.nchains) :=
      (Nat.le_max_left _ _).trans (Nat.le_max_left _ _)
    exact ⟨hi.ok.with_nmasters _, hi.table.trans hmax, fun x hx => (hi.recorded x hx).trans hmax,
      hi.seen.trans hmax⟩
  · rw [if_neg hfull, if_neg hfull]
    refine hi.registered (e := { e with kind := if forceLocal then .master else e.kind }) hfull
      (Nat.le_max_left _ _) (fun hk => ?_) ((Nat.le_max_right _ _).trans (Nat.le_max_left _ _))
    rcases hc with hf | ⟨hl, hne⟩ | hcan
    · exact absurd hf hfull
    · rw [if_neg hl] at hk
      exact absurd hk hne
    · exact hcan

/-- What a registration does to the table. -/
theorem remoteRegister_some {t' : PfsTable} (hr : t.remoteRegister e conn link = some t') :
    t.nchains ≠ maxCluster ∧ t' = PfsTable.raise
      (t.push ⟨e.kind, some (.conn conn), some e.fsid⟩) := by
  unfold PfsTable.remoteRegister at hr
  split at hr
  · cases hr
  · split at hr
    · cases hr
    · split at hr
      · cases hr
      · rename_i hfull
        exact ⟨hfull, (Option.some.inj hr).symm⟩

/-- A registration keeps the invariant. -/
theorem Inv.register (hi : h.Inv) (hc : h.Counts (.register e conn link)) :
    (h.next (.register e conn link)).Inv := by
  simp only [next]
  cases hr : h.table.remoteRegister e conn link with
  | none => exact hi
  | some t =>
    obtain ⟨hrec, hcan⟩ := hc (by rw [hr]; rfl)
    obtain ⟨hfull, rfl⟩ := remoteRegister_some hr
    rw [hi.ok.masters_eq] at hrec
    exact hi.registered hfull (Nat.le_refl _) hcan (hrec.trans_eq (by rw [PfsTable.masters_push]))

/-- Every step keeps it. -/
theorem Inv.step {a : PfsAct} (hi : h.Inv) (hc : h.Counts a) (hs : PfsStep h a h') : h'.Inv := by
  obtain ⟨-, rfl⟩ := hs
  cases a with
  | alloc e dev forceLocal => exact hi.alloc hc
  | register e conn link => exact hi.register hc
  | detach j => exact hi.removed (hi.ok.remoteDetach j).1 (hi.ok.remoteDetach j).2
  | dealloc j => exact hi.removed (hi.ok.pfsdealloc j).1 (hi.ok.pfsdealloc j).2
  | freeScan dev => exact hi.removed (hi.ok.pfsfreeScan dev).1 (hi.ok.pfsfreeScan dev).2

/-- It holds for a new PFS. -/
theorem Inv.fresh : PfsHist.fresh.Inv where
  ok := ⟨Nat.zero_le _, fun _ _ => ⟨rfl, rfl⟩, fun _ _ => rfl⟩
  table := Nat.le_of_eq (by decide)
  recorded _ he := by cases he
  seen := Nat.le_refl 0

end PfsHist

/-- **The quorum base covers the masters**, in every run whose registrations can be counted: a
master not seen before comes while the others are still in the table, or the base is above their
number, and a remote element records no more masters than the base or the table has. -/
theorem nmasters_covers {h : PfsHist} {as : List PfsAct}
    (hr : RunMeets PfsStep PfsHist.Counts PfsHist.fresh as h) : BaseCovers h :=
  (hr.invariant (fun hi hc hs => hi.step hc hs) PfsHist.Inv.fresh).covers

/-- The state after a list of steps. -/
def PfsHist.after (as : List PfsAct) : PfsHist := as.foldl PfsHist.next .fresh

/-- A connection whose peer can be registered. -/
def goodLink : PfsTable.Link := ⟨true, false, false⟩

/-- A local slave, and a remote master next to it. -/
def slaveAndMaster : List PfsAct :=
  [.alloc ⟨1, .slave, 1⟩ 0 false, .register ⟨2, .master, 1⟩ 0 goodLink]

/-- The base covers a local slave and a remote master. -/
theorem nmasters_covers_pair :
    RunMeets PfsStep PfsHist.Counts PfsHist.fresh slaveAndMaster (PfsHist.after slaveAndMaster) ∧
      BaseCovers (PfsHist.after slaveAndMaster) := by
  have hrun : RunMeets PfsStep PfsHist.Counts PfsHist.fresh slaveAndMaster
      (PfsHist.after slaveAndMaster) := by
    refine .cons ?_ ⟨rfl, rfl⟩ (.cons ?_ ⟨rfl, rfl⟩ (.nil _))
    · exact .inr (.inl ⟨by decide, by decide⟩)
    · intro _
      have hnone : (PfsHist.fresh.next (.alloc ⟨1, .slave, 1⟩ 0 false)).seenMasters = ∅ := by decide
      refine ⟨by decide, fun _ => .inr (.inl fun f hf => ?_)⟩
      rw [hnone] at hf
      cases hf
  exact ⟨hrun, nmasters_covers hrun⟩

/-- A remote master that leaves is forgotten when the next one comes. -/
def masterReplaced : List PfsAct :=
  slaveAndMaster ++ [.detach 1, .register ⟨3, .master, 1⟩ 1 goodLink]

/-- A master that answers alone. -/
def loneAnswer : CItem :=
  { chain := some ⟨0, .inode, 1, 0, 5, 1024, 0, true⟩, error := 0,
    fed := fun _ hc _ => by cases hc; rfl
    kind := .master, null := false, femod := false, invalid := false }

/-- Actions run while the PFS is not freed. -/
theorem PfsHist.run_after : ∀ (as : List PfsAct) (h : PfsHist),
    (∀ k ≤ as.length, ((as.take k).foldl PfsHist.next h).freed = false) →
    Run PfsStep h as (as.foldl PfsHist.next h)
  | [], h, _ => .nil h
  | a :: as, h, hf => .cons trivial ⟨hf 0 (Nat.zero_le _), rfl⟩
      (PfsHist.run_after as (h.next a) fun k hk => hf (k + 1) (Nat.succ_le_succ hk))

/-- Two masters were seen, the base is 1, and one of them is a quorum. -/
theorem nmasters_behind : Run PfsStep PfsHist.fresh masterReplaced (PfsHist.after masterReplaced) ∧
    (PfsHist.after masterReplaced).seenMasters.card = 2 ∧
    (PfsHist.after masterReplaced).table.nmasters = 1 ∧
    (clusterCheck (PfsHist.after masterReplaced).table.nmasters 0 [loneAnswer] 1 false).result = 0 ∧
    ¬ BaseCovers (PfsHist.after masterReplaced) := by
  have hseen : (PfsHist.after masterReplaced).seenMasters.card = 2 := by decide
  have hbase : (PfsHist.after masterReplaced).table.nmasters = 1 := by decide
  refine ⟨PfsHist.run_after _ _ (by decide), hseen, hbase, by rw [hbase]; decide, fun h => ?_⟩
  have := h.seen
  omega

end Hammer2
