import Hammer2.Lib.Run
import Hammer2.Strategy.Store

/-!
# Isolation of file blocks

The blocks of a PFS under whole-block writes, reads, flushes, evictions, snapshots and remounts. The
state `BlockSys` has the chain of each block, the blockrefs that the snapshots hold, and the storage
that `hammer2_dedup_lookup` may find; beside it runs the map `BlockMap` of what has been written. A
block is overwritten where it lies only if its chain is `Exclusive`, and the invariant keeps the
storage of such a chain away from the other blocks, the snapshots and the dedup table.

A dedup hit must not make an exclusive chain, which is what `BlockOk` asks for:
`blockWrite_isolated_of_ok`. Without it, two blocks lose their contents to each other, or a write is
lost.

Reference: `hammer2_strategy.c:632-1376`, `hammer2_chain.c:1412-1661`, `hammer2_ioctl.c:985-1130`.
-/

namespace Hammer2

open Transition

/-- What the blocks hold, now and in each snapshot. -/
structure BlockMap (ι β : Type*) where
  now : ι → β
  snaps : List (ι → β)

/-- The blocks of a PFS. -/
structure BlockSys (ι γ κ : Type*) where
  pool : Pool γ
  cur : ι → Option (Chain κ)
  snaps : List (ι → Option (Chain κ))
  /-- The storage that has been recorded for deduplication. -/
  dedup : List Nat
  /-- `pmp->modify_tid`. -/
  tid : Nat
  /-- The storage that has been allocated. -/
  used : List Nat

/-- One operation. A write comes with the answer of `hammer2_dedup_lookup` and with what the
allocator hands out. -/
inductive BlockAct (ι β : Type*)
  | write (i : ι) (m : WriteMode) (data : β) (dedupOff o₁ o₂ o₃ : Nat)
  | read (i : ι)
  | flush (i : ι)
  | evict (i : ι)
  | snapshot
  | remount

/-- A chain after a flush. -/
def Chain.flushed {κ : Type*} (c : Chain κ) : Chain κ :=
  { c with modified := false, update := false, blkmapped := true, blkmapupd := false }

/-- A chain as it is set up from its blockref. -/
def Chain.reloaded {κ : Type*} (c : Chain κ) : Chain κ :=
  { c with
    modified := false
    update := false
    dedupable := false
    initial := false
    blkmapped := true
    blkmapupd := false
    nottested := false
    testedgood := false
    data := none
    error := 0 }

/-- The data pointer goes with the last lock. -/
def Chain.unlocked {κ : Type*} (c : Chain κ) : Chain κ := { c with data := none }

section
variable {ι β γ κ : Type*} [DecidableEq ι] [DecidableEq β] [DecidableEq κ] (cd : Codec β γ)
  (fmt : BlockFormat γ κ)

/-- The state after an operation. -/
def blockNext (s : BlockSys ι γ κ) : BlockAct ι β → BlockSys ι γ κ
  | .write i m data dedupOff o₁ o₂ o₃ =>
    let r := writeFileCore cd fmt m (spaceIo o₁ o₂ o₃) (s.tid + 1) dedupOff data (s.cur i) s.pool
    { s with
      pool := r.2.2
      cur := Function.update s.cur i (r.2.1.map Chain.unlocked)
      tid := s.tid + 1
      used := o₁ :: o₂ :: o₃ :: s.used
      -- `hammer2_dedup_record`
      dedup := if !writesHole cd m data && dedupOff = 0 && recordable m then
        (r.2.1.map (·.dataOff)).toList ++ s.dedup else s.dedup }
  | .read i =>
    match s.cur i with
    | none => s
    | some c =>
      let t := loadData fmt true { s.pool with chain := c }
      { s with pool := t.toPool, cur := Function.update s.cur i (some t.chain.unlocked) }
  | .flush i => { s with cur := Function.update s.cur i ((s.cur i).map Chain.flushed) }
  | .evict i =>
    match s.cur i with
    | none => s
    | some c =>
      if c.modified || c.update then s
      else { s with cur := Function.update s.cur i (some c.reloaded) }
  | .snapshot =>
    let cur := fun i => (s.cur i).map Chain.flushed
    { s with
      cur := cur
      snaps := s.snaps ++ [cur]
      tid := s.tid + 1
      pool.lsnapTid := s.tid + 1 }
  | .remount => { s with cur := fun i => (s.cur i).map Chain.reloaded, dedup := [] }

/-- The map after an operation. -/
def BlockMap.next (m : BlockMap ι β) : BlockAct ι β → BlockMap ι β
  | .write i _ data _ _ _ _ => { m with now := Function.update m.now i data }
  | .snapshot => { m with snaps := m.snaps ++ [m.now] }
  | .read _ | .flush _ | .evict _ | .remount => m

/-- The answers that a write may get: storage that has not been used, and a dedup hit on recorded
storage that holds the very bytes. -/
def BlockSys.Answers (s : BlockSys ι γ κ) : BlockAct ι β → Prop
  | .write _ m data dedupOff o₁ o₂ o₃ =>
    [o₁, o₂, o₃].Nodup ∧ (∀ off ∈ [o₁, o₂, o₃], hasStorage off = true ∧ off ∉ s.used) ∧
      (dedupOff ≠ 0 → m.dedupEnable = true ∧ dedupOff ∈ s.dedup ∧ ∃ d ∈ storedForm cd m data,
        radixOf dedupOff = d.radix ∧ s.pool.storage dedupOff = d.content)
  | _ => True

/-- A step of the blocks and of the map beside them. -/
def BlockStep (s : BlockSys ι γ κ × BlockMap ι β) (a : BlockAct ι β)
    (t : BlockSys ι γ κ × BlockMap ι β) : Prop :=
  s.1.Answers cd a ∧ t = (blockNext cd fmt s.1 a, s.2.next a)

/-- A read of a block. A hole reads as zeros. -/
def readBlock (p : Pool γ) : Option (Chain κ) → Except Nat β
  | none => .ok cd.zeros
  | some c => readChain cd fmt { p with chain := c }

/-- Every block reads as it was last written, and through a snapshot as it was last written
before. -/
def ReadsBack (s : BlockSys ι γ κ) (m : BlockMap ι β) : Prop :=
  (∀ i, readBlock cd fmt s.pool (s.cur i) = .ok (m.now i)) ∧
    List.Forall₂ (fun snap last => ∀ i,
      readBlock cd fmt s.pool ((snap i).map Chain.reloaded) = .ok (last i)) s.snaps m.snaps

/-- A write that finds its bytes on the device belongs to a file with check codes, and its block
does not keep its storage. -/
def BlockOk (s : BlockSys ι γ κ × BlockMap ι β) : BlockAct ι β → Prop
  | .write i m _ dedupOff _ _ _ => dedupOff ≠ 0 → m.check ≠ .none ∧
      ∀ c ∈ s.1.cur i, assigns { s.1.pool with chain := c } = true
  | _ => True

end

section
variable {ι β γ κ : Type*} [DecidableEq κ] (cd : Codec β γ) (fmt : BlockFormat γ κ)

/-- The formats decode what they encoded, and a compressed block fits into half of a block. -/
structure Codec.Lawful (cd : Codec β γ) : Prop where
  decode_raw : ∀ data, cd.decode .none (2 ^ pbufRadix) (cd.raw data) = some data
  decode_compress : ∀ {algo data compSize content radix},
    cd.compress algo data = some (compSize, content) → compBlockRadix compSize = some radix →
    cd.decode algo (2 ^ radix) content = some data
  compSize_le : ∀ {algo data compSize content},
    cd.compress algo data = some (compSize, content) → compSize ≤ 32768

/-! ## The invariant -/

/-- The chain is a stored block that reads as `b`. -/
structure Holds (p : Pool γ) (c : Chain κ) (b : β) : Prop where
  type : c.type = .data
  isRoot : c.isRoot = false
  initial : c.initial = false
  storage : hasStorage c.dataOff = true
  bytes : c.bytes ≠ 0
  data : c.data = none
  error : c.error = 0
  nottested : c.nottested = false
  passes : c.testcheck fmt (p.storage c.dataOff) = true
  decodes : cd.decode c.comp c.bytes (p.storage c.dataOff) = some b

/-- The chain may be overwritten where it lies, now or after it has been loaded again. -/
def Chain.Exclusive (c : Chain κ) : Prop :=
  c.check = .none ∨ c.modified = true ∧ c.dedupable = false

/-- No other block, no snapshot and no entry of the dedup table names the storage at `off`. -/
structure Alone (s : BlockSys ι γ κ) (i : ι) (off : Nat) : Prop where
  cur : ∀ j c, j ≠ i → s.cur j = some c → c.dataOff ≠ off
  snap : ∀ snap ∈ s.snaps, ∀ j c, snap j = some c → c.dataOff ≠ off
  dedup : off ∉ s.dedup

/-- Every block holds what the map says, and exclusive storage is not named twice. The exception is
a snapshot, whose storage is not overwritten because of its age. -/
structure IsolationInv (s : BlockSys ι γ κ × BlockMap ι β) : Prop where
  emerg : s.1.pool.emerg = false
  lsnapTid : s.1.pool.lsnapTid ≤ s.1.tid
  modifyTid : ∀ i c, s.1.cur i = some c → c.modifyTid ≤ s.1.tid
  hole : ∀ i, s.1.cur i = none → s.2.now i = cd.zeros
  holds : ∀ i c, s.1.cur i = some c → Holds cd fmt s.1.pool c (s.2.now i)
  snaps : List.Forall₂ (fun snap last => ∀ i, (snap i = none → last i = cd.zeros) ∧
    ∀ c, snap i = some c → Holds cd fmt s.1.pool c (last i)) s.1.snaps s.2.snaps
  exclusive : ∀ i c, s.1.cur i = some c → c.Exclusive → c.dataOff ∉ s.1.dedup ∧
    ∀ j c', j ≠ i → s.1.cur j = some c' → c'.dataOff ≠ c.dataOff
  aged : ∀ i c, s.1.cur i = some c → c.Exclusive → ∀ snap ∈ s.1.snaps, ∀ j c', snap j = some c' →
    c'.dataOff = c.dataOff → c.modified = false ∧ c.modifyTid ≤ s.1.pool.lsnapTid
  used : (∀ i c, s.1.cur i = some c → c.dataOff ∈ s.1.used) ∧
    (∀ snap ∈ s.1.snaps, ∀ i c, snap i = some c → c.dataOff ∈ s.1.used) ∧
    ∀ off ∈ s.1.dedup, off ∈ s.1.used
  dedup : ∀ off ∈ s.1.dedup, hasStorage off = true

/-- `c'` is `c` with other flags, and is not exclusive or modified unless `c` is. -/
structure Relabels (c c' : Chain κ) : Prop where
  dataOff : c'.dataOff = c.dataOff
  modifyTid : c'.modifyTid = c.modifyTid
  exclusive : c'.Exclusive → c.Exclusive
  modified : c'.modified = true → c.modified = true
  holds : ∀ {p : Pool γ} {b : β}, Holds cd fmt p c b → Holds cd fmt p c' b

variable {cd fmt} {s : BlockSys ι γ κ} {m : BlockMap ι β} {p : Pool γ} {c : Chain κ} {b : β}

/-- A chain that holds content is a stored block. -/
theorem Holds.storedBlock (h : Holds cd fmt p c b) : StoredBlock { p with chain := c } :=
  ⟨h.type, h.isRoot, h.initial, h.storage, h.bytes, fun _ hd => nomatch h.data.symm.trans hd⟩

/-- Its content depends on its own storage only. -/
theorem Holds.congr {p' : Pool γ} (h : Holds cd fmt p c b)
    (heq : p'.storage c.dataOff = p.storage c.dataOff) : Holds cd fmt p' c b :=
  { h with passes := heq ▸ h.passes, decodes := heq ▸ h.decodes }

/-- A read returns what the chain holds. -/
theorem Holds.readChain (h : Holds cd fmt p c b) :
    readChain cd fmt { p with chain := c } = .ok b :=
  (readChain_of_passes cd fmt (r := { p with chain := c }) h.type h.initial h.storage h.passes).2
    h.decodes

/-- Loading the chain again keeps its content. -/
theorem Holds.reloaded (h : Holds cd fmt p c b) : Holds cd fmt p c.reloaded b where
  type := h.type
  isRoot := h.isRoot
  initial := rfl
  storage := h.storage
  bytes := h.bytes
  data := rfl
  error := rfl
  nottested := rfl
  passes := by
    rw [← h.passes]
    simp only [Chain.testcheck, h.nottested, Chain.reloaded]
    rfl
  decodes := h.decodes

/-- A flush keeps it. -/
theorem Holds.flushed (h : Holds cd fmt p c b) : Holds cd fmt p c.flushed b :=
  ⟨h.type, h.isRoot, h.initial, h.storage, h.bytes, h.data, h.error, h.nottested, h.passes,
    h.decodes⟩

/-- The invariant is what the reads need. -/
theorem IsolationInv.readsBack (h : IsolationInv cd fmt (s, m)) : ReadsBack cd fmt s m := by
  refine ⟨fun i => ?_, ?_⟩
  · cases hc : s.cur i with
    | none => exact congrArg _ (h.hole i hc).symm
    | some c => exact (h.holds i c hc).readChain
  · refine h.snaps.imp fun snap last hsnap i => ?_
    cases hc : snap i with
    | none => exact congrArg _ ((hsnap i).1 hc).symm
    | some c => exact ((hsnap i).2 c hc).reloaded.readChain

/-! ## Steps that only change flags -/

theorem Relabels.flushed (c : Chain κ) : Relabels cd fmt c c.flushed where
  dataOff := rfl
  modifyTid := rfl
  exclusive := by
    rintro (h | ⟨h, -⟩)
    · exact .inl h
    · cases h
  modified := fun h => nomatch h
  holds := Holds.flushed

theorem Relabels.reloaded (c : Chain κ) : Relabels cd fmt c c.reloaded where
  dataOff := rfl
  modifyTid := rfl
  exclusive := by
    rintro (h | ⟨h, -⟩)
    · exact .inl h
    · cases h
  modified := fun h => nomatch h
  holds := Holds.reloaded

theorem Relabels.loaded (p : Pool γ) (c : Chain κ) :
    Relabels cd fmt c { p with chain := c : ChainSys γ κ }.loaded.chain.unlocked where
  dataOff := rfl
  modifyTid := rfl
  exclusive := id
  modified := id
  holds := fun h => ⟨h.type, h.isRoot, h.initial, h.storage, h.bytes, rfl, rfl, h.nottested,
    h.passes, h.decodes⟩

/-- New flags on the chains, with no more in the dedup table, keep the invariant. -/
theorem IsolationInv.relabel (h : IsolationInv cd fmt (s, m)) {cur' : ι → Option (Chain κ)}
    {dedup' : List Nat} (hcur : ∀ i, Option.Rel (Relabels cd fmt) (s.cur i) (cur' i))
    (hdedup : dedup' ⊆ s.dedup) :
    IsolationInv cd fmt ({ s with cur := cur', dedup := dedup' }, m) := by
  have hback (i : ι) (c' : Chain κ) (hc' : cur' i = some c') :
      ∃ c, s.cur i = some c ∧ Relabels cd fmt c c' := by
    have := hcur i
    rw [hc'] at this
    cases hc : s.cur i with
    | none => rw [hc] at this; cases this
    | some c => rw [hc] at this; exact ⟨c, rfl, by cases this; assumption⟩
  refine { h with
    modifyTid := fun i c' hc' => ?_
    hole := fun i hi => h.hole i ?_
    holds := fun i c' hc' => ?_
    exclusive := fun i c' hc' hex => ?_
    aged := fun i c' hc' hex snap hsnap j d hd heq => ?_
    used := ⟨fun i c' hc' => ?_, h.used.2.1, fun off hoff => h.used.2.2 off (hdedup hoff)⟩
    dedup := fun off hoff => h.dedup off (hdedup hoff) }
  · obtain ⟨c, hc, hrel⟩ := hback i c' hc'
    rw [hrel.modifyTid]
    exact h.modifyTid i c hc
  · have := hcur i
    rw [show cur' i = none from hi] at this
    cases hc : s.cur i with
    | none => rfl
    | some c => rw [hc] at this; cases this
  · obtain ⟨c, hc, hrel⟩ := hback i c' hc'
    exact hrel.holds (h.holds i c hc)
  · obtain ⟨c, hc, hrel⟩ := hback i c' hc'
    obtain ⟨hnot, hother⟩ := h.exclusive i c hc (hrel.exclusive hex)
    rw [hrel.dataOff]
    refine ⟨fun hmem => hnot (hdedup hmem), fun j d' hj hd' => ?_⟩
    obtain ⟨d, hd, hreld⟩ := hback j d' hd'
    rw [hreld.dataOff]
    exact hother j d hj hd
  · obtain ⟨c, hc, hrel⟩ := hback i c' hc'
    obtain ⟨hmod, htid⟩ := h.aged i c hc (hrel.exclusive hex) snap hsnap j d hd
      (heq.trans hrel.dataOff)
    exact ⟨Bool.eq_false_iff.2 fun hm => by simp [hrel.modified hm] at hmod,
      hrel.modifyTid.le.trans htid⟩
  · obtain ⟨c, hc, hrel⟩ := hback i c' hc'
    rw [hrel.dataOff]
    exact h.used.1 i c hc

/-- A snapshot of a flushed PFS keeps the invariant. -/
theorem IsolationInv.snap (h : IsolationInv cd fmt (s, m)) (hflushed : ∀ i c, s.cur i = some c →
    c.modified = false) :
    IsolationInv cd fmt ({ s with
      snaps := s.snaps ++ [s.cur], tid := s.tid + 1, pool.lsnapTid := s.tid + 1 },
      { m with snaps := m.snaps ++ [m.now] }) := by
  refine
    { emerg := h.emerg
      lsnapTid := le_rfl
      modifyTid := fun i c hc => (h.modifyTid i c hc).trans (Nat.le_succ _)
      hole := h.hole
      holds := fun i c hc => (h.holds i c hc).congr rfl
      snaps := ?_
      exclusive := h.exclusive
      aged := fun i c hc _ _ _ _ _ _ _ =>
        ⟨hflushed i c hc, (h.modifyTid i c hc).trans (Nat.le_succ _)⟩
      used := ⟨h.used.1, fun snap hsnap i c hc => ?_, h.used.2.2⟩
      dedup := h.dedup }
  · refine List.rel_append ?_ ?_
    · exact h.snaps.imp fun snap last hsnap i =>
        ⟨(hsnap i).1, fun c hc => ((hsnap i).2 c hc).congr rfl⟩
    · exact .cons (fun i => ⟨h.hole i, fun c hc => (h.holds i c hc).congr rfl⟩) .nil
  · rcases List.mem_append.1 hsnap with hsnap | hsnap
    · exact h.used.2.1 snap hsnap i c hc
    · rw [List.mem_singleton.1 hsnap] at hc
      exact h.used.1 i c hc

/-! ## Writes -/

section
variable [DecidableEq ι] {i : ι} {c' : Chain κ} {p' : Pool γ} {dedup' used' : List Nat} {data : β}

/-- A new chain in a block keeps the invariant, if its storage was nobody else's and is not shared
by this write, or if it is from the dedup table and the chain does not claim it. -/
theorem IsolationInv.put (shared : Bool) (h : IsolationInv cd fmt (s, m))
    (hholds : Holds cd fmt p' c' data) (hemerg : p'.emerg = false)
    (hlsnap : p'.lsnapTid = s.pool.lsnapTid) (htid : c'.modifyTid ≤ s.tid + 1)
    (halone : shared = false → Alone s i c'.dataOff)
    (hframe : ∀ off ∈ s.used, (shared = false → off ≠ c'.dataOff) →
      p'.storage off = s.pool.storage off)
    (hshared : shared = true → c'.dataOff ∈ s.dedup ∧ ¬c'.Exclusive)
    (hdedup : dedup' = s.dedup ∨ dedup' = c'.dataOff :: s.dedup ∧ ¬c'.Exclusive)
    (hused : s.used ⊆ used') (hoff : c'.dataOff ∈ used') :
    IsolationInv cd fmt (⟨p', Function.update s.cur i (some c'), s.snaps, dedup', s.tid + 1, used'⟩,
      { m with now := Function.update m.now i data }) := by
  have hcur (j : ι) (d : Chain κ) (hd : Function.update s.cur i (some c') j = some d) :
      j = i ∧ d = c' ∨ j ≠ i ∧ s.cur j = some d := by
    by_cases hj : j = i
    · subst hj
      exact .inl ⟨rfl, by simpa using hd.symm⟩
    · exact .inr ⟨hj, by rwa [Function.update_of_ne hj] at hd⟩
  -- an exclusive chain elsewhere has other storage, whichever kind of write this is
  have hother (j : ι) (d : Chain κ) (hj : j ≠ i) (hd : s.cur j = some d) (hex : d.Exclusive) :
      d.dataOff ≠ c'.dataOff := by
    cases shared with
    | false => exact (halone rfl).cur j d hj hd
    | true => exact fun heq => (h.exclusive j d hd hex).1 (heq ▸ (hshared rfl).1)
  -- an exclusive chain of this write has storage of its own
  have hown (hex : c'.Exclusive) : dedup' = s.dedup ∧ Alone s i c'.dataOff := by
    cases shared with
    | false =>
      rcases hdedup with hdedup | ⟨-, hnot⟩
      · exact ⟨hdedup, halone rfl⟩
      · exact absurd hex hnot
    | true => exact absurd hex (hshared rfl).2
  refine
    { emerg := hemerg
      lsnapTid := (hlsnap.le.trans h.lsnapTid).trans (Nat.le_succ _)
      modifyTid := fun j d hd => ?_
      hole := fun j hj => ?_
      holds := fun j d hd => ?_
      snaps := ?_
      exclusive := fun j d hd hex => ?_
      aged := fun j d hd hex snap hsnap k e he heq => ?_
      used := ⟨fun j d hd => ?_, fun snap hsnap j d hd => hused (h.used.2.1 snap hsnap j d hd),
        fun off hoff' => ?_⟩
      dedup := fun off hoff' => ?_ }
  · rcases hcur j d hd with ⟨rfl, rfl⟩ | ⟨-, hd⟩
    · exact htid
    · exact (h.modifyTid j d hd).trans (Nat.le_succ _)
  · by_cases hji : j = i
    · subst hji
      simp at hj
    · simp only [Function.update_of_ne hji] at hj ⊢
      exact h.hole j hj
  · rcases hcur j d hd with ⟨rfl, rfl⟩ | ⟨hj, hd⟩
    · simpa using hholds
    · simp only [Function.update_of_ne hj]
      refine (h.holds j d hd).congr (hframe _ (h.used.1 j d hd) fun hs => ?_)
      exact (halone hs).cur j d hj hd
  · refine ((List.forall₂_and_left (p := (· ∈ s.snaps)) _ _).2 ⟨fun _ => id, h.snaps⟩).imp ?_
    rintro snap last ⟨hsnap, hread⟩ j
    refine ⟨(hread j).1, fun d hd => ((hread j).2 d hd).congr ?_⟩
    exact hframe _ (h.used.2.1 snap hsnap j d hd) fun hs => (halone hs).snap snap hsnap j d hd
  · rcases hcur j d hd with ⟨rfl, rfl⟩ | ⟨hj, hd'⟩
    · obtain ⟨rfl, halone⟩ := hown hex
      refine ⟨halone.dedup, fun k e hk he => ?_⟩
      rcases hcur k e he with ⟨rfl, -⟩ | ⟨-, he⟩
      · exact absurd rfl hk
      · exact halone.cur k e hk he
    · obtain ⟨hnot, hdistinct⟩ := h.exclusive j d hd' hex
      have hne := hother j d hj hd' hex
      refine ⟨fun hmem => ?_, fun k e hk he => ?_⟩
      · rcases hdedup with rfl | ⟨rfl, -⟩
        · exact hnot hmem
        · exact (List.mem_cons.1 hmem).elim hne hnot
      · rcases hcur k e he with ⟨rfl, rfl⟩ | ⟨-, he⟩
        · exact hne.symm
        · exact hdistinct k e hk he
  · rcases hcur j d hd with ⟨rfl, rfl⟩ | ⟨-, hd⟩
    · exact absurd heq ((hown hex).2.snap snap hsnap k e he)
    · rw [hlsnap]
      exact h.aged j d hd hex snap hsnap k e he heq
  · rcases hcur j d hd with ⟨rfl, rfl⟩ | ⟨-, hd⟩
    · exact hoff
    · exact hused (h.used.1 j d hd)
  · rcases hdedup with rfl | ⟨rfl, -⟩
    · exact hused (h.used.2.2 off hoff')
    · rcases List.mem_cons.1 hoff' with rfl | hmem
      · exact hoff
      · exact hused (h.used.2.2 off hmem)
  · rcases hdedup with rfl | ⟨rfl, -⟩
    · exact h.dedup off hoff'
    · rcases List.mem_cons.1 hoff' with rfl | hmem
      · exact hholds.storage
      · exact h.dedup off hmem

/-- A hole in the place of a block keeps the invariant. -/
theorem IsolationInv.punch (h : IsolationInv cd fmt (s, m)) (hused : s.used ⊆ used') :
    IsolationInv cd fmt ({ s with
      cur := Function.update s.cur i none, tid := s.tid + 1, used := used' },
      { m with now := Function.update m.now i cd.zeros }) := by
  have hcur (j : ι) (c : Chain κ) (hc : Function.update s.cur i none j = some c) :
      j ≠ i ∧ s.cur j = some c := by
    by_cases hj : j = i
    · simp [hj] at hc
    · exact ⟨hj, by rwa [Function.update_of_ne hj] at hc⟩
  refine
    { emerg := h.emerg
      lsnapTid := h.lsnapTid.trans (Nat.le_succ _)
      modifyTid := fun j c hc => (h.modifyTid j c (hcur j c hc).2).trans (Nat.le_succ _)
      hole := fun j hj => ?_
      holds := fun j c hc => ?_
      snaps := h.snaps
      exclusive := fun j c hc hex => ?_
      aged := fun j c hc => h.aged j c (hcur j c hc).2
      used := ⟨fun j c hc => hused (h.used.1 j c (hcur j c hc).2),
        fun snap hsnap j c hc => hused (h.used.2.1 snap hsnap j c hc),
        fun off hoff => hused (h.used.2.2 off hoff)⟩
      dedup := h.dedup }
  · by_cases hji : j = i
    · simp [hji]
    · simp only [Function.update_of_ne hji] at hj ⊢
      exact h.hole j hj
  · simp only [Function.update_of_ne (hcur j c hc).1]
    exact h.holds j c (hcur j c hc).2
  · obtain ⟨hnot, hother⟩ := h.exclusive j c (hcur j c hc).2 hex
    exact ⟨hnot, fun k d hk hd => hother k d hk (hcur k d hd).2⟩

omit [DecidableEq κ] [DecidableEq ι] in
/-- What a lawful file stores decodes to the data. -/
theorem Codec.Lawful.storedForm (hcd : cd.Lawful) (w : WriteMode) (data : β) :
    ∃ d, storedForm cd w data = some d ∧ d.radix ≠ 0 ∧ d.radix < 64 ∧
      cd.decode d.comp (2 ^ d.radix) d.content = some data := by
  have hraw : pbufRadix ≠ 0 ∧ pbufRadix < 64 := by decide
  unfold Hammer2.storedForm
  split
  · exact ⟨_, rfl, hraw.1, hraw.2, hcd.decode_raw data⟩
  · exact ⟨_, rfl, hraw.1, hraw.2, hcd.decode_raw data⟩
  · split
    · exact ⟨_, rfl, hraw.1, hraw.2, hcd.decode_raw data⟩
    · rename_i compSize content hattempt
      have hcompress : cd.compress w.comp data = some (compSize, content) := by
        split at hattempt
        · exact hattempt
        · cases hattempt
      obtain ⟨radix, hradix, hne, hlt⟩ :
          ∃ radix, compBlockRadix compSize = some radix ∧ radix ≠ 0 ∧ radix < 64 := by
        have := hcd.compSize_le hcompress
        unfold compBlockRadix
        split_ifs <;> exact ⟨_, rfl, by decide, by decide⟩
      rw [hradix]
      exact ⟨_, rfl, hne, hlt, hcd.decode_compress hcompress hradix⟩

/-- A block that has been stored keeps the invariant. -/
theorem IsolationInv.stored (h : IsolationInv cd fmt (s, m)) {w : WriteMode} {d : StoredForm γ}
    {r : ChainSys γ κ} {dedupOff off : Nat}
    (hstores : Stores fmt w d s.pool (s.tid + 1) off (dedupOff ≠ 0) r)
    (hdecode : cd.decode d.comp (2 ^ d.radix) d.content = some data)
    (hstorage : hasStorage off = true) (halone : dedupOff = 0 → Alone s i off)
    (hshared : dedupOff ≠ 0 → off ∈ s.dedup ∧ w.check ≠ .none)
    (hframe : ∀ o ∈ s.used, (dedupOff = 0 → o ≠ off) → r.storage o = s.pool.storage o)
    (hused : s.used ⊆ used') (hoff : off ∈ used') :
    IsolationInv cd fmt (⟨r.toPool, Function.update s.cur i (some r.chain.unlocked), s.snaps,
      if dedupOff = 0 ∧ recordable w = true then off :: s.dedup else s.dedup, s.tid + 1, used'⟩,
      { m with now := Function.update m.now i data }) := by
  have hdataOff : r.chain.unlocked.dataOff = off := hstores.dataOff
  have hchain : r.chain.unlocked.check = w.check := hstores.check
  have hmodified : r.chain.unlocked.modified = !decide (dedupOff ≠ 0) := hstores.modified
  have hrecorded : r.chain.unlocked.dedupable = (decide (dedupOff ≠ 0) || recordable w) :=
    hstores.dedupable
  refine IsolationInv.put (decide (dedupOff ≠ 0)) h ?_ hstores.emerg hstores.lsnapTid
    hstores.modifyTid.le ?_ ?_ ?_ ?_ hused (hdataOff.symm ▸ hoff)
  · exact
      { type := hstores.type
        isRoot := hstores.isRoot
        initial := hstores.initial
        storage := hdataOff.symm ▸ hstorage
        bytes := by
          rw [show r.chain.unlocked.bytes = 2 ^ d.radix from hstores.bytes]
          exact (Nat.two_pow_pos _).ne'
        data := rfl
        error := hstores.error
        nottested := hstores.nottested
        passes := by
          rw [hdataOff, hstores.content]
          exact hstores.passes
        decodes := by
          rw [hdataOff, hstores.content, show r.chain.unlocked.comp = d.comp from hstores.comp,
            show r.chain.unlocked.bytes = 2 ^ d.radix from hstores.bytes]
          exact hdecode }
  · intro hs
    exact hdataOff.symm ▸ halone (by simpa using hs)
  · intro o ho hne
    refine hframe o ho fun hzero => ?_
    rw [← hdataOff]
    exact hne (by simp [hzero])
  · intro hs
    have hne : dedupOff ≠ 0 := by simpa using hs
    refine ⟨hdataOff.symm ▸ (hshared hne).1, ?_⟩
    rintro (hex | ⟨hex, -⟩)
    · exact (hshared hne).2 (hchain.symm.trans hex)
    · simp [hmodified, hne] at hex
  · split
    · rename_i hrec
      refine .inr ⟨by rw [hdataOff], ?_⟩
      rintro (hex | ⟨-, hex⟩)
      · simp [recordable, hchain ▸ hex] at hrec
      · simp [hrecorded, hrec.2] at hex
    · exact .inl rfl

omit [DecidableEq ι] in
/-- Storage that has not been used is nobody's. -/
theorem IsolationInv.alone_of_fresh (h : IsolationInv cd fmt (s, m))
    {off : Nat} (hoff : off ∉ s.used) :
    Alone s i off :=
  ⟨fun j c _ hc heq => hoff (heq ▸ h.used.1 j c hc),
    fun snap hsnap j c hc heq => hoff (heq ▸ h.used.2.1 snap hsnap j c hc),
    fun hmem => hoff (h.used.2.2 off hmem)⟩

omit [DecidableEq ι] in
/-- The storage of a block that is overwritten where it lies is nobody else's. -/
theorem IsolationInv.alone_of_kept (h : IsolationInv cd fmt (s, m)) (hc : s.cur i = some c)
    (hassigns : assigns { s.pool with chain := c } = false) : Alone s i c.dataOff := by
  obtain ⟨hdedupable, hkept⟩ := (h.holds i c hc).storedBlock.of_not_assigns h.emerg hassigns
  have hex : c.Exclusive := hkept.elim (fun hmod => .inr ⟨hmod, hdedupable⟩) fun hnone =>
    .inl hnone.1
  obtain ⟨hnot, hother⟩ := h.exclusive i c hc hex
  refine ⟨hother, fun snap hsnap j d hd heq => ?_, hnot⟩
  obtain ⟨hmod, htid⟩ := h.aged i c hc hex snap hsnap j d hd heq
  rcases hkept with hkept | ⟨-, hlt⟩
  · exact absurd (hkept.symm.trans hmod) (by decide)
  · exact absurd hlt (Nat.not_lt.2 htid)

variable [DecidableEq β]

/-- A write that meets the condition keeps the invariant. -/
theorem IsolationInv.write (hcd : cd.Lawful) (h : IsolationInv cd fmt (s, m)) {w : WriteMode}
    {dedupOff o₁ o₂ o₃ : Nat} (hans : s.Answers cd (.write i w data dedupOff o₁ o₂ o₃))
    (hok : BlockOk (s, m) (.write i w data dedupOff o₁ o₂ o₃)) :
    IsolationInv cd fmt (blockNext cd fmt s (.write i w data dedupOff o₁ o₂ o₃),
      m.next (.write i w data dedupOff o₁ o₂ o₃)) := by
  obtain ⟨hnodup, hfresh, hhit⟩ := hans
  have hused : s.used ⊆ o₁ :: o₂ :: o₃ :: s.used := fun _ hx => by simp [hx]
  have hnew {off o : Nat} (ho : o ∈ s.used) (hoff : off ∈ [o₁, o₂, o₃]) : o ≠ off :=
    fun heq => (hfresh off hoff).2 (heq ▸ ho)
  have hio : (spaceIo o₁ o₂ o₃).Fresh := ⟨hnodup, fun off hoff => (hfresh off hoff).1⟩
  cases hhole : writesHole cd w data with
  | true =>
    obtain rfl : data = cd.zeros := by
      simp only [writesHole, Bool.and_eq_true, decide_eq_true_eq] at hhole
      exact hhole.2
    have hnext : blockNext cd fmt s (.write i w cd.zeros dedupOff o₁ o₂ o₃) = { s with
        cur := Function.update s.cur i none, tid := s.tid + 1, used :=
          o₁ :: o₂ :: o₃ :: s.used } := by
      simp [blockNext, writeFileCore, hhole, spaceIo]
    rw [hnext]
    exact h.punch hused
  | false =>
    obtain ⟨d, hd, hradix, hlt, hdecode⟩ := hcd.storedForm w data
    have hmatch (hne : dedupOff ≠ 0) : bytesOf dedupOff = 2 ^ d.radix ∧
        s.pool.storage dedupOff = d.content := by
      obtain ⟨-, -, d', hd', hr, hcontent⟩ := hhit hne
      obtain rfl := Option.some.inj (hd.symm.trans hd')
      exact ⟨by rw [bytesOf, hr, if_neg hradix], hcontent⟩
    have hnext {r : Nat × ChainSys γ κ} (hr : writeFileCore cd fmt w (spaceIo o₁ o₂ o₃) (s.tid + 1)
        dedupOff data (s.cur i) s.pool = (r.1, some r.2.chain, r.2.toPool)) :
        blockNext cd fmt s (.write i w data dedupOff o₁ o₂ o₃) =
          ⟨r.2.toPool, Function.update s.cur i (some r.2.chain.unlocked), s.snaps,
            if dedupOff = 0 ∧ recordable w = true then r.2.chain.dataOff :: s.dedup else s.dedup,
            s.tid + 1, o₁ :: o₂ :: o₃ :: s.used⟩ := by
      simp [blockNext, hr, hhole]
    cases hc : s.cur i with
    | none =>
      obtain ⟨-, hstores, hframe⟩ := writeNew_stores fmt o₁ o₂ o₃ (m := w) h.emerg
        (Nat.succ_ne_zero s.tid) hlt hmatch
      rw [hnext (r := writeNew fmt w (spaceIo o₁ o₂ o₃) (s.tid + 1) dedupOff d s.pool)
        (by simp [writeFileCore, hhole, hd, hc]), hstores.dataOff]
      by_cases hzero : dedupOff = 0
      · rw [if_neg (not_not.2 hzero)] at hstores ⊢
        exact h.stored hstores hdecode (hfresh o₃ (by simp)).1
          (fun _ => h.alone_of_fresh (hfresh o₃ (by simp)).2) (fun hne => absurd hzero hne)
          (fun o ho _ => hframe o fun _ => hnew ho (by simp)) hused (by simp)
      · rw [if_pos hzero] at hstores ⊢
        have hmem := (hhit hzero).2.1
        exact h.stored hstores hdecode (h.dedup _ hmem) (fun h => absurd h hzero)
          (fun _ => ⟨hmem, (hok hzero).1⟩) (fun o _ _ => hframe o fun h => absurd h hzero) hused
          (hused (h.used.2.2 _ hmem))
    | some c =>
      have hholds := h.holds i c hc
      obtain ⟨-, hstores, hframe⟩ := writeExisting_stores fmt o₁ o₂ o₃ (m := w) (d := d)
        hholds.storedBlock hholds.data hholds.error h.emerg (Nat.succ_ne_zero s.tid) hradix
        hholds.passes hio fun hne => ⟨(hok hne).2 c hc, hmatch hne⟩
      rw [hnext (r := writeExisting fmt w (spaceIo o₁ o₂ o₃) (s.tid + 1) dedupOff d
        { s.pool with chain := c }) (by simp [writeFileCore, hhole, hd, hc]), hstores.dataOff]
      generalize hoff : (storedAt o₂ o₃ dedupOff d.radix { s.pool with chain := c }).off = off
        at hstores hframe
      by_cases hzero : dedupOff = 0
      · -- the block's own storage or new storage
        have hcases : off = c.dataOff ∧ assigns { s.pool with chain := c } = false ∨
            off ∈ [o₁, o₂, o₃] := by
          subst hoff
          by_cases hsize : c.bytes = 2 ^ d.radix <;>
            cases hassigns : assigns { s.pool with chain := c } <;>
            simp [storedAt, hzero, hsize, hassigns, Left.unwritten, Left.old]
        have hframe' (o : Nat) (ho : o ∈ s.used) (hne : dedupOff = 0 → o ≠ off) := hframe o
          fun hz => ⟨hne hz, hnew ho (by simp), hnew ho (by simp)⟩
        rcases hcases with ⟨rfl, hassigns⟩ | hmem
        · exact h.stored hstores hdecode hholds.storage (fun _ => h.alone_of_kept hc hassigns)
            (fun hne => absurd hzero hne) hframe' hused (hused (h.used.1 i c hc))
        · exact h.stored hstores hdecode (hfresh off hmem).1
            (fun _ => h.alone_of_fresh (hfresh off hmem).2) (fun hne => absurd hzero hne) hframe'
            hused (List.mem_append_left s.used hmem)
      · have hassigns := (hok hzero).2 c hc
        obtain rfl : off = dedupOff := by
          subst hoff
          simp [storedAt, hzero, hassigns, Left.unwritten]
        have hmem := (hhit hzero).2.1
        exact h.stored hstores hdecode (h.dedup _ hmem) (fun h => absurd h hzero)
          (fun _ => ⟨hmem, (hok hzero).1⟩) (fun o _ _ => hframe o fun h => absurd h hzero) hused
          (hused (h.used.2.2 _ hmem))

omit [DecidableEq β] in
/-- One chain with new flags. -/
theorem IsolationInv.relabelOne (h : IsolationInv cd fmt (s, m)) (hc : s.cur i = some c)
    (hrel : Relabels cd fmt c c') :
    IsolationInv cd fmt ({ s with cur := Function.update s.cur i (some c') }, m) := by
  refine h.relabel (fun j => ?_) (List.Subset.refl s.dedup)
  by_cases hj : j = i
  · subst hj
    rw [hc, Function.update_self]
    exact .some hrel
  · rw [Function.update_of_ne hj]
    cases s.cur j with
    | none => exact .none
    | some d => exact .some ⟨rfl, rfl, id, id, id⟩

/-- **One step keeps the blocks apart.** -/
theorem IsolationInv.step (hcd : cd.Lawful) {s t : BlockSys ι γ κ × BlockMap ι β} {a : BlockAct ι β}
    (h : IsolationInv cd fmt s) (hok : BlockOk s a) (hst : BlockStep cd fmt s a t) :
    IsolationInv cd fmt t := by
  obtain ⟨s, m⟩ := s
  obtain ⟨hans, rfl⟩ := hst
  cases a with
  | write i w data dedupOff o₁ o₂ o₃ => exact h.write hcd hans hok
  | read i =>
    cases hc : s.cur i with
    | none =>
      simp only [blockNext, hc]
      exact h
    | some c =>
      have hholds := h.holds i c hc
      have hload := loadData_good fmt (s := { s.pool with chain := c }) hholds.type hholds.initial
        hholds.storage hholds.data hholds.passes
      simp only [blockNext, hc, hload]
      exact h.relabelOne hc (.loaded s.pool c)
  | flush i =>
    cases hc : s.cur i with
    | none =>
      have hsame : Function.update s.cur i none = s.cur := by rw [← hc, Function.update_eq_self]
      simp only [blockNext, hc, Option.map_none, hsame]
      exact h
    | some c =>
      simp only [blockNext, hc, Option.map_some]
      exact h.relabelOne hc (.flushed c)
  | evict i =>
    cases hc : s.cur i with
    | none =>
      simp only [blockNext, hc]
      exact h
    | some c =>
      simp only [blockNext, hc]
      split
      · exact h
      · exact h.relabelOne hc (.reloaded c)
  | snapshot =>
    have hflushed : IsolationInv cd fmt
        ({ s with cur := fun i => (s.cur i).map Chain.flushed }, m) := by
      refine h.relabel (fun i => ?_) (List.Subset.refl s.dedup)
      cases s.cur i with
      | none => exact .none
      | some c => exact .some (.flushed c)
    refine hflushed.snap fun i c hc => ?_
    obtain ⟨c, -, rfl⟩ := Option.map_eq_some_iff.1 hc
    rfl
  | remount =>
    refine h.relabel (fun i => ?_) (List.nil_subset s.dedup)
    cases s.cur i with
    | none => exact .none
    | some c => exact .some (.reloaded c)

end

end

section
variable {ι β γ κ : Type*} [DecidableEq ι] [DecidableEq β] [DecidableEq κ] (cd : Codec β γ)
  (fmt : BlockFormat γ κ)

/-- A new PFS without files, not in the emergency mode. -/
structure BlockInit (s : BlockSys ι γ κ) : Prop where
  cur : ∀ i, s.cur i = none
  snaps : s.snaps = []
  dedup : s.dedup = []
  emerg : s.pool.emerg = false
  lsnapTid : s.pool.lsnapTid ≤ s.tid

omit [DecidableEq ι] [DecidableEq β] in
/-- An empty file meets the invariant. -/
theorem BlockInit.inv {s : BlockSys ι γ κ} (h : BlockInit s) :
    IsolationInv cd fmt (s, ⟨fun _ => cd.zeros, []⟩) where
  emerg := h.emerg
  lsnapTid := h.lsnapTid
  modifyTid := fun i c hc => nomatch (h.cur i).symm.trans hc
  hole := fun _ _ => rfl
  holds := fun i c hc => nomatch (h.cur i).symm.trans hc
  snaps := by
    rw [h.snaps]
    exact .nil
  exclusive := fun i c hc => nomatch (h.cur i).symm.trans hc
  aged := fun i c hc => nomatch (h.cur i).symm.trans hc
  used := ⟨fun i c hc => (nomatch (h.cur i).symm.trans hc), by simp [h.snaps], by simp [h.dedup]⟩
  dedup := by simp [h.dedup]

/-- **Block writes are isolated.** In every run whose dedup hits fall to files with check codes and
to blocks that take new storage, every block reads as it was last written, and through a snapshot as
it was last written before the snapshot. -/
theorem blockWrite_isolated_of_ok (hcd : cd.Lawful) (s : BlockSys ι γ κ) (hinit : BlockInit s)
    (acts : List (BlockAct ι β)) (t : BlockSys ι γ κ × BlockMap ι β)
    (hrun : RunMeets (BlockStep cd fmt) BlockOk (s, ⟨fun _ => cd.zeros, []⟩) acts t) :
    ReadsBack cd fmt t.1 t.2 :=
  IsolationInv.readsBack (hrun.invariant (fun hs hok hst => hs.step hcd hok hst) (hinit.inv cd fmt))

variable [DecidableEq γ]

instance (s : BlockSys ι γ κ) : (a : BlockAct ι β) → Decidable (s.Answers cd a)
  | .write _ m data dedupOff o₁ o₂ o₃ => inferInstanceAs (Decidable ([o₁, o₂, o₃].Nodup ∧
      (∀ off ∈ [o₁, o₂, o₃], hasStorage off = true ∧ off ∉ s.used) ∧
      (dedupOff ≠ 0 → m.dedupEnable = true ∧ dedupOff ∈ s.dedup ∧ ∃ d ∈ storedForm cd m data,
        radixOf dedupOff = d.radix ∧ s.pool.storage dedupOff = d.content)))
  | .read _ | .flush _ | .evict _ | .snapshot | .remount => .isTrue trivial

instance (s : BlockSys ι γ κ × BlockMap ι β) : (a : BlockAct ι β) → Decidable (BlockOk s a)
  | .write i m _ dedupOff _ _ _ => inferInstanceAs (Decidable (dedupOff ≠ 0 → m.check ≠ .none ∧
      ∀ c ∈ s.1.cur i, assigns { s.1.pool with chain := c } = true))
  | .read _ | .flush _ | .evict _ | .snapshot | .remount => .isTrue trivial

/-- The run of some operations, computed. -/
def blockExec (ok : BlockSys ι γ κ × BlockMap ι β → BlockAct ι β → Prop)
    [∀ s a, Decidable (ok s a)] (s : BlockSys ι γ κ × BlockMap ι β) (acts : List (BlockAct ι β)) :
    Option (BlockSys ι γ κ × BlockMap ι β) :=
  exec (fun s a => some (blockNext cd fmt s.1 a, s.2.next a))
    (fun s a => s.1.Answers cd a ∧ ok s a) s acts

/-- Executing the actions gives a run. -/
theorem exists_blockRun {ok : BlockSys ι γ κ × BlockMap ι β → BlockAct ι β → Prop}
    [∀ s a, Decidable (ok s a)] {s : BlockSys ι γ κ × BlockMap ι β} {acts : List (BlockAct ι β)}
    {i : ι} {b : β} {r : Except Nat β}
    (h : (blockExec cd fmt ok s acts).map
      (fun t => (t.2.now i, readBlock cd fmt t.1.pool (t.1.cur i))) = some (b, r)) :
    ∃ t, RunMeets (BlockStep cd fmt) ok s acts t ∧ t.2.now i = b ∧
      readBlock cd fmt t.1.pool (t.1.cur i) = r := by
  obtain ⟨t, hexec, ht⟩ := Option.map_eq_some_iff.1 h
  refine ⟨t, RunMeets.of_exec ?_ hexec, congrArg Prod.fst ht, congrArg Prod.snd ht⟩
  intro s a t hchk hnext
  exact ⟨hchk.2, hchk.1, (Option.some.inj hnext).symm⟩

end

/-- Two blocks of an empty PFS. -/
def emptyBlocks : BlockSys (Fin 2) Nat Nat :=
  ⟨⟨0, 0, 1, 0, false, fun _ => 0⟩, fun _ => none, [], [], 0, []⟩

section
local instance twoBlocks : NeZero 2 := ⟨two_ne_zero⟩

/-- Block 1 shares the storage of block 0 until it is written again. -/
def sharedBlockWrite : List (BlockAct (Fin 2) Nat) :=
  [.write 0 plainMode 5 0 0x10010 0x20010 0x30010,
    .write 1 plainMode 5 0x30010 0x40010 0x50010 0x60010, .snapshot,
    .write 1 plainMode 6 0 0x70010 0x80010 0x90010, .flush 1, .evict 1, .read 0, .remount]

/-- The file of block 0 has check codes, that of block 1 has none. Block 1 is written with the bytes
of block 0 and gets its storage. After a flush and an eviction, nothing says that it is shared. -/
def sharedOverwrite : List (BlockAct (Fin 2) Nat) :=
  [.write 0 plainMode 5 0 0x10010 0x20010 0x30010,
    .write 1 { plainMode with check := .none } 5 0x30010 0x40010 0x50010 0x60010,
    .flush 1, .evict 1,
    .write 1 { plainMode with check := .none } 6 0 0x70010 0x80010 0x90010]

/-- Block 1 keeps the storage of its last write, so that the dedup hit on block 0 goes unused:
nothing is written. -/
def lostWrite : List (BlockAct (Fin 2) Nat) :=
  [.write 0 plainMode 5 0 0x10010 0x20010 0x30010,
    .write 1 { plainMode with check := .disabled } 7 0 0x40010 0x50010 0x60010,
    .write 1 { plainMode with check := .disabled } 5 0x30010 0x70010 0x80010 0x90010]

end

/-- Two blocks that share storage, one of them written. -/
theorem blockWrite_isolated_shared :
    ∃ t, RunMeets (BlockStep numCodec numFormat) BlockOk (emptyBlocks, ⟨fun _ => 0, []⟩)
      sharedBlockWrite t ∧ t.2.now 0 = 5 ∧ ReadsBack numCodec numFormat t.1 t.2 := by
  have hrun : ∃ t, RunMeets (BlockStep numCodec numFormat) BlockOk
      (emptyBlocks, ⟨fun _ => 0, []⟩) sharedBlockWrite t ∧ t.2.now 0 = 5 ∧
      readBlock numCodec numFormat t.1.pool (t.1.cur 0) = .ok 5 :=
    exists_blockRun numCodec numFormat (by decide)
  obtain ⟨t, hrun, hnow, -⟩ := hrun
  refine ⟨t, hrun, hnow, blockWrite_isolated_of_ok numCodec numFormat ?_ emptyBlocks ?_ _ t hrun⟩
  · exact ⟨fun _ => rfl, (fun h => nomatch h), (fun h => nomatch h)⟩
  · exact ⟨fun _ => rfl, rfl, rfl, rfl, le_rfl⟩

/-- Block 0 reads as what was written to block 1, and block 1 reads as what was written before. -/
theorem blockWrite_not_isolated :
    (∃ t, Run (BlockStep numCodec numFormat) (emptyBlocks, ⟨fun _ => 0, []⟩) sharedOverwrite t ∧
        t.2.now 0 = 5 ∧ readBlock numCodec numFormat t.1.pool (t.1.cur 0) = .ok 6) ∧
      ∃ t, Run (BlockStep numCodec numFormat) (emptyBlocks, ⟨fun _ => 0, []⟩) lostWrite t ∧
        t.2.now 1 = 5 ∧ readBlock numCodec numFormat t.1.pool (t.1.cur 1) = .ok 7 :=
  ⟨exists_blockRun numCodec numFormat (by decide), exists_blockRun numCodec numFormat (by decide)⟩

end Hammer2
