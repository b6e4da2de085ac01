import Hammer2.Disk

/-!
# Modifying a chain

`hammer2_chain_modify` makes a chain writable. It resolves the data, flags the chain `MODIFIED` and
`UPDATE` and counts it, assigns new storage unless the block may be overwritten where it lies, and
copies the old data over. `hammer2_chain_resize` is a modify followed by an allocation of the new
size. Storage holds one content of type `γ` per allocated block, named by its `data_off` with the
radix in the low bits; `κ` are the check codes.

The calls that can fail are inputs: `ModifyIo` says what the device and the allocator answer.

Reference: `hammer2_chain.c:1026-1150`, `hammer2_chain.c:1349-1840`, `hammer2_vfsops.c:2396-2464`.
-/

namespace Hammer2

/-- `HAMMER2_ERROR_EIO`. -/
def errorEio : Nat := 0x1

/-- `HAMMER2_ERROR_CHECK`. -/
def errorCheck : Nat := 0x2

/-- `HAMMER2_ERROR_ENOSPC`. -/
def errorEnospc : Nat := 0x20

/-- The errors of a failed call. -/
abbrev ErrorCode := { e : Nat // e ≠ 0 }

/-- `HAMMER2_CHECK_*`. -/
inductive CheckAlgo where
  | none | disabled | iscsi32 | xxhash64 | sha192 | freemap
  deriving DecidableEq, Repr

/-- `HAMMER2_COMP_*`. -/
inductive CompAlgo where
  | none | autozero | lz4 | zlib
  deriving DecidableEq, Repr

/-- The content of a cleared block, the check code of a content, and a cleared check field. -/
structure BlockFormat (γ κ : Type*) where
  zero : γ
  code : CheckAlgo → γ → κ
  blank : κ

/-- `hammer2_chain_t`, as far as a modify reads and writes it. `data` names the storage whose buffer
`chain->data` points into. -/
structure Chain (κ : Type*) where
  type : BrefType
  /-- The chain is `hmp->vchain` or `hmp->fchain`. -/
  isRoot : Bool
  /-- The chain has a `pmp`. -/
  pmp : Bool
  modified : Bool
  update : Bool
  dedupable : Bool
  initial : Bool
  blkmapped : Bool
  blkmapupd : Bool
  nottested : Bool
  testedgood : Bool
  dataOff : Nat
  mirrorTid : Nat
  modifyTid : Nat
  /-- `HAMMER2_BREF_FLAG_EMERG_MIP`. -/
  emergMip : Bool
  comp : CompAlgo
  check : CheckAlgo
  code : κ
  bytes : Nat
  data : Option Nat
  error : Nat

/-- The counters, the transaction ids and the storage that the chains of a PFS share. -/
structure Pool (γ : Type*) where
  /-- `hammer2_count_chain_modified`. -/
  countModified : Int
  /-- `pmp->inmem_dirty_chains`. -/
  dirtyChains : Int
  /-- `hmp->voldata.mirror_tid`. -/
  mirrorTid : Nat
  /-- `pmp->iroot->meta.pfs_lsnap_tid`. -/
  lsnapTid : Nat
  /-- `HMNT2_EMERG`. -/
  emerg : Bool
  storage : Nat → γ

/-- A chain with what a modify of it works on. -/
structure ChainSys (γ κ : Type*) extends Pool γ where
  chain : Chain κ

/-- What the calls inside of a modify answer: whether the buffer of the old storage is available,
what the allocator returns, and whether the buffer of the assigned storage is available. -/
structure ModifyIo where
  load : Bool
  alloc : Except ErrorCode Nat
  buffer : Bool

/-- `HAMMER2_OFF_MASK_RADIX` is 0x3f: the part of a `data_off` below it is the radix. -/
def radixOf (dataOff : Nat) : Nat := dataOff % 64

/-- `data_off & ~HAMMER2_OFF_MASK_RADIX` is not zero. -/
def hasStorage (dataOff : Nat) : Bool := 0 < dataOff / 64

/-- The size a `data_off` names: `1 << radix`, or zero without a radix. -/
def bytesOf (dataOff : Nat) : Nat := if radixOf dataOff = 0 then 0 else 2 ^ radixOf dataOff

section
variable {γ κ : Type*} [DecidableEq κ] (fmt : BlockFormat γ κ)

/-- `hammer2_chain_testcheck`. -/
def Chain.testcheck (c : Chain κ) (content : γ) : Bool :=
  c.nottested ||
    match c.check with
    | .none | .disabled => true
    | algo => fmt.code algo content = c.code

/-- `hammer2_chain_setcheck`. -/
def Chain.setcheck (c : Chain κ) (content : γ) : Chain κ :=
  let c := { c with nottested := false }
  match c.check with
  | .none | .disabled => c
  | algo => { c with code := fmt.code algo content }

/-- The flags and the error that a load with a good buffer leaves. -/
def Chain.tested (c : Chain κ) (content : γ) : Chain κ :=
  if c.initial then { c with initial := false, nottested := true, error := 0 }
  else if c.modified then { c with error := 0 }
  else if c.testedgood then { c with error := 0 }
  else if c.testcheck fmt content then { c with testedgood := true, error := 0 }
  else { c with error := errorCheck }

/-- `hammer2_chain_load_data`; `load` says whether the buffer is available. -/
def loadData (load : Bool) (s : ChainSys γ κ) : ChainSys γ κ :=
  if s.chain.data.isSome || !hasStorage s.chain.dataOff then s
  else if !load then { s with chain.error := errorEio }
  else
    -- `hammer2_io_new` clears the buffer of an `INITIAL` chain
    let storage := if s.chain.initial then Function.update s.storage s.chain.dataOff fmt.zero
      else s.storage
    let c := s.chain.tested fmt (storage s.chain.dataOff)
    match c.type with
    | .volume | .freemap => { s with chain := { c with error := errorEio }, storage := storage }
    | _ => { s with chain := { c with data := some c.dataOff }, storage := storage }

/-- The test of `hammer2_chain_modify` for loading the data first. -/
def Chain.needsLoad (c : Chain κ) (optdata : Bool) : Bool :=
  c.data.isNone && c.bytes ≠ 0 && !optdata && hasStorage c.dataOff

/-- `newmod`: the chain may not be overwritten where it lies. -/
def newmod (s : ChainSys γ κ) : Bool :=
  let c := s.chain
  if c.modified then c.dedupable
  else if (c.type = .data || c.type = .dirent) && !c.initial && !c.dedupable &&
      c.check = .none && c.pmp && s.lsnapTid < c.modifyTid then false
  else !(s.emerg && c.pmp && s.lsnapTid < c.modifyTid)

/-- A modify of this chain assigns new storage. -/
def assigns (s : ChainSys γ κ) : Bool :=
  !s.chain.isRoot && s.chain.bytes ≠ 0 && (!hasStorage s.chain.dataOff || newmod s)

/-- `MODIFIED` and `UPDATE` are set, and a chain that was not modified is counted. -/
def flagModified (s : ChainSys γ κ) : ChainSys γ κ :=
  { s with
    chain.modified := true
    chain.update := true
    countModified := if s.chain.modified then s.countModified else s.countModified + 1
    dirtyChains := if !s.chain.modified && s.chain.pmp then s.dirtyChains + 1 else s.dirtyChains }

/-- The error exit: the flags that this call has set on `entry` are cleared again. The count of the
PFS is not taken back. -/
def undoModified (entry s : ChainSys γ κ) : ChainSys γ κ :=
  { s with
    chain.modified := if entry.chain.modified then s.chain.modified else false
    chain.update := if entry.chain.update then s.chain.update else false
    countModified := if entry.chain.modified then s.countModified else s.countModified - 1 }

/-- The storage of a dedup hit is installed. -/
def assignDedup (dedupOff : Nat) (s : ChainSys γ κ) : ChainSys γ κ :=
  { s with
    chain.dataOff := dedupOff
    chain.bytes := bytesOf dedupOff
    chain.error := 0
    chain.modified := false
    chain.dedupable := true
    countModified := s.countModified - 1
    dirtyChains := if s.chain.pmp then s.dirtyChains - 1 else s.dirtyChains }

/-- New storage is allocated. `DEDUPABLE` goes before the error is looked at. -/
def assignAlloc (alloc : Except ErrorCode Nat) (s : ChainSys γ κ) :
    Except ErrorCode Unit × ChainSys γ κ :=
  let s := { s with chain.dedupable := false }
  match alloc with
  | .ok off => (.ok (), { s with chain.dataOff := off, chain.emergMip := false })
  | .error e =>
    if s.emerg then (.ok (), { s with chain.emergMip := true }) else (.error e, s)

/-- The buffer of the assigned storage is installed, and holds a copy of the old data unless it is
the storage of a dedup hit. -/
def installBuffer (dedupOff : Nat) (buffer : Bool) (s : ChainSys γ κ) : ChainSys γ κ :=
  let wasinitial := s.chain.initial
  let s := { s with chain.initial := false }
  if !buffer then { s with chain.error := errorEio, chain.data := none }
  else
    let off := s.chain.dataOff
    -- `hammer2_io_new` clears the buffer
    let s := if wasinitial && dedupOff = 0 then
      { s with storage := Function.update s.storage off fmt.zero } else s
    match s.chain.data with
    | some old =>
      let s := { s with chain.error := 0, chain.data := some off }
      if dedupOff = 0 then { s with storage := Function.update s.storage off (s.storage old) }
      else s
    | none =>
      if !wasinitial && dedupOff = 0 then { s with chain.error := errorEio }
      else { s with chain.error := 0, chain.data := some off }

/-- The data block handling at the end of `hammer2_chain_modify`, by blockref type. -/
def cowData (dedupOff : Nat) (optdata buffer : Bool) (s : ChainSys γ κ) : ChainSys γ κ :=
  if s.chain.type = .data && optdata && s.chain.data.isNone && dedupOff = 0 then s
  else match s.chain.type with
    | .volume | .freemap => { s with chain.initial := false }
    | .dirent =>
      if s.chain.bytes = 0 then { s with chain.initial := false }
      else installBuffer fmt dedupOff buffer s
    | .inode | .freemapLeaf | .data | .indirect | .freemapNode =>
      installBuffer fmt dedupOff buffer s
    | .empty | .invalid => { s with chain.initial := false, chain.error := errorEio }

/-- The ids and `BLKMAPUPD` after the storage has been assigned. -/
def stampModified (mtid : Nat) (s : ChainSys γ κ) : ChainSys γ κ :=
  { s with
    chain.mirrorTid := s.mirrorTid + 1
    chain.modifyTid := if mtid = 0 then s.chain.modifyTid else mtid
    chain.blkmapupd := s.chain.blkmapupd || s.chain.blkmapped }

/-- `hammer2_chain_modify` once the data is resolved. -/
def modifyResolved (io : ModifyIo) (mtid dedupOff : Nat) (optdata : Bool) (s : ChainSys γ κ) :
    Nat × ChainSys γ κ :=
  let t := flagModified s
  let r := if !assigns s then (.ok (), t)
    else if dedupOff ≠ 0 then (.ok (), assignDedup dedupOff t)
    else assignAlloc io.alloc t
  match r.1 with
  | .error e => (e.1, undoModified s r.2)
  | .ok () =>
    let t := cowData fmt dedupOff optdata io.buffer (stampModified mtid r.2)
    (t.chain.error, t)

/-- The data is resolved if the caller needs it. -/
def resolveData (io : ModifyIo) (optdata : Bool) (s : ChainSys γ κ) : ChainSys γ κ :=
  if s.chain.needsLoad optdata then loadData fmt io.load s else s

/-- `hammer2_chain_modify`. -/
def chainModify (io : ModifyIo) (mtid dedupOff : Nat) (optdata : Bool) (s : ChainSys γ κ) :
    Nat × ChainSys γ κ :=
  let t := resolveData fmt io optdata s
  if s.chain.needsLoad optdata && t.chain.error ≠ 0 then (t.chain.error, t)
  else modifyResolved fmt io mtid dedupOff optdata t

/-! ## The branches of a modify -/

section
variable {io : ModifyIo} {mtid dedupOff : Nat} {optdata : Bool} {s : ChainSys γ κ}

/-- The end of a modify whose storage has been assigned. -/
def finishModify (io : ModifyIo) (mtid dedupOff : Nat) (optdata : Bool) (s : ChainSys γ κ) :
    Nat × ChainSys γ κ :=
  let t := cowData fmt dedupOff optdata io.buffer (stampModified mtid s)
  (t.chain.error, t)

omit [DecidableEq κ]

/-- A modify that assigns no storage. -/
theorem modifyResolved_kept (hassigns : assigns s = false) :
    modifyResolved fmt io mtid dedupOff optdata s =
      finishModify fmt io mtid dedupOff optdata (flagModified s) := by
  simp [modifyResolved, finishModify, hassigns]

/-- A modify with a dedup hit. -/
theorem modifyResolved_dedup (hassigns : assigns s = true) (hdedup : dedupOff ≠ 0) :
    modifyResolved fmt io mtid dedupOff optdata s =
      finishModify fmt io mtid dedupOff optdata (assignDedup dedupOff (flagModified s)) := by
  simp [modifyResolved, finishModify, hassigns, hdedup]

/-- A modify that gets new storage. -/
theorem modifyResolved_alloc_ok {off : Nat} (hassigns : assigns s = true)
    (halloc : io.alloc = .ok off) :
    modifyResolved fmt io mtid 0 optdata s =
      finishModify fmt io mtid 0 optdata
        { flagModified s with
          chain.dedupable := false, chain.dataOff := off, chain.emergMip := false } := by
  simp [modifyResolved, finishModify, hassigns, halloc, assignAlloc]

/-- In the emergency mode a modify without space goes on in place. -/
theorem modifyResolved_emerg {e : ErrorCode} (hassigns : assigns s = true)
    (halloc : io.alloc = .error e) (hemerg : s.emerg = true) :
    modifyResolved fmt io mtid 0 optdata s =
      finishModify fmt io mtid 0 optdata
        { flagModified s with chain.dedupable := false, chain.emergMip := true } := by
  have hflagged : (flagModified s).emerg = true := hemerg
  simp [modifyResolved, finishModify, hassigns, halloc, assignAlloc, hflagged]

end

/-! ## A modify whose allocation fails -/

/-- The modify gets as far as calling `hammer2_freemap_alloc`: the data is resolved if it has to be,
and the chain is to take new storage. -/
def AllocCalled (io : ModifyIo) (optdata : Bool) (s : ChainSys γ κ) : Prop :=
  (s.chain.needsLoad optdata = true → (resolveData fmt io optdata s).chain.error = 0) ∧
    assigns (resolveData fmt io optdata s) = true

@[simp] theorem loadData_emerg (load : Bool) (s : ChainSys γ κ) :
    (loadData fmt load s).emerg = s.emerg := by
  unfold loadData
  split
  · rfl
  · split
    · rfl
    · dsimp only
      split <;> rfl

@[simp] theorem resolveData_emerg (io : ModifyIo) (optdata : Bool) (s : ChainSys γ κ) :
    (resolveData fmt io optdata s).emerg = s.emerg := by
  unfold resolveData
  split
  · exact loadData_emerg fmt _ s
  · rfl

/-- A load without an error leaves a data pointer. -/
theorem loadData_data {load : Bool} {s : ChainSys γ κ} (hoff : hasStorage s.chain.dataOff = true)
    (herr : (loadData fmt load s).chain.error = 0) : (loadData fmt load s).chain.data ≠ none := by
  unfold loadData at herr ⊢
  by_cases hdata : s.chain.data.isSome
  · rw [if_pos (by simp [hdata])]
    exact Option.isSome_iff_ne_none.1 hdata
  · rw [if_neg (by simp [hdata, hoff])] at herr ⊢
    cases load with
    | false => cases herr
    | true =>
      simp only [Bool.not_true, Bool.false_eq_true, if_false] at herr ⊢
      split at herr
      · cases herr
      · cases herr
      · simp

omit [DecidableEq κ] in
/-- What a failed allocation leaves of a resolved chain: `DEDUPABLE` is gone, and a chain that was
not modified has been counted in the PFS. -/
theorem modifyResolved_alloc_error {io : ModifyIo} {mtid : Nat} {e : ErrorCode}
    {optdata : Bool} {s : ChainSys γ κ} (hassigns : assigns s = true) (halloc : io.alloc = .error e)
    (hemerg : s.emerg = false) :
    modifyResolved fmt io mtid 0 optdata s =
      (e.1, { s with
        chain.dedupable := false
        dirtyChains := if !s.chain.modified && s.chain.pmp then s.dirtyChains + 1
          else s.dirtyChains }) := by
  obtain ⟨⟨countModified, dirtyChains, mirrorTid, lsnapTid, emerg, storage⟩, c⟩ := s
  obtain rfl : emerg = false := hemerg
  simp only [modifyResolved, hassigns, halloc, assignAlloc]
  obtain ⟨_, _, _, modified, update, _, _, _, _, _, _, _, _, _, _, _, _, _, _, _, _⟩ := c
  cases modified <;> cases update <;> simp [undoModified, flagModified]

/-- **A failed modify.** If the allocator fails, the modify returns its error, and it has left
everything as it was exactly when the chain was not `DEDUPABLE`, was `MODIFIED` already or belongs
to no PFS, and its data did not have to be loaded. -/
theorem chainModify_alloc_failed_iff (io : ModifyIo) (mtid : Nat) (e : ErrorCode)
    (optdata : Bool) (s : ChainSys γ κ) (hcalled : AllocCalled fmt io optdata s)
    (halloc : io.alloc = .error e)
    (hemerg : s.emerg = false) :
    (chainModify fmt io mtid 0 optdata s).1 = e.1 ∧
      ((chainModify fmt io mtid 0 optdata s).2 = s ↔
        s.chain.dedupable = false ∧ (s.chain.modified = true ∨ s.chain.pmp = false) ∧
          s.chain.needsLoad optdata = false) := by
  obtain ⟨hload, hassigns⟩ := hcalled
  have hrun : chainModify fmt io mtid 0 optdata s =
      modifyResolved fmt io mtid 0 optdata (resolveData fmt io optdata s) := by
    unfold chainModify
    refine if_neg ?_
    simpa using hload
  rw [hrun, modifyResolved_alloc_error fmt hassigns halloc (by simpa using hemerg)]
  refine ⟨rfl, ?_⟩
  cases hneeds : s.chain.needsLoad optdata with
  | true =>
    -- the data pointer that the load leaves was not there before
    have hs : s.chain.data = none ∧ hasStorage s.chain.dataOff = true := by
      simp only [Chain.needsLoad, Bool.and_eq_true, Option.isNone_iff_eq_none] at hneeds
      exact ⟨hneeds.1.1.1, hneeds.2⟩
    have hloaded : resolveData fmt io optdata s = loadData fmt io.load s := if_pos hneeds
    have hdata : (resolveData fmt io optdata s).chain.data ≠ none := by
      rw [hloaded]
      exact loadData_data fmt hs.2 (hloaded ▸ hload hneeds)
    constructor
    · intro h
      exact absurd ((congrArg (fun t => t.chain.data) h).trans hs.1) hdata
    · rintro ⟨-, -, h⟩
      cases h
  | false =>
    have hsame : resolveData fmt io optdata s = s := if_neg (by simp [hneeds])
    rw [hsame]
    obtain ⟨⟨_, dirtyChains, _, _, _, _⟩, c⟩ := s
    obtain ⟨_, _, pmp, modified, _, dedupable, _, _, _, _, _, _, _, _, _, _, _, _, _, _, _⟩ := c
    cases pmp <;> cases modified <;> simp [eq_comm]

end

/-- Contents are numbers that are their own check code. -/
def numFormat : BlockFormat Nat Nat := ⟨0, fun _ content => content, 0⟩

/-- A modified 64KB data block at 0x10000 whose content has been recorded for deduplication. -/
def recordedChain : Chain Nat where
  type := .data
  isRoot := false
  pmp := true
  modified := true
  update := true
  dedupable := true
  initial := false
  blkmapped := false
  blkmapupd := false
  nottested := false
  testedgood := false
  dataOff := 0x10010
  mirrorTid := 1
  modifyTid := 5
  emergMip := false
  comp := .none
  check := .xxhash64
  code := 7
  bytes := 65536
  data := none
  error := 0

/-- The block as the only modified chain of its PFS. -/
def recordedSys : ChainSys Nat Nat where
  chain := recordedChain
  countModified := 1
  dirtyChains := 1
  mirrorTid := 1
  lsnapTid := 3
  emerg := false
  storage := fun _ => 7

/-- The allocator is out of space. -/
def noSpace : ModifyIo := ⟨true, .error ⟨errorEnospc, by decide⟩, true⟩

/-- The chain of a new block that has no storage yet: the failed modify leaves it as it is. -/
theorem chainModify_alloc_failed_new :
    let s := { recordedSys with chain.dataOff := 0x10, chain.dedupable := false }
    AllocCalled numFormat noSpace true s ∧
      (chainModify numFormat noSpace 6 0 true s).2 = s :=
  ⟨⟨by decide, by decide⟩,
    (chainModify_alloc_failed_iff numFormat noSpace 6 ⟨errorEnospc, by decide⟩ true
      { recordedSys with chain.dataOff := 0x10, chain.dedupable := false }
      ⟨by decide, by decide⟩ rfl rfl).2.2 (by decide)⟩

/-- The failed modify of the recorded block takes its `DEDUPABLE` away, so that the next modify
leaves it where it lies, which it would not have done before. Of a chain that is not modified, the
PFS keeps one in its count. -/
theorem chainModify_alloc_failed_leaks :
    let space : ModifyIo := ⟨true, .ok 0x50010, true⟩
    let clean := { recordedSys with chain.modified := false, countModified := 0, dirtyChains := 0 }
    let failed := chainModify numFormat noSpace 6 0 true recordedSys
    failed.1 = errorEnospc ∧ failed.2.chain.dedupable = false ∧
      (chainModify numFormat space 7 0 true recordedSys).2.chain.dataOff = 0x50010 ∧
      (chainModify numFormat space 7 0 true failed.2).2.chain.dataOff = 0x10010 ∧
      (chainModify numFormat noSpace 6 0 true clean).2.countModified = 0 ∧
      (chainModify numFormat noSpace 6 0 true clean).2.dirtyChains = 1 := by
  decide

end Hammer2
