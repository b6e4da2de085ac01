import Hammer2.Strategy.Failure

/-!
# A block write that succeeds

The counterpart of the failing write: with space and buffers, a write leaves the block with the new
content (`writeExisting_stores`, `writeNew_stores`). Whether it has overwritten the block or taken
new storage is what the flags of the chain then say (`Stores`).

Reference: `hammer2_strategy.c:632-1218`, `hammer2_chain.c:1349-1661`.
-/

namespace Hammer2

section
variable {β γ κ : Type*} [DecidableEq κ] (fmt : BlockFormat γ κ)

/-- The flags that decide whether a block may be overwritten. -/
structure Flagged (s r : ChainSys γ κ) (mtid : Nat) (shared : Bool) : Prop where
  error : r.chain.error = 0
  modified : r.chain.modified = !shared
  dedupable : r.chain.dedupable = shared
  modifyTid : r.chain.modifyTid = mtid
  emerg : r.emerg = false
  lsnapTid : r.lsnapTid = s.lsnapTid

section
variable {io : ModifyIo} {mtid dedupOff new : Nat} {optdata : Bool} {s u : ChainSys γ κ}

omit [DecidableEq κ]

/-- Outside of the emergency mode, a block that may be overwritten has not been recorded. It has
been written since the last flush, or since the last snapshot without a check code. -/
theorem StoredBlock.of_not_assigns (hs : StoredBlock s) (hemerg : s.emerg = false)
    (hassigns : assigns s = false) :
    s.chain.dedupable = false ∧
      (s.chain.modified = true ∨ s.chain.check = .none ∧ s.lsnapTid < s.chain.modifyTid) := by
  have hbytes := hs.bytes
  simp only [assigns, hs.isRoot, hs.storage, newmod, hemerg] at hassigns
  cases hmod : s.chain.modified <;> cases hdedupable : s.chain.dedupable <;> simp_all

/-- The end of a modify sets the flags and fails no more. -/
theorem finishModify_flagged (dedupOff : Nat) {shared : Bool} (htype : u.chain.type = .data)
    (hbuf : io.buffer = true) (hmtid : mtid ≠ 0) (herror : u.chain.error = 0)
    (hdata : optdata = true ∨ u.chain.data ≠ none) (hmod : u.chain.modified = !shared)
    (hded : u.chain.dedupable = shared) (hemerg : u.emerg = false)
    (hlsnap : u.lsnapTid = s.lsnapTid) :
    (finishModify fmt io mtid dedupOff optdata u).1 = 0 ∧
      Flagged s (finishModify fmt io mtid dedupOff optdata u).2 mtid shared := by
  simp only [finishModify, cowData, stampModified, htype, installBuffer, hbuf]
  refine ⟨?_, ?_, ?_, ?_, ?_, ?_, ?_⟩ <;>
    cases hd : u.chain.data <;> cases optdata <;> by_cases hdedup : dedupOff = 0 <;>
      cases hinitial : u.chain.initial <;> simp_all

/-- With space and buffers, a modify succeeds. The block is shared afterwards if it has taken the
storage of a dedup hit. -/
theorem modifyResolved_flagged (io : ModifyIo) (mtid dedupOff : Nat) (optdata : Bool)
    (hs : StoredBlock s) (hemerg : s.emerg = false)
    (hbuf : io.buffer = true) (halloc : io.alloc = .ok new) (hmtid : mtid ≠ 0)
    (herror : s.chain.error = 0) (hdata : optdata = true ∨ s.chain.data ≠ none) :
    (modifyResolved fmt io mtid dedupOff optdata s).1 = 0 ∧
      Flagged s (modifyResolved fmt io mtid dedupOff optdata s).2 mtid
        (assigns s && dedupOff ≠ 0) := by
  cases hassigns : assigns s with
  | false =>
    rw [modifyResolved_kept fmt hassigns]
    exact finishModify_flagged fmt dedupOff hs.type hbuf hmtid herror hdata rfl
      (hs.of_not_assigns hemerg hassigns).1 hemerg rfl
  | true =>
    by_cases hdedup : dedupOff = 0
    · subst hdedup
      rw [modifyResolved_alloc_ok fmt hassigns halloc]
      exact finishModify_flagged fmt 0 hs.type hbuf hmtid herror hdata rfl rfl hemerg rfl
    · rw [modifyResolved_dedup fmt hassigns hdedup]
      simp only [hdedup, ne_eq, not_false_eq_true, decide_true, Bool.and_true]
      exact finishModify_flagged fmt dedupOff hs.type hbuf hmtid rfl hdata rfl rfl hemerg rfl

end

/-- The answers of a device with space and memory, which allocates `o₁`, `o₂` and `o₃`. -/
def spaceIo (o₁ o₂ o₃ : Nat) : WriteIo :=
  ⟨⟨true, .ok o₁, true⟩, .ok o₂, ⟨true, .ok o₃, true⟩, .ok (), true⟩

section
variable {mtid dedupOff radix o₁ o₂ o₃ : Nat} {s : ChainSys γ κ}

/-- The storage a successful write gives a block. -/
def storedAt (o₂ o₃ dedupOff radix : Nat) (s : ChainSys γ κ) : Left :=
  if assigns s && dedupOff ≠ 0 then .unwritten dedupOff (bytesOf dedupOff)
  else if s.chain.bytes ≠ 2 ^ radix then .unwritten o₂ (2 ^ radix)
  else if assigns s then .unwritten o₃ (2 ^ radix)
  else .old s

/-- With space and buffers, the modify of a resize succeeds and copies the data. -/
theorem chainModify_flagged (mtid dedupOff o₁ : Nat) (hs : StoredBlock s)
    (hdata : s.chain.data = none)
    (hemerg : s.emerg = false) (hmtid : mtid ≠ 0)
    (hpass : s.chain.testcheck fmt (s.storage s.chain.dataOff) = true) :
    (chainModify fmt ⟨true, .ok o₁, true⟩ mtid dedupOff false s).1 = 0 ∧
      Flagged s (chainModify fmt ⟨true, .ok o₁, true⟩ mtid dedupOff false s).2 mtid
        (assigns s && dedupOff ≠ 0) := by
  rw [chainModify_load fmt hs hdata hpass rfl]
  obtain ⟨h, h₁, h₂, h₃, h₄, h₅, h₆⟩ := modifyResolved_flagged fmt
    ⟨true, .ok o₁, true⟩ mtid dedupOff
    false hs.loaded hemerg rfl rfl hmtid rfl (.inr (by simp [ChainSys.loaded]))
  exact ⟨h, h₁, h₂, h₃, h₄, h₅, h₆⟩

variable {u : ChainSys γ κ} {shared : Bool} {d : StoredForm γ} {m : WriteMode}

omit [DecidableEq κ] in
/-- A block that a write has just flagged takes new storage again only if it is shared. -/
theorem Flagged.assigns_eq (h : Flagged s u mtid shared) (hu : StoredBlock u) :
    assigns u = shared := by
  have hbytes := hu.bytes
  simp only [assigns, newmod, hu.isRoot, hu.storage, h.modified, h.dedupable, h.emerg]
  cases shared <;> simp [hbytes]

/-- A successful assignment. -/
theorem assignExisting_flagged (mtid dedupOff o₁ o₃ : Nat) (hs : StoredBlock s)
    (hdata : s.chain.data = none)
    (herror : s.chain.error = 0) (hemerg : s.emerg = false) (hmtid : mtid ≠ 0) (hradix : radix ≠ 0)
    (hpass : s.chain.testcheck fmt (s.storage s.chain.dataOff) = true)
    (ho₂ : hasStorage o₂ = true) :
    (assignExisting fmt (spaceIo o₁ o₂ o₃) mtid dedupOff radix s).1 = 0 ∧
      Flagged s (assignExisting fmt (spaceIo o₁ o₂ o₃) mtid dedupOff radix s).2 mtid
        (assigns s && dedupOff ≠ 0) ∧
      leftBy fmt (spaceIo o₁ o₂ o₃) mtid dedupOff radix s = storedAt o₂ o₃ dedupOff radix s ∧
      ∀ off, (dedupOff = 0 → off ≠ o₁ ∧ off ≠ o₃) →
        (assignExisting fmt (spaceIo o₁ o₂ o₃) mtid dedupOff radix s).2.storage off =
          s.storage off := by
  by_cases hbytes : s.chain.bytes = 2 ^ radix
  · have hrun : assignExisting fmt (spaceIo o₁ o₂ o₃) mtid dedupOff radix s =
        modifyResolved fmt ⟨true, .ok o₃, true⟩ mtid dedupOff true s := by
      simp [assignExisting, herror, hbytes, chainModify_optdata, spaceIo]
    rw [hrun]
    obtain ⟨h, hflagged⟩ := modifyResolved_flagged fmt ⟨true, .ok o₃, true⟩ mtid
      dedupOff true hs hemerg
      rfl rfl hmtid herror (.inl rfl)
    refine ⟨h, hflagged, ?_, fun off hoff => modifyResolved_storage fmt _ mtid true hs
      fun hzero hnew => (hoff hzero).2 (Except.ok.inj hnew).symm⟩
    by_cases hdedup : dedupOff = 0 <;> cases hassigns : assigns s <;>
      simp [leftBy, herror, hbytes, storedAt, modifyLeft, hassigns, hdata, spaceIo, hdedup]
  · obtain ⟨hmodify, hflagged⟩ := chainModify_flagged fmt mtid dedupOff o₁ hs hdata hemerg
      hmtid hpass
    obtain ⟨hleaves, hframe⟩ := chainModify_leaves fmt ⟨true, .ok o₁, true⟩ mtid dedupOff hs hpass
    have hresize : chainResize fmt ⟨true, .ok o₁, true⟩ (.ok o₂) mtid dedupOff radix s =
        (0, { (chainModify fmt ⟨true, .ok o₁, true⟩ mtid dedupOff false s).2 with
          chain.dataOff := o₂, chain.bytes := 2 ^ radix, chain.data := none }) := by
      simp [chainResize, hradix, hbytes, hmodify, hflagged.error]
    have hrun : assignExisting fmt (spaceIo o₁ o₂ o₃) mtid dedupOff radix s =
        modifyResolved fmt ⟨true, .ok o₃, true⟩ mtid dedupOff true
          (chainResize fmt ⟨true, .ok o₁, true⟩ (.ok o₂) mtid dedupOff radix s).2 := by
      simp [assignExisting, herror, hbytes, hresize, chainModify_optdata, spaceIo]
    rw [hrun, hresize]
    generalize hu : ({ (chainModify fmt ⟨true, .ok o₁, true⟩ mtid dedupOff false s).2 with
      chain.dataOff := o₂, chain.bytes := 2 ^ radix, chain.data := none } : ChainSys γ κ) = u
    have hstored : StoredBlock u := by
      subst hu
      exact ⟨hleaves.type.trans hs.type, hleaves.isRoot.trans hs.isRoot,
        hleaves.initial.trans hs.initial, ho₂, (Nat.two_pow_pos radix).ne', by rintro _ ⟨⟩⟩
    have huflagged : Flagged s u mtid (assigns s && dedupOff ≠ 0) := by
      subst hu
      exact ⟨hflagged.error, hflagged.modified, hflagged.dedupable, hflagged.modifyTid,
        hflagged.emerg, hflagged.lsnapTid⟩
    have hassigns := huflagged.assigns_eq hstored
    obtain ⟨h, hlast⟩ := modifyResolved_flagged fmt ⟨true, .ok o₃, true⟩ mtid dedupOff true hstored
      huflagged.emerg rfl rfl hmtid huflagged.error (.inl rfl)
    rw [hassigns, Bool.and_assoc, Bool.and_self] at hlast
    refine ⟨h, ⟨hlast.error, hlast.modified, hlast.dedupable, hlast.modifyTid, hlast.emerg,
      hlast.lsnapTid.trans huflagged.lsnapTid⟩, ?_, fun off hoff => ?_⟩
    swap
    · rw [modifyResolved_storage fmt _ mtid true hstored fun hzero hnew =>
        (hoff hzero).2 (Except.ok.inj hnew).symm, ← hu]
      exact hframe off fun hzero hnew => (hoff hzero).1 (Except.ok.inj hnew).symm
    have hleft : leftBy fmt (spaceIo o₁ o₂ o₃) mtid dedupOff radix s =
        modifyLeft ⟨true, .ok o₃, true⟩ dedupOff false u := by
      simp [leftBy, herror, hbytes, spaceIo, hresize, hu]
    have hold : Left.old u = .unwritten o₂ (2 ^ radix) := by
      subst hu
      rfl
    rw [hleft]
    by_cases hdedup : dedupOff = 0 <;> cases hown : assigns s <;>
      simp [storedAt, modifyLeft, hassigns, hown, hdedup, hbytes, hold]

/-- The chain `r` holds `d` at `off`, with the flags of storage of its own or of shared storage. -/
structure Stores (m : WriteMode) (d : StoredForm γ) (p : Pool γ) (mtid off : Nat) (shared : Bool)
    (r : ChainSys γ κ) : Prop where
  type : r.chain.type = .data
  isRoot : r.chain.isRoot = false
  initial : r.chain.initial = false
  error : r.chain.error = 0
  dataOff : r.chain.dataOff = off
  bytes : r.chain.bytes = 2 ^ d.radix
  comp : r.chain.comp = d.comp
  check : r.chain.check = m.check
  nottested : r.chain.nottested = false
  passes : r.chain.testcheck fmt d.content = true
  modified : r.chain.modified = !shared
  dedupable : r.chain.dedupable = (shared || recordable m)
  modifyTid : r.chain.modifyTid = mtid
  emerg : r.emerg = false
  lsnapTid : r.lsnapTid = p.lsnapTid
  content : r.storage off = d.content

/-- After `hammer2_chain_setcheck` the check code is that of the content. -/
theorem testcheck_setcheck (c : Chain κ) (content : γ) :
    (c.setcheck fmt content).testcheck fmt content = true := by
  cases hcheck : c.check <;> simp [Chain.testcheck, Chain.setcheck, hcheck]

omit [DecidableEq κ] in
/-- `hammer2_chain_setcheck` sets the check code only. -/
theorem setcheck_eq (c : Chain κ) (content : γ) :
    ∃ code, c.setcheck fmt content = { c with nottested := false, code := code } := by
  cases hcheck : c.check <;> simp [Chain.setcheck, hcheck]

/-- The data of a write goes to the storage that has been assigned. -/
theorem fillBlock_stores (hflagged : Flagged s u mtid shared)
    (hshared : shared = decide (dedupOff ≠ 0)) (htype : u.chain.type = .data)
    (hroot : u.chain.isRoot = false) (hbytes : u.chain.bytes = 2 ^ d.radix)
    (hcontent : dedupOff ≠ 0 → u.storage u.chain.dataOff = d.content) :
    (fillBlock fmt m (.ok ()) dedupOff d u).1 = 0 ∧
      Stores fmt m d s.toPool mtid u.chain.dataOff shared
        (fillBlock fmt m (.ok ()) dedupOff d u).2 ∧
      ∀ off, (dedupOff = 0 → off ≠ u.chain.dataOff) →
        (fillBlock fmt m (.ok ()) dedupOff d u).2.storage off = u.storage off := by
  obtain ⟨code, hcode⟩ := setcheck_eq fmt { u.chain with comp := d.comp, check := m.check }
    d.content
  have hpasses := testcheck_setcheck fmt { u.chain with comp := d.comp, check := m.check } d.content
  rw [hcode] at hpasses
  subst hshared
  by_cases hdedup : dedupOff = 0
  · simp only [fillBlock, hdedup, hcode]
    refine ⟨rfl, ?_, fun off hoff => Function.update_of_ne (hoff trivial) _ _⟩
    constructor
    case passes => exact hpasses
    case content => exact Function.update_self ..
    all_goals simp [htype, hroot, hflagged.error, hbytes, hflagged.modified, hflagged.dedupable,
      hflagged.modifyTid, hflagged.emerg, hflagged.lsnapTid, hdedup]
  · simp only [fillBlock, hdedup, hcode, ne_eq, not_false_eq_true, if_true]
    refine ⟨trivial, ?_, fun _ _ => trivial⟩
    constructor
    case passes => exact hpasses
    case content => exact hcontent hdedup
    all_goals simp [htype, hroot, hflagged.error, hbytes, hflagged.modified, hflagged.dedupable,
      hflagged.modifyTid, hflagged.emerg, hflagged.lsnapTid, hdedup]

/-- **A successful write of a block.** The block holds the new data: in the storage of the dedup hit
if there is one, and otherwise in its own or in new storage. Nothing else is written to. -/
theorem writeExisting_stores (o₁ o₂ o₃ : Nat) (hs : StoredBlock s) (hdata : s.chain.data = none)
    (herror : s.chain.error = 0) (hemerg : s.emerg = false) (hmtid : mtid ≠ 0)
    (hradix : d.radix ≠ 0) (hpass : s.chain.testcheck fmt (s.storage s.chain.dataOff) = true)
    (hfresh : (spaceIo o₁ o₂ o₃).Fresh)
    (hdedup : dedupOff ≠ 0 → assigns s = true ∧ bytesOf dedupOff = 2 ^ d.radix ∧
      s.storage dedupOff = d.content) :
    (writeExisting fmt m (spaceIo o₁ o₂ o₃) mtid dedupOff d s).1 = 0 ∧
      Stores fmt m d s.toPool mtid (storedAt o₂ o₃ dedupOff d.radix s).off (dedupOff ≠ 0)
        (writeExisting fmt m (spaceIo o₁ o₂ o₃) mtid dedupOff d s).2 ∧
      ∀ off, (dedupOff = 0 → off ≠ (storedAt o₂ o₃ dedupOff d.radix s).off ∧ off ≠ o₁ ∧ off ≠ o₃) →
        (writeExisting fmt m (spaceIo o₁ o₂ o₃) mtid dedupOff d s).2.storage off =
          s.storage off := by
  have ho₂ : o₂ ∈ (spaceIo o₁ o₂ o₃).allocated := by
    simp [WriteIo.allocated, spaceIo, Except.toOption]
  obtain ⟨hok, hflagged, hleft, hframe⟩ := assignExisting_flagged fmt mtid dedupOff o₁ o₃ hs hdata
    herror hemerg hmtid hradix hpass (hfresh.storage o₂ ho₂)
  have hleaves := assignExisting_leaves fmt mtid dedupOff hs hradix hpass hfresh
  rw [hleft] at hleaves
  have hshared : (assigns s && decide (dedupOff ≠ 0)) = decide (dedupOff ≠ 0) := by
    by_cases h : dedupOff = 0
    · simp [h]
    · simp [(hdedup h).1]
  rw [hshared] at hflagged
  have hrun : writeExisting fmt m (spaceIo o₁ o₂ o₃) mtid dedupOff d s =
      fillBlock fmt m (.ok ()) dedupOff d
        (assignExisting fmt (spaceIo o₁ o₂ o₃) mtid dedupOff d.radix s).2 := by
    simp only [writeExisting, hok]
    rfl
  rw [hrun]
  generalize (assignExisting fmt (spaceIo o₁ o₂ o₃) mtid dedupOff d.radix s).2 = u at *
  have hbytes : (storedAt o₂ o₃ dedupOff d.radix s).bytes = 2 ^ d.radix := by
    by_cases h : dedupOff = 0
    · by_cases hsize : s.chain.bytes = 2 ^ d.radix <;> cases hassigns : assigns s <;>
        simp [storedAt, h, hsize, hassigns, Left.unwritten, Left.old]
    · simp [storedAt, h, (hdedup h).1, (hdedup h).2.1, Left.unwritten]
  have hcontent (h : dedupOff ≠ 0) : u.storage u.chain.dataOff = d.content := by
    rw [hleaves.dataOff, hleaves.content]
    simpa [storedAt, h, (hdedup h).1, Left.unwritten] using (hdedup h).2.2
  obtain ⟨h₁, h₂, h₃⟩ := fillBlock_stores fmt (m := m) hflagged rfl (hleaves.type.trans hs.type)
    (hleaves.isRoot.trans hs.isRoot) (hleaves.bytes.trans hbytes) hcontent
  rw [hleaves.dataOff] at h₂ h₃
  refine ⟨h₁, h₂, fun off hoff => ?_⟩
  rw [h₃ off fun h => (hoff h).1]
  exact hframe off fun h => (hoff h).2

/-- **A successful write to a hole.** -/
theorem writeNew_stores (o₁ o₂ o₃ : Nat) {p : Pool γ} (hemerg : p.emerg = false) (hmtid : mtid ≠ 0)
    (hradix : d.radix < 64)
    (hdedup : dedupOff ≠ 0 → bytesOf dedupOff = 2 ^ d.radix ∧ p.storage dedupOff = d.content) :
    (writeNew fmt m (spaceIo o₁ o₂ o₃) mtid dedupOff d p).1 = 0 ∧
      Stores (κ := κ) fmt m d p mtid (if dedupOff ≠ 0 then dedupOff else o₃) (dedupOff ≠ 0)
        (writeNew fmt m (spaceIo o₁ o₂ o₃) mtid dedupOff d p).2 ∧
      ∀ off, (dedupOff = 0 → off ≠ o₃) →
        (writeNew (κ := κ) fmt m (spaceIo o₁ o₂ o₃) mtid dedupOff d p).2.storage off =
          p.storage off := by
  let s : ChainSys γ κ := { p with chain := newDataChain m.check d.radix fmt.blank }
  have hassigns : assigns s = true := by
    simp [s, assigns, newDataChain, hasStorage, Nat.div_eq_of_lt hradix]
  -- the chain with its storage: a new chain is not given a buffer unless there is a dedup hit
  obtain ⟨u, hmodify, hflagged, htype, hroot, hbytes, hoff, hstorage⟩ : ∃ u : ChainSys γ κ,
      modifyResolved fmt ⟨true, .ok o₃, true⟩ mtid dedupOff true s = (0, u) ∧
        Flagged s u mtid (dedupOff ≠ 0) ∧ u.chain.type = .data ∧ u.chain.isRoot = false ∧
        u.chain.bytes = 2 ^ d.radix ∧
        u.chain.dataOff = (if dedupOff ≠ 0 then dedupOff else o₃) ∧ u.storage = p.storage := by
    by_cases h : dedupOff = 0
    · subst h
      rw [modifyResolved_alloc_ok fmt hassigns rfl]
      exact ⟨_, rfl, ⟨rfl, rfl, rfl, if_neg hmtid, hemerg, rfl⟩, rfl, rfl, rfl, rfl, rfl⟩
    · rw [modifyResolved_dedup fmt hassigns h]
      have hfinish : finishModify fmt ⟨true, .ok o₃, true⟩ mtid dedupOff true
          (assignDedup dedupOff (flagModified s)) =
          (0, { stampModified mtid (assignDedup dedupOff (flagModified s)) with
            chain.initial := false, chain.data := some dedupOff }) := by
        simp [finishModify, cowData, installBuffer, stampModified, assignDedup, flagModified, s,
          newDataChain, h]
      exact ⟨_, hfinish, ⟨rfl, by simp [h, stampModified, assignDedup],
        by simp [h, stampModified, assignDedup], if_neg hmtid, hemerg, rfl⟩, rfl, rfl,
        (hdedup h).1, (if_pos h).symm, rfl⟩
  have hrun : writeNew fmt m (spaceIo o₁ o₂ o₃) mtid dedupOff d p =
      fillBlock fmt m (.ok ()) dedupOff d u := by
    simp only [writeNew, chainModify_optdata, spaceIo, s] at hmodify ⊢
    rw [hmodify]
    rfl
  obtain ⟨h₁, h₂, h₃⟩ := fillBlock_stores fmt (m := m) hflagged rfl htype hroot hbytes
    fun h => by rw [hoff, if_pos h, hstorage, (hdedup h).2]
  rw [hoff] at h₂ h₃
  rw [hrun]
  refine ⟨h₁, h₂, fun off hne => ?_⟩
  rw [h₃ off fun h => by simpa [h] using hne h, hstorage]

end
end
end Hammer2
