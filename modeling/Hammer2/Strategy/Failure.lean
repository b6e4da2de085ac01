import Hammer2.Strategy.Block

/-!
# A block write that fails

A write that fails leaves the chain of its block with some storage. `leftBy` says which, and whose
content that storage holds: the old storage, a copy of it, new storage that nothing has been written
to, or the storage of a dedup hit. `WriteIo.Spares` lists the failures after which it is the old
content, by the call that fails and the flags of the block, and after these and no others the block
still reads as before (`writeFileCore_failed_iff`).

Reference: `hammer2_strategy.c:632-1218`, `hammer2_chain.c:1349-1661`.
-/

namespace Hammer2

section
variable {β γ κ : Type*} [DecidableEq β] [DecidableEq κ] (cd : Codec β γ) (fmt : BlockFormat γ κ)

/-- A data block that has been written before. -/
structure StoredBlock (s : ChainSys γ κ) : Prop where
  type : s.chain.type = .data
  isRoot : s.chain.isRoot = false
  initial : s.chain.initial = false
  storage : hasStorage s.chain.dataOff = true
  bytes : s.chain.bytes ≠ 0
  data : ∀ off, s.chain.data = some off → off = s.chain.dataOff

/-- The storage of the block passes the check code and decodes to `b`. -/
structure ReadsAs (s : ChainSys γ κ) (b : β) : Prop where
  passes : s.chain.testcheck fmt (s.storage s.chain.dataOff) = true
  decodes : cd.decode s.chain.comp s.chain.bytes (s.storage s.chain.dataOff) = some b

/-- What a write leaves a block with: `bytes` at `off`, holding what was at `source` before. -/
structure Left where
  off : Nat
  bytes : Nat
  source : Nat

/-- The block as it was. -/
def Left.old (s : ChainSys γ κ) : Left := ⟨s.chain.dataOff, s.chain.bytes, s.chain.dataOff⟩

/-- New storage that nothing has been written to, or storage that another block has written. -/
def Left.unwritten (off bytes : Nat) : Left := ⟨off, bytes, off⟩

/-- `r` is `s` up to flags and counters, with the storage `l`. -/
structure Leaves (s r : ChainSys γ κ) (l : Left) : Prop where
  type : r.chain.type = s.chain.type
  isRoot : r.chain.isRoot = s.chain.isRoot
  initial : r.chain.initial = s.chain.initial
  comp : r.chain.comp = s.chain.comp
  check : r.chain.check = s.chain.check
  code : r.chain.code = s.chain.code
  nottested : r.chain.nottested = s.chain.nottested
  dataOff : r.chain.dataOff = l.off
  bytes : r.chain.bytes = l.bytes
  content : r.storage l.off = s.storage l.source

/-! ## What a modify leaves -/

/-- The storage that a modify leaves; `loaded` says that the old data is at hand. -/
def modifyLeft (io : ModifyIo) (dedupOff : Nat) (loaded : Bool) (s : ChainSys γ κ) : Left :=
  if !assigns s then .old s
  else if dedupOff ≠ 0 then .unwritten dedupOff (bytesOf dedupOff)
  else match io.alloc with
    | .error _ => .old s
    | .ok off =>
      if loaded && io.buffer then ⟨off, s.chain.bytes, s.chain.dataOff⟩
      else .unwritten off s.chain.bytes

section
variable {io : ModifyIo} {mtid dedupOff off n : Nat} {optdata buffer : Bool} {s u : ChainSys γ κ}

omit [DecidableEq κ]

/-- The end of a modify copies what the data pointer names, and nothing for a dedup hit. -/
theorem Leaves.finishModify (io : ModifyIo) (mtid dedupOff : Nat) (optdata : Bool)
    (h : Leaves s u (.unwritten off n)) (hs : StoredBlock s)
    (hdata : u.chain.data = s.chain.data) (hstorage : u.storage = s.storage) :
    Leaves s (finishModify fmt io mtid dedupOff optdata u).2
      ⟨off, n, if io.buffer && dedupOff = 0 then s.chain.data.getD off else off⟩ := by
  obtain ⟨htype, hroot, hinitial, hcomp, hcheck, hcode, hnottested, hoff, hn, -⟩ := h
  rw [hs.type] at htype
  rw [hs.initial] at hinitial
  simp only [Hammer2.finishModify, cowData, stampModified, htype, installBuffer, hinitial, hdata]
  cases hd : s.chain.data <;> cases io.buffer <;> cases optdata <;>
    by_cases hdedup : dedupOff = 0 <;> constructor <;>
    simp_all [Left.unwritten, hs.type, hs.initial]

/-- Only the storage of the block is written to, and that of a dedup hit is not. -/
theorem finishModify_storage (htype : u.chain.type = .data) (hinitial : u.chain.initial = false)
    (hoff : dedupOff = 0 → off ≠ u.chain.dataOff) :
    (finishModify fmt io mtid dedupOff optdata u).2.storage off = u.storage off := by
  simp only [finishModify, cowData, stampModified, htype, installBuffer, hinitial]
  cases u.chain.data <;> cases io.buffer <;> cases optdata <;> by_cases hdedup : dedupOff = 0 <;>
    simp [hdedup, hoff]

/-- The data of a stored block is that of its own storage. -/
theorem StoredBlock.getD_data (hs : StoredBlock s) :
    s.chain.data.getD s.chain.dataOff = s.chain.dataOff := by
  cases h : s.chain.data with
  | none => rfl
  | some off => exact hs.data off h

/-- A block that keeps its storage keeps its content. -/
theorem Leaves.finishModify_old (io : ModifyIo) (mtid dedupOff : Nat) (optdata : Bool)
    (h : Leaves s u (.old s)) (hs : StoredBlock s) (hdata : u.chain.data = s.chain.data)
    (hstorage : u.storage = s.storage) :
    Leaves s (Hammer2.finishModify fmt io mtid dedupOff optdata u).2 (.old s) := by
  have h := h.finishModify fmt io mtid dedupOff optdata hs hdata hstorage
  rwa [hs.getD_data, ite_self] at h

/-- A modify of a block whose data is resolved leaves what `modifyLeft` says. -/
theorem modifyResolved_leaves (io : ModifyIo) (mtid dedupOff : Nat) (optdata : Bool)
    (hs : StoredBlock s) :
    Leaves s (modifyResolved fmt io mtid dedupOff optdata s).2
      (modifyLeft io dedupOff s.chain.data.isSome s) := by
  have hkept (u : ChainSys γ κ) (h : Leaves s u (.old s)) :=
    h.finishModify_old fmt io mtid dedupOff optdata hs
  cases hassigns : assigns s with
  | false =>
    rw [modifyResolved_kept fmt hassigns]
    simp only [modifyLeft, hassigns]
    exact hkept _ (by constructor <;> rfl) rfl rfl
  | true =>
    by_cases hdedup : dedupOff = 0
    · subst hdedup
      cases halloc : io.alloc with
      | error e =>
        simp only [modifyLeft, hassigns, halloc]
        cases hemerg : s.emerg with
        | false =>
          rw [modifyResolved_alloc_error fmt hassigns halloc hemerg]
          constructor <;> rfl
        | true =>
          rw [modifyResolved_emerg fmt hassigns halloc hemerg]
          exact hkept _ (by constructor <;> rfl) rfl rfl
      | ok off =>
        rw [modifyResolved_alloc_ok fmt hassigns halloc]
        have h (u : ChainSys γ κ) (h : Leaves s u (.unwritten off s.chain.bytes)) :=
          h.finishModify fmt io mtid 0 optdata hs
        have hsource : modifyLeft io 0 s.chain.data.isSome s =
            ⟨off, s.chain.bytes,
              if io.buffer && (0 : Nat) = 0 then s.chain.data.getD off else off⟩ := by
          cases hdata : s.chain.data with
          | none => simp [modifyLeft, hassigns, halloc, Left.unwritten]
          | some old =>
            obtain rfl := hs.data old hdata
            cases hbuf : io.buffer <;> simp [modifyLeft, hassigns, halloc, hbuf, Left.unwritten]
        rw [hsource]
        exact h _ (by constructor <;> rfl) rfl rfl
    · rw [modifyResolved_dedup fmt hassigns hdedup]
      have h (u : ChainSys γ κ) (h : Leaves s u (.unwritten dedupOff (bytesOf dedupOff))) :=
        h.finishModify fmt io mtid dedupOff optdata hs
      simp only [hdedup, decide_false, Bool.and_false, Bool.false_eq_true, if_false] at h
      have hsource : modifyLeft io dedupOff s.chain.data.isSome s =
          .unwritten dedupOff (bytesOf dedupOff) := by
        simp [modifyLeft, hassigns, hdedup]
      rw [hsource]
      exact h _ (by constructor <;> rfl) rfl rfl

/-- A modify changes no storage but what it allocates. -/
theorem modifyResolved_storage (io : ModifyIo) (mtid : Nat) (optdata : Bool)
    (hs : StoredBlock s) (hoff : dedupOff = 0 → io.alloc ≠ .ok off) :
    (modifyResolved fmt io mtid dedupOff optdata s).2.storage off = s.storage off := by
  have hkept (u : ChainSys γ κ) (h : Leaves s u (.old s)) (hdata : u.chain.data = s.chain.data)
      (hstorage : u.storage = s.storage) :
      (finishModify fmt io mtid dedupOff optdata u).2.storage off = s.storage off := by
    by_cases hown : off = s.chain.dataOff
    · rw [hown]
      exact (h.finishModify_old fmt io mtid dedupOff optdata hs hdata hstorage).content
    · rw [finishModify_storage fmt (h.type.trans hs.type) (h.initial.trans hs.initial), hstorage]
      intro _
      rwa [h.dataOff]
  cases hassigns : assigns s with
  | false =>
    rw [modifyResolved_kept fmt hassigns]
    exact hkept _ (by constructor <;> rfl) rfl rfl
  | true =>
    by_cases hzero : dedupOff = 0
    · subst hzero
      cases halloc : io.alloc with
      | error e =>
        cases hemerg : s.emerg with
        | false => rw [modifyResolved_alloc_error fmt hassigns halloc hemerg]
        | true =>
          rw [modifyResolved_emerg fmt hassigns halloc hemerg]
          exact hkept _ (by constructor <;> rfl) rfl rfl
      | ok new =>
        rw [modifyResolved_alloc_ok fmt hassigns halloc]
        refine finishModify_storage fmt hs.type hs.initial fun h => ?_
        rintro rfl
        exact hoff h halloc
    · rw [modifyResolved_dedup fmt hassigns hzero]
      exact finishModify_storage fmt hs.type hs.initial fun h => absurd h hzero

end

/-! ## What a write leaves -/

/-- The storage that a write leaves if it fails. A resize whose data could not be loaded has done
nothing. -/
def leftBy (io : WriteIo) (mtid dedupOff radix : Nat) (s : ChainSys γ κ) : Left :=
  if s.chain.error ≠ 0 then .old s
  else if s.chain.bytes = 2 ^ radix then
    modifyLeft io.modify dedupOff s.chain.data.isSome s
  else
    let r := chainResize fmt io.resize io.realloc mtid dedupOff radix s
    if r.1 = 0 then modifyLeft io.modify dedupOff false r.2
    else if s.chain.data.isNone && !io.resize.load then .old s
    else modifyLeft io.resize dedupOff true s

/-- The storage that the allocator hands out in a write. -/
def WriteIo.allocated (io : WriteIo) : List Nat :=
  [io.resize.alloc, io.realloc, io.modify.alloc].filterMap Except.toOption

/-- The allocator hands out storage, and each only once. -/
structure WriteIo.Fresh (io : WriteIo) : Prop where
  nodup : io.allocated.Nodup
  storage : ∀ off ∈ io.allocated, hasStorage off = true

section
variable {m : WriteMode} {io : WriteIo} {mtid dedupOff radix : Nat} {d : StoredForm γ}
  {s : ChainSys γ κ} {b : β}

/-- A block whose data has been loaded and tested. -/
def ChainSys.loaded (s : ChainSys γ κ) : ChainSys γ κ :=
  { s with
    chain.data := some s.chain.dataOff
    chain.error := 0
    chain.testedgood := s.chain.testedgood || !s.chain.modified }

omit [DecidableEq κ] in
/-- Loading keeps a stored block one. -/
theorem StoredBlock.loaded (hs : StoredBlock s) : StoredBlock s.loaded :=
  ⟨hs.type, hs.isRoot, hs.initial, hs.storage, hs.bytes, fun _ h => (Option.some.inj h).symm⟩

/-- A load of a good block only leaves a data pointer. -/
theorem loadData_good (htype : s.chain.type = .data) (hinitial : s.chain.initial = false)
    (hstorage : hasStorage s.chain.dataOff = true) (hdata : s.chain.data = none)
    (hpass : s.chain.testcheck fmt (s.storage s.chain.dataOff) = true) :
    loadData fmt true s = s.loaded := by
  obtain ⟨p, c⟩ := s
  obtain ⟨_, _, _, modified, _, _, _, _, _, _, testedgood, _, _, _, _, _, _, _, _, _, _⟩ := c
  cases modified <;> cases testedgood <;>
    simp_all [loadData, Chain.tested, ChainSys.loaded]

/-- A modify for a resize loads the data. -/
theorem chainModify_load {io : ModifyIo} (hs : StoredBlock s) (hdata : s.chain.data = none)
    (hpass : s.chain.testcheck fmt (s.storage s.chain.dataOff) = true) (hload : io.load = true) :
    chainModify fmt io mtid dedupOff false s =
      modifyResolved fmt io mtid dedupOff false s.loaded := by
  have hneeds : s.chain.needsLoad false = true := by
    simp [Chain.needsLoad, hdata, hs.bytes, hs.storage]
  have hgood := loadData_good fmt hs.type hs.initial hs.storage hdata hpass
  simp [chainModify, resolveData, hneeds, hload, hgood, ChainSys.loaded]

/-- The modify of a resize leaves the old storage if the data cannot be loaded, and otherwise what a
modify with the data at hand leaves. It writes to nothing but that. -/
theorem chainModify_leaves (io : ModifyIo) (mtid dedupOff : Nat) (hs : StoredBlock s)
    (hpass : s.chain.testcheck fmt (s.storage s.chain.dataOff) = true) :
    Leaves s (chainModify fmt io mtid dedupOff false s).2
        (if s.chain.data.isNone && !io.load then .old s else modifyLeft io dedupOff true s) ∧
      ∀ off, (dedupOff = 0 → io.alloc ≠ .ok off) →
        (chainModify fmt io mtid dedupOff false s).2.storage off = s.storage off := by
  cases hdata : s.chain.data with
  | some own =>
    have hneeds : s.chain.needsLoad false = false := by simp [Chain.needsLoad, hdata]
    have hrun : chainModify fmt io mtid dedupOff false s =
        modifyResolved fmt io mtid dedupOff false s := by
      simp [chainModify, resolveData, hneeds]
    rw [hrun]
    have h := modifyResolved_leaves fmt io mtid dedupOff false hs
    rw [hdata] at h
    exact ⟨h, fun _ hoff => modifyResolved_storage fmt io mtid false hs hoff⟩
  | none =>
    have hneeds : s.chain.needsLoad false = true := by
      simp [Chain.needsLoad, hdata, hs.bytes, hs.storage]
    cases hload : io.load with
    | false =>
      have hrun : chainModify fmt io mtid dedupOff false s =
          (errorEio, { s with chain.error := errorEio }) := by
        simp [chainModify, resolveData, hneeds, loadData, hdata, hs.storage, hload, errorEio]
      rw [hrun]
      exact ⟨by constructor <;> rfl, fun _ _ => rfl⟩
    | true =>
      rw [chainModify_load fmt hs hdata hpass hload]
      obtain ⟨h₁, h₂, h₃, h₄, h₅, h₆, h₇, h₈, h₉, h⟩ :=
        modifyResolved_leaves fmt io mtid dedupOff false hs.loaded
      exact ⟨⟨h₁, h₂, h₃, h₄, h₅, h₆, h₇, h₈, h₉, h⟩,
        fun _ hoff => modifyResolved_storage fmt io mtid false hs.loaded hoff⟩

omit [DecidableEq κ] in
/-- A modify that returns no error leaves none on the chain. -/
theorem modifyResolved_error (io : ModifyIo) (mtid dedupOff : Nat) (optdata : Bool)
    (h : (modifyResolved fmt io mtid dedupOff optdata s).1 = 0) :
    (modifyResolved fmt io mtid dedupOff optdata s).2.chain.error = 0 := by
  simp only [modifyResolved] at h ⊢
  split at h
  · rename_i e _
    exact absurd h e.2
  · exact h

/-- A modify that succeeds leaves no error on the chain. -/
theorem chainModify_error (io : ModifyIo) (mtid dedupOff : Nat) (optdata : Bool)
    (h : (chainModify fmt io mtid dedupOff optdata s).1 = 0) :
    (chainModify fmt io mtid dedupOff optdata s).2.chain.error = 0 := by
  simp only [chainModify] at h ⊢
  split at h
  · rename_i hload
    rwa [if_pos hload]
  · rename_i hload
    rw [if_neg hload]
    exact modifyResolved_error fmt io mtid dedupOff optdata h

/-- A modify for a write through the buffer cache does not load anything. -/
theorem chainModify_optdata (io : ModifyIo) (mtid dedupOff : Nat) (u : ChainSys γ κ) :
    chainModify fmt io mtid dedupOff true u = modifyResolved fmt io mtid dedupOff true u := by
  simp [chainModify, resolveData, Chain.needsLoad]

/-- A resize to another size fails with what its modify left, or has new storage. -/
theorem chainResize_cases (io : ModifyIo) (realloc : Except ErrorCode Nat) (mtid dedupOff : Nat)
    (hradix : radix ≠ 0) (hbytes : s.chain.bytes ≠ 2 ^ radix) :
    (chainResize fmt io realloc mtid dedupOff radix s).1 ≠ 0 ∧
        (chainResize fmt io realloc mtid dedupOff radix s).2 =
          (chainModify fmt io mtid dedupOff false s).2 ∨
      ∃ off, realloc = .ok off ∧
        chainResize fmt io realloc mtid dedupOff radix s =
          (0, { (chainModify fmt io mtid dedupOff false s).2 with
            chain.dataOff := off, chain.bytes := 2 ^ radix, chain.data := none }) := by
  have herror := chainModify_error fmt (s := s) io mtid dedupOff false
  simp only [chainResize, if_neg hradix, if_neg hbytes]
  by_cases hmodify : (chainModify fmt io mtid dedupOff false s).1 = 0
  · cases realloc with
    | error e => exact .inl (by simp [hmodify, e.2])
    | ok off => exact .inr ⟨off, rfl, by simp [hmodify, herror hmodify]⟩
  · exact .inl (by simp [hmodify])

section
omit [DecidableEq κ]

/-- The storage of the modify of a resize is not handed out again. -/
theorem WriteIo.Fresh.later {off : Nat} (hfresh : io.Fresh)
    (hoff : io.realloc = .ok off ∨ io.modify.alloc = .ok off) :
    off ∈ io.allocated ∧ io.resize.alloc ≠ .ok off := by
  have hmem : off ∈ io.allocated := by
    rcases hoff with hoff | hoff <;> simp [WriteIo.allocated, hoff, Except.toOption]
  refine ⟨hmem, fun h => ?_⟩
  have hnodup := hfresh.nodup
  rcases hoff with hoff | hoff <;> simp [WriteIo.allocated, hoff, h, Except.toOption] at hnodup

/-- Without data and without a dedup hit, nothing is copied. -/
theorem modifyLeft_source (io : ModifyIo) (u : ChainSys γ κ) :
    (modifyLeft io 0 false u).source = u.chain.dataOff ∨
      io.alloc = .ok (modifyLeft io 0 false u).source := by
  cases hassigns : assigns u with
  | false => simp [modifyLeft, hassigns, Left.old]
  | true =>
    cases halloc : io.alloc with
    | error e => simp [modifyLeft, hassigns, halloc, Left.old]
    | ok off => simp [modifyLeft, hassigns, halloc, Left.unwritten]

/-- The modify after a resize has no data to copy. -/
theorem Leaves.resized {t : ChainSys γ κ} {l : Left} {off : Nat} (h : Leaves s t l)
    (hframe : ∀ off, (dedupOff = 0 → io.resize.alloc ≠ .ok off) →
      t.storage off = s.storage off)
    (hs : StoredBlock s) (hfresh : io.Fresh) (hoff : io.realloc = .ok off) :
    let u := { t with chain.dataOff := off, chain.bytes := 2 ^ radix, chain.data := none }
    Leaves s (modifyResolved fmt io.modify mtid dedupOff true u).2
      (modifyLeft io.modify dedupOff false u) := by
  intro u
  obtain ⟨hmem, hnew⟩ := hfresh.later (.inl hoff)
  have hu : StoredBlock u :=
    ⟨h.type.trans hs.type, h.isRoot.trans hs.isRoot, h.initial.trans hs.initial,
      hfresh.storage off hmem, (Nat.two_pow_pos radix).ne', fun _ h => nomatch h⟩
  obtain ⟨h₁, h₂, h₃, h₄, h₅, h₆, h₇, h₈, h₉, hcontent⟩ :=
    modifyResolved_leaves fmt io.modify mtid dedupOff true hu
  refine ⟨h₁.trans h.type, h₂.trans h.isRoot, h₃.trans h.initial, h₄.trans h.comp,
    h₅.trans h.check, h₆.trans h.code, h₇.trans h.nottested, h₈, h₉, hcontent.trans ?_⟩
  -- the storage that the block ends with is not what the resize copied the old data to
  refine hframe _ ?_
  rintro rfl
  rcases modifyLeft_source io.modify u with hsource | hsource
  · rw [show u.chain.data.isSome = false from rfl, hsource]
    exact hnew
  · exact (hfresh.later (.inr hsource)).2

end

/-- Whatever becomes of an assignment, the block is left as `leftBy` says. -/
theorem assignExisting_leaves (mtid dedupOff : Nat) (hs : StoredBlock s) (hradix : radix ≠ 0)
    (hpass : s.chain.testcheck fmt (s.storage s.chain.dataOff) = true)
    (hfresh : io.Fresh) :
    Leaves s (assignExisting fmt io mtid dedupOff radix s).2
      (leftBy fmt io mtid dedupOff radix s) := by
  by_cases herror : s.chain.error = 0
  swap
  · have hrun : assignExisting fmt io mtid dedupOff radix s = (s.chain.error, s) := by
      simp [assignExisting, herror]
    rw [hrun, leftBy, if_pos herror]
    constructor <;> rfl
  by_cases hbytes : s.chain.bytes = 2 ^ radix
  · have hrun : assignExisting fmt io mtid dedupOff radix s =
        modifyResolved fmt io.modify mtid dedupOff true s := by
      simp [assignExisting, herror, hbytes, chainModify_optdata]
    rw [hrun, leftBy, if_neg (not_not.2 herror), if_pos hbytes]
    exact modifyResolved_leaves fmt io.modify mtid dedupOff true hs
  obtain ⟨hfirst, hframe⟩ := chainModify_leaves fmt io.resize mtid dedupOff hs hpass
  rw [leftBy, if_neg (not_not.2 herror), if_neg hbytes]
  rcases chainResize_cases fmt io.resize io.realloc mtid dedupOff hradix hbytes with
    ⟨hfail, hleft⟩ | ⟨off, hoff, hresize⟩
  · have hrun : assignExisting fmt io mtid dedupOff radix s =
        chainResize fmt io.resize io.realloc mtid dedupOff radix s := by
      simp [assignExisting, herror, hbytes, hfail]
    rw [hrun, if_neg hfail, hleft]
    exact hfirst
  · have hrun : assignExisting fmt io mtid dedupOff radix s =
        modifyResolved fmt io.modify mtid dedupOff true
          (chainResize fmt io.resize io.realloc mtid dedupOff radix s).2 := by
      simp [assignExisting, herror, hbytes, hresize, chainModify_optdata]
    rw [hrun, if_pos (by rw [hresize]), hresize]
    exact hfirst.resized fmt hframe hs hfresh hoff

omit [DecidableEq κ] in
/-- Where the block is after a modify: in place, in the dedup hit or in new storage. -/
theorem modifyLeft_off (io : ModifyIo) (dedupOff : Nat) (loaded : Bool) (u : ChainSys γ κ) :
    (modifyLeft io dedupOff loaded u).off = u.chain.dataOff ∨
      dedupOff ≠ 0 ∧ (modifyLeft io dedupOff loaded u).off = dedupOff ∨
      io.alloc = .ok (modifyLeft io dedupOff loaded u).off := by
  cases hassigns : assigns u with
  | false => simp [modifyLeft, hassigns, Left.old]
  | true =>
    by_cases hdedup : dedupOff = 0
    · cases halloc : io.alloc with
      | error e => simp [modifyLeft, hassigns, hdedup, halloc, Left.old]
      | ok off => cases loaded <;> cases hbuf : io.buffer <;>
          simp [modifyLeft, hassigns, hdedup, halloc, hbuf, Left.unwritten]
    · simp [modifyLeft, hassigns, hdedup, Left.unwritten]

/-- What is left of a block is storage. -/
theorem hasStorage_leftBy (mtid : Nat) (hs : StoredBlock s) (hradix : radix ≠ 0)
    (hfresh : io.Fresh)
    (hdedup : dedupOff ≠ 0 → hasStorage dedupOff = true) :
    hasStorage (leftBy fmt io mtid dedupOff radix s).off = true := by
  have hmodify (mio : ModifyIo) (loaded : Bool) (u : ChainSys γ κ)
      (hu : hasStorage u.chain.dataOff = true)
      (hmem : ∀ off, mio.alloc = .ok off → off ∈ io.allocated) :
      hasStorage (modifyLeft mio dedupOff loaded u).off = true := by
    rcases modifyLeft_off mio dedupOff loaded u with h | ⟨hne, h⟩ | h
    · rwa [h]
    · rw [h]
      exact hdedup hne
    · exact hfresh.storage _ (hmem _ h)
  have hfirst (off : Nat) (h : io.resize.alloc = .ok off) : off ∈ io.allocated := by
    simp [WriteIo.allocated, h, Except.toOption]
  have hlast (off : Nat) (h : io.modify.alloc = .ok off) : off ∈ io.allocated :=
    (hfresh.later (.inr h)).1
  unfold leftBy
  split
  · exact hs.storage
  · split
    · exact hmodify _ _ s hs.storage hlast
    · rename_i hbytes
      rcases chainResize_cases fmt io.resize io.realloc mtid dedupOff hradix hbytes with
        ⟨hfail, -⟩ | ⟨off, hoff, hresize⟩
      · simp only [hfail, if_false]
        split
        · exact hs.storage
        · exact hmodify _ _ s hs.storage hfirst
      · simp only [hresize, if_true]
        exact hmodify _ _ _ (hfresh.storage off (hfresh.later (.inl hoff)).1) hlast

omit [DecidableEq β] in
/-- A block that passes its check code reads as it decodes. -/
theorem readChain_of_passes {r : ChainSys γ κ} (htype : r.chain.type = .data)
    (hinitial : r.chain.initial = false) (hstorage : hasStorage r.chain.dataOff = true)
    (hpass : r.chain.testcheck fmt (r.storage r.chain.dataOff) = true) :
    readChain cd fmt r = .ok b ↔
      cd.decode r.chain.comp r.chain.bytes (r.storage r.chain.dataOff) = some b := by
  have hload := loadData_good fmt (s := { r with chain.data := none }) htype hinitial hstorage rfl
    hpass
  simp only [readChain, hload, ChainSys.loaded]
  cases cd.decode r.chain.comp r.chain.bytes (r.storage r.chain.dataOff) <;> simp

/-- A write that fails has not come to the data. -/
theorem writeExisting_failed (hfail : (writeExisting fmt m io mtid dedupOff d s).1 ≠ 0) :
    (writeExisting fmt m io mtid dedupOff d s).2 =
      (assignExisting fmt io mtid dedupOff d.radix s).2 := by
  simp only [writeExisting] at hfail ⊢
  split at hfail
  · rename_i h
    rw [if_pos h]
  · rename_i h
    rw [if_neg h]
    simp only [fillBlock] at hfail ⊢
    by_cases hdedup : dedupOff = 0
    · cases hnewnz : io.newnz with
      | error e => simp [hdedup]
      | ok u => simp [hdedup, hnewnz] at hfail
    · simp [hdedup] at hfail

omit [DecidableEq β] in
/-- What is stored has a size. -/
theorem storedForm_radix {data : β} (h : storedForm cd m data = some d) : d.radix ≠ 0 := by
  have hcomp {n radix : Nat} (h : compBlockRadix n = some radix) : radix ≠ 0 := by
    unfold compBlockRadix at h
    split_ifs at h <;> · injection h; omega
  unfold storedForm at h
  split at h
  · obtain rfl := Option.some.inj h
    exact (by decide : pbufRadix ≠ 0)
  · obtain rfl := Option.some.inj h
    exact (by decide : pbufRadix ≠ 0)
  · split at h
    · obtain rfl := Option.some.inj h
      exact (by decide : pbufRadix ≠ 0)
    · obtain ⟨radix, hradix, rfl⟩ := Option.map_eq_some_iff.1 h
      exact hcomp hradix

end

/-- The block reads as `b`, passes its check code, and names no storage of another block that it did
not name before, at `own`. -/
def StillReads (b : β) (own : Nat) (others : Set Nat) (block : Option (Chain κ)) (p : Pool γ) :
    Prop :=
  ∃ c, block = some c ∧ readChain cd fmt { p with chain := c } = .ok b ∧
    c.testcheck fmt (p.storage c.dataOff) = true ∧ (c.dataOff ∈ others → c.dataOff = own)

/-- The storage that is left holds a content that the methods of the block accept and read as
`b`. -/
def Left.KeepsOld (l : Left) (s : ChainSys γ κ) (b : β) (others : Set Nat) : Prop :=
  (l.off ∈ others → l.off = s.chain.dataOff) ∧
    s.chain.testcheck fmt (s.storage l.source) = true ∧
    cd.decode s.chain.comp l.bytes (s.storage l.source) = some b

omit [DecidableEq β] in
/-- Reading the old content back is a matter of what was left in storage. -/
theorem Leaves.stillReads {s r : ChainSys γ κ} {l : Left} (h : Leaves s r l) (hs : StoredBlock s)
    (hstorage : hasStorage l.off = true) (b : β) (others : Set Nat) :
    StillReads cd fmt b s.chain.dataOff others (some r.chain) r.toPool ↔
      l.KeepsOld cd fmt s b others := by
  have hcheck : r.chain.testcheck fmt (r.storage l.off) =
      s.chain.testcheck fmt (s.storage l.source) := by
    simp only [Chain.testcheck, h.nottested, h.check, h.code, h.content]
  have hread (hpass : r.chain.testcheck fmt (r.storage l.off) = true) :
      readChain cd fmt r = .ok b ↔
        cd.decode s.chain.comp l.bytes (s.storage l.source) = some b := by
    rw [← h.comp, ← h.bytes, ← h.content, ← h.dataOff]
    exact readChain_of_passes cd fmt (h.type.trans hs.type) (h.initial.trans hs.initial)
      (h.dataOff.symm ▸ hstorage) (h.dataOff.symm ▸ hpass)
  constructor
  · rintro ⟨c, hc, hok, hpass, hothers⟩
    obtain rfl := Option.some.inj hc
    rw [h.dataOff] at hpass hothers
    exact ⟨hothers, hcheck ▸ hpass, (hread hpass).1 hok⟩
  · rintro ⟨hothers, hpass, hdecode⟩
    refine ⟨r.chain, rfl, (hread (hcheck ▸ hpass)).2 hdecode, ?_, ?_⟩
    · rw [h.dataOff]
      exact hcheck ▸ hpass
    · rwa [h.dataOff]

/-! ## The failures that lose nothing -/

/-- A modify that fails leaves the old content: it assigns no storage, it is a dedup hit on the
block's own storage, there is no space, or the data, which is `loaded`, has been copied. -/
def ModifyIo.Keeps (io : ModifyIo) (dedupOff : Nat) (loaded : Bool) (s : ChainSys γ κ) : Prop :=
  assigns s = false ∨ dedupOff = s.chain.dataOff ∨
    dedupOff = 0 ∧ (io.alloc.isOk = false ∨ loaded = true ∧ io.buffer = true)

/-- The modify of a resize fails: the data cannot be loaded, there is no space and no emergency
mode, or there is no buffer. -/
def ModifyIo.Fails (io : ModifyIo) (dedupOff : Nat) (s : ChainSys γ κ) : Prop :=
  s.chain.data = none ∧ io.load = false ∨
    assigns s = true ∧ dedupOff = 0 ∧ io.alloc.isOk = false ∧ s.emerg = false ∨ io.buffer = false

/-- The failures of a write after which the block has its old content: of the chain itself, of a
modify or a fill without a resize, of the load for a resize, and of a resize. A write whose resize
succeeds and that fails later is not among them. -/
inductive WriteIo.Spares (io : WriteIo) (dedupOff radix : Nat) (s : ChainSys γ κ) : Prop
  | chain (herror : s.chain.error ≠ 0)
  | modify (hbytes : s.chain.bytes = 2 ^ radix)
      (hkeeps : io.modify.Keeps dedupOff s.chain.data.isSome s)
  | load (hbytes : s.chain.bytes ≠ 2 ^ radix) (hdata : s.chain.data = none)
      (hload : io.resize.load = false)
  | resize (hbytes : s.chain.bytes ≠ 2 ^ radix)
      (hfails : io.resize.Fails dedupOff s ∨ io.realloc.isOk = false)
      (hkeeps : io.resize.Keeps dedupOff true s)

/-- New storage belongs to nobody, and does not read as `b` before something is written to it. -/
structure WriteIo.Unused (io : WriteIo) (others : Set Nat) (s : ChainSys γ κ) (b : β) : Prop where
  free : ∀ off ∈ io.allocated, off ∉ others
  stale : ∀ off ∈ io.allocated, s.chain.testcheck fmt (s.storage off) = true →
    ∀ bytes, cd.decode s.chain.comp bytes (s.storage off) ≠ some b

/-- What `hammer2_dedup_lookup` answers: storage of a block, this one or another, of the size that
is to be stored. -/
structure DedupHit (dedupOff : Nat) (m : WriteMode) (data : β) (others : Set Nat)
    (s : ChainSys γ κ) : Prop where
  storage : hasStorage dedupOff = true
  block : dedupOff = s.chain.dataOff ∨ dedupOff ∈ others
  size : ∀ d, storedForm cd m data = some d → bytesOf dedupOff = 2 ^ d.radix

section
variable {io : WriteIo} {mtid dedupOff radix : Nat} {others : Set Nat} {s : ChainSys γ κ} {b : β}

omit [DecidableEq κ] in
/-- With the data at hand, the end of a modify fails only for a buffer. -/
theorem finishModify_fails_iff (mio : ModifyIo) (mtid dedupOff : Nat) {u : ChainSys γ κ}
    (htype : u.chain.type = .data) (hinitial : u.chain.initial = false)
    (hdata : u.chain.data.isSome = true) :
    (finishModify fmt mio mtid dedupOff false u).1 ≠ 0 ↔ mio.buffer = false := by
  obtain ⟨off, hoff⟩ := Option.isSome_iff_exists.1 hdata
  simp only [finishModify, cowData, stampModified, htype, installBuffer, hinitial, hoff]
  cases mio.buffer <;> by_cases hdedup : dedupOff = 0 <;> simp [hdedup, errorEio]

omit [DecidableEq κ] in
/-- A modify with its data in memory fails for want of space or of a buffer. -/
theorem modifyResolved_fails_iff (mio : ModifyIo) (mtid dedupOff : Nat) (hs : StoredBlock s)
    (hdata : s.chain.data.isSome = true) :
    (modifyResolved fmt mio mtid dedupOff false s).1 ≠ 0 ↔
      assigns s = true ∧ dedupOff = 0 ∧ mio.alloc.isOk = false ∧ s.emerg = false ∨
        mio.buffer = false := by
  have hfinish (u : ChainSys γ κ) := finishModify_fails_iff fmt mio mtid dedupOff (u := u)
  cases hassigns : assigns s with
  | false =>
    rw [modifyResolved_kept fmt hassigns, hfinish]
    · simp
    exacts [hs.type, hs.initial, hdata]
  | true =>
    by_cases hdedup : dedupOff = 0
    · subst hdedup
      cases halloc : mio.alloc with
      | ok off =>
        rw [modifyResolved_alloc_ok fmt hassigns halloc, hfinish]
        · simp [Except.isOk, Except.toBool]
        exacts [hs.type, hs.initial, hdata]
      | error e =>
        cases hemerg : s.emerg with
        | false =>
          rw [modifyResolved_alloc_error fmt hassigns halloc hemerg]
          simp [Except.isOk, Except.toBool, e.2]
        | true =>
          rw [modifyResolved_emerg fmt hassigns halloc hemerg, hfinish]
          · simp
          exacts [hs.type, hs.initial, hdata]
    · rw [modifyResolved_dedup fmt hassigns hdedup, hfinish]
      · simp [hdedup]
      exacts [hs.type, hs.initial, hdata]

/-- When a modify of the block fails. -/
theorem chainModify_fails_iff (mio : ModifyIo) (mtid dedupOff : Nat) (hs : StoredBlock s)
    (hpass : s.chain.testcheck fmt (s.storage s.chain.dataOff) = true) :
    (chainModify fmt mio mtid dedupOff false s).1 ≠ 0 ↔ mio.Fails dedupOff s := by
  cases hdata : s.chain.data with
  | some own =>
    have hrun : chainModify fmt mio mtid dedupOff false s =
        modifyResolved fmt mio mtid dedupOff false s := by
      simp [chainModify, resolveData, Chain.needsLoad, hdata]
    rw [hrun, modifyResolved_fails_iff fmt mio mtid dedupOff hs (by simp [hdata])]
    simp [ModifyIo.Fails, hdata]
  | none =>
    cases hload : mio.load with
    | false =>
      simp [chainModify, resolveData, Chain.needsLoad, loadData, hdata, hload, hs.bytes, hs.storage,
        errorEio, ModifyIo.Fails]
    | true =>
      rw [chainModify_load fmt hs hdata hpass hload,
        modifyResolved_fails_iff fmt mio mtid dedupOff hs.loaded rfl]
      simp only [ModifyIo.Fails, hload, Bool.true_eq_false, and_false, false_or]
      rfl

/-- A resize fails in its modify or in its own allocation. -/
theorem chainResize_fails_iff (mio : ModifyIo) (realloc : Except ErrorCode Nat)
    (mtid dedupOff : Nat) (hs : StoredBlock s) (hradix : radix ≠ 0)
    (hpass : s.chain.testcheck fmt (s.storage s.chain.dataOff) = true)
    (hbytes : s.chain.bytes ≠ 2 ^ radix) :
    (chainResize fmt mio realloc mtid dedupOff radix s).1 ≠ 0 ↔
      mio.Fails dedupOff s ∨ realloc.isOk = false := by
  rw [← chainModify_fails_iff fmt mio mtid dedupOff hs hpass]
  have herror := chainModify_error fmt (s := s) mio mtid dedupOff false
  simp only [chainResize, if_neg hradix, if_neg hbytes]
  by_cases hmodify : (chainModify fmt mio mtid dedupOff false s).1 = 0
  · cases realloc with
    | error e => simp [hmodify, Except.isOk, Except.toBool, e.2]
    | ok off => simp [hmodify, herror hmodify, Except.isOk, Except.toBool]
  · simp [hmodify]

omit [DecidableEq β] in
/-- Storage that nothing has been written to does not have the old content. -/
theorem WriteIo.Unused.not_keepsOld {off : Nat} (hunused : io.Unused cd fmt others s b)
    (bytes : Nat) (hoff : off ∈ io.allocated) : ¬ (Left.unwritten off bytes).KeepsOld cd fmt s b others :=
  fun h => hunused.stale off hoff h.2.1 bytes h.2.2

omit [DecidableEq β] in
/-- What a modify of the block leaves has the old content in the cases of `ModifyIo.Keeps`. -/
theorem modifyLeft_keepsOld_iff (mio : ModifyIo) (loaded : Bool) (hs : StoredBlock s)
    (hsize : s.chain.bytes = bytesOf s.chain.dataOff) (hreads : ReadsAs cd fmt s b)
    (hunused : io.Unused cd fmt others s b)
    (hmem : ∀ off, mio.alloc = .ok off → off ∈ io.allocated)
    (hdedup : dedupOff ≠ 0 → dedupOff = s.chain.dataOff ∨ dedupOff ∈ others) :
    (modifyLeft mio dedupOff loaded s).KeepsOld cd fmt s b others ↔
      mio.Keeps dedupOff loaded s := by
  have hold : (Left.old s).KeepsOld cd fmt s b others :=
    ⟨fun _ => rfl, hreads.passes, hreads.decodes⟩
  have hown : s.chain.dataOff ≠ 0 := by
    intro h
    simpa [hasStorage, h] using hs.storage
  cases hassigns : assigns s with
  | false => simpa [modifyLeft, ModifyIo.Keeps, hassigns] using hold
  | true =>
    by_cases hzero : dedupOff = 0
    · subst hzero
      cases halloc : mio.alloc with
      | error e =>
        simpa [modifyLeft, ModifyIo.Keeps, hassigns, halloc, Except.isOk, Except.toBool] using hold
      | ok off =>
        have hoff := hmem off halloc
        by_cases hcopied : loaded = true ∧ mio.buffer = true
        · have hcopy : (⟨off, s.chain.bytes, s.chain.dataOff⟩ : Left).KeepsOld cd fmt s b others :=
            ⟨fun h => absurd h (hunused.free off hoff), hreads.passes, hreads.decodes⟩
          simpa [modifyLeft, ModifyIo.Keeps, hassigns, halloc, hcopied] using hcopy
        · have hnot := hunused.not_keepsOld cd fmt s.chain.bytes hoff
          have hleft : modifyLeft mio 0 loaded s = .unwritten off s.chain.bytes := by
            simp [modifyLeft, hassigns, halloc, hcopied]
          rw [hleft]
          simp [ModifyIo.Keeps, hassigns, halloc, hnot, hcopied, hown.symm, Except.isOk,
            Except.toBool]
    · have hleft : modifyLeft mio dedupOff loaded s = .unwritten dedupOff (bytesOf dedupOff) := by
        simp [modifyLeft, hassigns, hzero]
      rw [hleft]
      by_cases hsame : dedupOff = s.chain.dataOff
      · subst hsame
        rw [← hsize]
        exact iff_of_true hold (.inr (.inl rfl))
      · have hnot : ¬ (Left.unwritten dedupOff (bytesOf dedupOff)).KeepsOld cd fmt s b others :=
          fun h => hsame (h.1 ((hdedup hzero).resolve_left hsame))
        simp [ModifyIo.Keeps, hassigns, hzero, hsame, hnot]

omit [DecidableEq β] in
/-- After a resize the block has lost its old content, whatever the modify that follows does. -/
theorem not_keepsOld_resized {off : Nat} {u : ChainSys γ κ} (hoff : u.chain.dataOff = off)
    (hunused : io.Unused cd fmt others s b) (hrealloc : io.realloc = .ok off) (hfresh : io.Fresh)
    (hdedup : dedupOff ≠ 0 → dedupOff ≠ s.chain.dataOff ∧ dedupOff ∈ others) :
    ¬ (modifyLeft io.modify dedupOff false u).KeepsOld cd fmt s b others := by
  have hnew (bytes : Nat) := hunused.not_keepsOld cd fmt bytes
    (hfresh.later (.inl hrealloc)).1
  have hkept : ¬ (Left.old u).KeepsOld cd fmt s b others := by
    have h := hnew u.chain.bytes
    rwa [← hoff] at h
  cases hassigns : assigns u with
  | false => simpa [modifyLeft, hassigns] using hkept
  | true =>
    by_cases hzero : dedupOff = 0
    · cases halloc : io.modify.alloc with
      | error e => simpa [modifyLeft, hassigns, hzero, halloc] using hkept
      | ok new =>
        simpa [modifyLeft, hassigns, hzero, halloc] using
          hunused.not_keepsOld cd fmt _ (hfresh.later (.inr halloc)).1
    · obtain ⟨hne, hothers⟩ := hdedup hzero
      have hleft : modifyLeft io.modify dedupOff false u =
          .unwritten dedupOff (bytesOf dedupOff) := by simp [modifyLeft, hassigns, hzero]
      rw [hleft]
      exact fun h => hne (h.1 hothers)

omit [DecidableEq β] in
/-- The storage that a failed write leaves has the old content in the cases of `WriteIo.Spares`. -/
theorem leftBy_keepsOld_iff (hs : StoredBlock s)
    (hsize : s.chain.bytes = bytesOf s.chain.dataOff) (hreads : ReadsAs cd fmt s b)
    (hfresh : io.Fresh) (hunused : io.Unused cd fmt others s b) (hradix : radix ≠ 0)
    (hdedup : dedupOff ≠ 0 → (dedupOff = s.chain.dataOff ∨ dedupOff ∈ others) ∧
      bytesOf dedupOff = 2 ^ radix) :
    (leftBy fmt io mtid dedupOff radix s).KeepsOld cd fmt s b others ↔
      io.Spares dedupOff radix s := by
  have hold : (Left.old s).KeepsOld cd fmt s b others :=
    ⟨fun _ => rfl, hreads.passes, hreads.decodes⟩
  by_cases herror : s.chain.error = 0
  swap
  · rw [leftBy, if_pos herror]
    exact iff_of_true hold (.chain herror)
  rw [leftBy, if_neg (not_not.2 herror)]
  by_cases hbytes : s.chain.bytes = 2 ^ radix
  · rw [if_pos hbytes, modifyLeft_keepsOld_iff cd fmt io.modify _ hs hsize hreads hunused
      (fun off h => (hfresh.later (.inr h)).1) fun h => (hdedup h).1]
    refine ⟨.modify hbytes, fun h => ?_⟩
    cases h with
    | chain h => exact absurd herror h
    | modify _ hkeeps => exact hkeeps
    | load h | resize h => exact absurd hbytes h
  rw [if_neg hbytes]
  have hfails := chainResize_fails_iff fmt io.resize io.realloc mtid dedupOff hs hradix
    hreads.passes hbytes
  rcases chainResize_cases fmt io.resize io.realloc mtid dedupOff hradix hbytes with
    ⟨hfail, -⟩ | ⟨off, hrealloc, hresize⟩
  · simp only [if_neg hfail]
    by_cases hload : s.chain.data = none ∧ io.resize.load = false
    · obtain ⟨hnone, hload⟩ := hload
      simp only [hnone, hload, Option.isNone_none, Bool.not_false, Bool.and_self, if_true]
      exact iff_of_true hold (.load hbytes hnone hload)
    · have hloaded : ¬ (s.chain.data.isNone && !io.resize.load) = true := by
        simpa [Option.isNone_iff_eq_none] using hload
      have hmem (new : Nat) (h : io.resize.alloc = .ok new) : new ∈ io.allocated := by
        simp [WriteIo.allocated, h, Except.toOption]
      rw [if_neg hloaded, modifyLeft_keepsOld_iff cd fmt io.resize true hs hsize hreads hunused
        hmem fun h => (hdedup h).1]
      refine ⟨.resize hbytes (hfails.1 hfail), fun h => ?_⟩
      cases h with
      | chain h => exact absurd herror h
      | modify h => exact absurd h hbytes
      | load _ hnone h => exact absurd ⟨hnone, h⟩ hload
      | resize _ _ hkeeps => exact hkeeps
  · have hok : ¬ (io.resize.Fails dedupOff s ∨ io.realloc.isOk = false) :=
      fun h => hfails.2 h (by rw [hresize])
    simp only [hresize, if_true]
    refine iff_of_false (not_keepsOld_resized cd fmt rfl hunused hrealloc hfresh ?_) fun h => ?_
    · intro hne
      obtain ⟨hblock, hnew⟩ := hdedup hne
      have hother : dedupOff ≠ s.chain.dataOff := by
        rintro rfl
        exact hbytes (hsize.trans hnew)
      exact ⟨hother, hblock.resolve_left hother⟩
    · cases h with
      | chain h => exact h herror
      | modify h => exact hbytes h
      | load _ hnone h => exact hok (.inl (.inl ⟨hnone, h⟩))
      | resize _ h => exact hok h

end

/-- **A failed block write.** The block still reads as before, and names nobody else's storage,
exactly after the failures of `WriteIo.Spares`. -/
theorem writeFileCore_failed_iff (m : WriteMode) (io : WriteIo) (mtid dedupOff : Nat) (data b : β)
    (others : Set Nat) (s : ChainSys γ κ) (hs : StoredBlock s)
    (hsize : s.chain.bytes = bytesOf s.chain.dataOff) (hreads : ReadsAs cd fmt s b)
    (hfresh : io.Fresh) (hunused : io.Unused cd fmt others s b)
    (hdedup : dedupOff ≠ 0 → DedupHit cd dedupOff m data others s)
    (hfail : (writeFileCore cd fmt m io mtid dedupOff data (some s.chain) s.toPool).1 ≠ 0) :
    StillReads cd fmt b s.chain.dataOff others
        (writeFileCore cd fmt m io mtid dedupOff data (some s.chain) s.toPool).2.1
        (writeFileCore cd fmt m io mtid dedupOff data (some s.chain) s.toPool).2.2 ↔
      ∀ d, storedForm cd m data = some d → io.Spares dedupOff d.radix s := by
  have hsame : { s.toPool with chain := s.chain } = s := rfl
  cases hhole : writesHole cd m data with
  | true => simp [writeFileCore, hhole] at hfail
  | false =>
    cases hform : storedForm cd m data with
    | none =>
      simp only [writeFileCore, hhole, hform, reduceCtorEq, false_implies, implies_true, iff_true]
      exact ⟨s.chain, rfl, (readChain_of_passes cd fmt hs.type hs.initial hs.storage
        hreads.passes).2 hreads.decodes, hreads.passes, fun _ => rfl⟩
    | some d =>
      simp only [writeFileCore, hhole, hform, Bool.false_eq_true, if_false, hsame] at hfail ⊢
      have hradix := storedForm_radix cd hform
      have hleft := assignExisting_leaves fmt mtid dedupOff hs hradix hreads.passes hfresh
      have hstorage := hasStorage_leftBy fmt mtid hs hradix hfresh fun h => (hdedup h).storage
      rw [writeExisting_failed fmt hfail]
      simp only [Option.some.injEq, forall_eq']
      rw [hleft.stillReads cd fmt hs hstorage b others]
      exact leftBy_keepsOld_iff cd fmt hs hsize hreads hfresh hunused hradix fun h =>
        ⟨(hdedup h).block, (hdedup h).size d hform⟩

end

/-- Blocks are numbers that are stored as they are. -/
def numCodec : Codec Nat Nat := ⟨0, id, fun _ _ => none, fun _ _ content => some content⟩

/-- A file with check codes and without compression. -/
def plainMode : WriteMode := ⟨.none, .xxhash64, false, true⟩

/-- The recorded block, with something else in the free storage at 0x50000, and 5 in the block that
another file has at 0x90000. -/
def recordedFile : ChainSys Nat Nat :=
  { recordedSys with
    storage := fun off => if off = 0x50010 then 9 else if off = 0x90010 then 5 else 7 }

/-- Without space for a copy, the block keeps its storage. -/
theorem writeFileCore_failed_full :
    let io : WriteIo := ⟨noSpace, .ok 0x50010, noSpace, .ok (), true⟩
    let r := writeFileCore numCodec numFormat plainMode io 6 0 8 (some recordedFile.chain)
      recordedFile.toPool
    r.1 = errorEnospc ∧ StillReads numCodec numFormat 7 0x10010 {0x90010} r.2.1 r.2.2 := by
  refine ⟨by decide, (writeFileCore_failed_iff numCodec numFormat plainMode
    ⟨noSpace, .ok 0x50010, noSpace, .ok (), true⟩ 6 0 8 7 _ recordedFile ⟨rfl, rfl, rfl, rfl,
      by decide, fun _ h => nomatch h⟩ (by decide) ⟨by decide, rfl⟩ ⟨by decide, by decide⟩
      ⟨by decide, ?_⟩ (fun h => absurd rfl h) (by decide)).2 ?_⟩
  · intro off hoff hpass
    obtain rfl : 0x50010 = off := by simpa [WriteIo.allocated, noSpace, Except.toOption] using hoff
    exact absurd hpass (by decide)
  · intro d hd
    obtain rfl := Option.some.inj hd
    exact .modify (by decide) (.inr (.inr ⟨rfl, .inl rfl⟩))

/-- If the buffer of the new storage is not available, the block is left with what was in the free
storage there, and reads as that. If it is the buffer of a dedup hit, the block is left with the
storage of the other file, which its own check code does not fit. -/
theorem writeFileCore_failed_loses :
    let io : WriteIo := ⟨noSpace, .ok 0x60010, ⟨true, .ok 0x50010, false⟩,
      .error ⟨errorEio, by decide⟩, true⟩
    let write := fun dedupOff data => writeFileCore numCodec numFormat plainMode io 6 dedupOff data
      (some recordedFile.chain) recordedFile.toPool
    let read := fun r : Nat × Option (Chain Nat) × Pool Nat =>
      r.2.1.map fun c => readChain numCodec numFormat { r.2.2 with chain := c }
    readChain numCodec numFormat recordedFile = .ok 7 ∧
      (write 0 8).1 = errorEio ∧ read (write 0 8) = some (.ok 9) ∧
      (write 0x90010 5).1 = errorEio ∧
      (write 0x90010 5).2.1.map (·.dataOff) = some 0x90010 ∧
      read (write 0x90010 5) = some (.error errorCheck) := by
  decide

end Hammer2
