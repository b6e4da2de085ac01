import Hammer2.Chain.Modify

/-!
# Writing and reading a file block

`hammer2_write_file_core` stores one logical block of a file. It brings the block into the form the
file asks for (`storedForm`), finds out whether the device holds these bytes already, assigns
storage to the block's chain (`assignExisting`) and fills it (`fillBlock`). A block of zeros becomes
a hole. `readBlock` is the way back: the chain is loaded and decoded by its own methods.

Logical blocks are of type `β`. Each call that can fail has its answer in `WriteIo`; the answer of
`hammer2_dedup_lookup` is the argument `dedupOff`, zero if there is no match.

Reference: `hammer2_strategy.c:309-369`, `hammer2_strategy.c:632-1258`,
`hammer2_chain.c:1349-1410`, `hammer2_chain.c:2970-3290`.
-/

namespace Hammer2

/-- The formats of a block: `raw` as it is, or compressed to a number of bytes. -/
structure Codec (β γ : Type*) where
  zeros : β
  raw : β → γ
  compress : CompAlgo → β → Option (Nat × γ)
  decode : CompAlgo → Nat → γ → Option β

/-- What a write is about to store. -/
structure StoredForm (γ : Type*) where
  comp : CompAlgo
  radix : Nat
  content : γ

/-- The settings of a file that a write of a block reads: `comp_algo`, `check_algo`, whether the
heuristic wants a compression attempt, and `hammer2_dedup_enable`. -/
structure WriteMode where
  comp : CompAlgo
  check : CheckAlgo
  attempt : Bool
  dedupEnable : Bool

/-- The answers to the calls of a block write: the modify and the allocation of a resize, the modify
of the assignment, `hammer2_io_newnz`, and the deletion that makes a hole. -/
structure WriteIo where
  resize : ModifyIo
  realloc : Except ErrorCode Nat
  modify : ModifyIo
  newnz : Except ErrorCode Unit
  delete : Bool

section
variable {β γ κ : Type*} [DecidableEq β] [DecidableEq κ] (cd : Codec β γ) (fmt : BlockFormat γ κ)

/-- The block size that `comp_size` compressed bytes are stored in. -/
def compBlockRadix (compSize : Nat) : Option Nat :=
  if compSize ≤ 1024 then some 10
  else if compSize ≤ 2048 then some 11
  else if compSize ≤ 4096 then some 12
  else if compSize ≤ 8192 then some 13
  else if compSize ≤ 16384 then some 14
  else if compSize ≤ 32768 then some 15
  else none

/-- The form a file stores a block in; none for a compressed size that cannot be. -/
def storedForm (m : WriteMode) (data : β) : Option (StoredForm γ) :=
  match m.comp with
  | .none | .autozero => some ⟨.none, pbufRadix, cd.raw data⟩
  | algo =>
    match if m.attempt then cd.compress algo data else none with
    | none => some ⟨.none, pbufRadix, cd.raw data⟩
    | some (compSize, content) => (compBlockRadix compSize).map (⟨algo, ·, content⟩)

/-- A write that makes a hole: zeros, unless the file is stored as it is or without check codes. -/
def writesHole (m : WriteMode) (data : β) : Bool :=
  m.comp ≠ .none && m.check ≠ .none && data = cd.zeros

/-- `hammer2_chain_resize`. -/
def chainResize (io : ModifyIo) (realloc : Except ErrorCode Nat) (mtid dedupOff nradix : Nat)
    (s : ChainSys γ κ) : Nat × ChainSys γ κ :=
  let nbytes := if nradix = 0 then 0 else 2 ^ nradix
  if s.chain.bytes = nbytes then (s.chain.error, s)
  else
    let r := chainModify fmt io mtid dedupOff false s
    if r.1 ≠ 0 then r
    else match realloc with
      | .error e => (e.1, r.2)
      | .ok off =>
        let t := { r.2 with chain.dataOff := off, chain.bytes := nbytes, chain.data := none }
        (t.chain.error, t)

/-- `hammer2_assign_physical` for a block that has a chain. -/
def assignExisting (io : WriteIo) (mtid dedupOff radix : Nat) (s : ChainSys γ κ) :
    Nat × ChainSys γ κ :=
  if s.chain.error ≠ 0 then (s.chain.error, s)
  else
    let r := if s.chain.bytes ≠ 2 ^ radix then
      chainResize fmt io.resize io.realloc mtid dedupOff radix s else (0, s)
    if r.1 ≠ 0 then r else chainModify fmt io.modify mtid dedupOff true r.2

/-- The chain that `hammer2_chain_create` makes for a hole, before its modify. -/
def newDataChain (check : CheckAlgo) (radix : Nat) (code : κ) : Chain κ where
  type := .data
  isRoot := false
  pmp := true
  modified := false
  update := false
  dedupable := false
  initial := true
  blkmapped := false
  blkmapupd := false
  nottested := false
  testedgood := false
  dataOff := radix
  mirrorTid := 0
  modifyTid := 0
  emergMip := false
  comp := .none
  check := check
  code := code
  bytes := 2 ^ radix
  data := none
  error := 0

/-- `hammer2_dedup_record` sets `DEDUPABLE` on a block that has a strong check code. -/
def recordable (m : WriteMode) : Bool :=
  m.dedupEnable && (m.check = .iscsi32 || m.check = .xxhash64 || m.check = .sha192)

/-- `hammer2_write_bp`, its twin in `hammer2_compress_and_write`, and what the callers do after a
dedup hit: the methods and the check code follow the data. -/
def fillBlock (m : WriteMode) (newnz : Except ErrorCode Unit) (dedupOff : Nat)
    (d : StoredForm γ) (s : ChainSys γ κ) : Nat × ChainSys γ κ :=
  if dedupOff ≠ 0 then
    let c := { s.chain with comp := d.comp, check := m.check }
    (0, { s with chain := { c.setcheck fmt d.content with initial := false } })
  else match newnz with
    | .error e => (e.1, s)
    | .ok () =>
      let c := { s.chain with comp := d.comp, check := m.check }
      let c := c.setcheck fmt d.content
      (0, { s with
        chain := { c with initial := false, dedupable := c.dedupable || recordable m }
        storage := Function.update s.storage c.dataOff d.content })

/-- A write to a block that has a chain. -/
def writeExisting (m : WriteMode) (io : WriteIo) (mtid dedupOff : Nat) (d : StoredForm γ)
    (s : ChainSys γ κ) : Nat × ChainSys γ κ :=
  let r := assignExisting fmt io mtid dedupOff d.radix s
  if r.1 ≠ 0 then r else fillBlock fmt m io.newnz dedupOff d r.2

/-- A write to a hole. -/
def writeNew (m : WriteMode) (io : WriteIo) (mtid dedupOff : Nat) (d : StoredForm γ) (p : Pool γ) :
    Nat × ChainSys γ κ :=
  let r := chainModify fmt io.modify mtid dedupOff true
    { p with chain := newDataChain m.check d.radix fmt.blank }
  if r.1 ≠ 0 then r else fillBlock fmt m io.newnz dedupOff d r.2

/-- `hammer2_write_file_core` on a block with the chain `block`, or on a hole. -/
def writeFileCore (m : WriteMode) (io : WriteIo) (mtid dedupOff : Nat) (data : β)
    (block : Option (Chain κ)) (p : Pool γ) : Nat × Option (Chain κ) × Pool γ :=
  if writesHole cd m data then
    -- `zero_write` does not look at the result of the deletion
    (0, if io.delete then none else block, p)
  else match storedForm cd m data with
    | none => (errorEio, block, p)
    | some d =>
      let r := match block with
        | some c => writeExisting fmt m io mtid dedupOff d { p with chain := c }
        | none => writeNew fmt m io mtid dedupOff d p
      (r.1, some r.2.chain, r.2.toPool)

/-- A read of a block: `hammer2_chain_lock` loads the data, `hammer2_strategy_decode` decodes it. -/
def readChain (s : ChainSys γ κ) : Except Nat β :=
  let t := loadData fmt true { s with chain.data := none }
  if t.chain.error ≠ 0 then .error t.chain.error
  else match cd.decode t.chain.comp t.chain.bytes (t.storage t.chain.dataOff) with
    | some data => .ok data
    | none => .error errorEio

end

end Hammer2
