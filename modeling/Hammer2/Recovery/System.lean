import Hammer2.Flush.Header
import Hammer2.Recovery.Scan

/-!
# Modifications, flushes and the freemap together

A mounted volume: the chains of the topology in memory, each with its blockref, its flags and its
block table, the freemap in memory and as `voldata.freemap_blockset` leads to it, and the volume
header. A block table holds for each child the blockref as it was last written into it, and with it
what that blockref leads to on the media: a chain that was flushed is not changed in place again, so
this is a tree that does not change (`Rose TopoRef`).

The steps are the operations that assign storage or move blockrefs: `hammer2_chain_modify`,
creation, deletion and renaming of chains, the two halves of `hammer2_flush_core` (a chain into its
parent's table, a freemap leaf into the freemap), the flushes of `fchain` and `vchain`, the header
write, and a mount after a crash. They may interleave in any order: a transaction that flushes does
not exclude the others. Emergency mode, which modifies in place what the media already refers to, is
left out.

Reference: `hammer2_chain.c:1412-1837`, `hammer2_flush.c:640-1003`, `hammer2_freemap.c:290-545`.
-/

namespace Hammer2

open Deferral

/-- A block table, with the child each blockref belongs to. -/
abbrev BlockTable (ι : Type*) := List (ι × Rose TopoRef)

/-- The trees of a block table. -/
def BlockTable.trees {ι : Type*} (t : BlockTable ι) : List (Rose TopoRef) := t.map Prod.snd

/-- The two block sets of the volume header: the topology root, and the freemap it leads to. -/
structure VolBody (ι : Type*) where
  sroot : BlockTable ι
  freemap : Nat → Bmap

/-- `hammer2_chain_t`. The parent is a chain or, for `none`, `vchain`. -/
structure TopoChain (ι : Type*) where
  bref : TopoRef
  modified : Bool
  update : Bool
  parent : Option (Option ι)
  table : BlockTable ι

/-- A mounted volume. `dirty` are the freemap leaves flagged `MODIFIED`, `sources` the ranges of the
data blocks allocated since the mount, which dedup may share, and `headers` the headers written. -/
structure FsState (ι : Type*) where
  vol : VolDev (VolBody ι)
  chain : ι → TopoChain ι
  live : Nat → Bmap
  dirty : List Nat
  sources : List Ref
  headers : List (VolumeData (VolBody ι))

/-- How `hammer2_chain_modify` assigns storage. -/
inductive Storage
  | keep
  | alloc (seg : Nat) (subKey : BitVec 32) (radix : Nat)
  | dedup (r : Ref)

/-- The steps. -/
inductive FsAct (ι : Type*)
  | create (c : ι) (type : BrefType) (direct : Bool) (p : Option ι)
  | modify (c : ι) (how : Storage)
  | setDirect (c : ι) (direct : Bool)
  | attach (c : ι) (p : Option ι)
  | detach (c : ι)
  | unmap (c : ι) (p : Option ι) (how : Storage)
  | move (c : ι) (p q : Option ι) (how how' : Storage)
  | copyTable (src dst : ι) (how : Storage)
  | clean (c : ι)
  | flush (c : ι) (how : Storage)
  | flushLeaf (leaf : Nat)
  | flushFreemap
  | voldataModify
  | flushVolume
  | headerWrite
  | mount (h : VolumeData (VolBody ι))

section
variable {ι : Type*}

/-- The blockref of a chain and what it leads to. -/
def TopoChain.tree (ch : TopoChain ι) : Rose TopoRef := .node ch.bref ch.table.trees

/-- A chain keeps its storage when it is flagged `MODIFIED`; data without a check code, and
directory entries without storage, are changed in place. -/
def TopoChain.keeps (ch : TopoChain ι) : Bool :=
  ch.modified || ch.bref.type == .data || ch.bref.type == .dirent

/-- The end of `hammer2_chain_modify`: the flags and the new `mirror_tid`. -/
def TopoChain.modify (ch : TopoChain ι) (storage : Option (Nat × Extent)) (tid : Nat)
    (modified : Bool) : TopoChain ι :=
  { ch with bref := { ch.bref with storage, mirrorTid := tid }, modified, update := true }

/-- Changes one bmap of the freemap in memory and flags its leaf. -/
def FsState.mark (s : FsState ι) (seg : Nat) (b : Bmap) : FsState ι :=
  { s with live := Function.update s.live seg b, dirty := seg / 256 :: s.dirty }

/-- The block table of `vchain` or of a chain. -/
def FsState.table (s : FsState ι) : Option ι → BlockTable ι
  | none => s.vol.voldata.body.sroot
  | some c => (s.chain c).table

/-- No block table is there to be changed: an inode flagged `DIRECTDATA`. -/
def FsState.noTable (s : FsState ι) : Option ι → Bool
  | none => false
  | some c => (s.chain c).bref.type == .inode && (s.chain c).bref.direct

variable [DecidableEq ι]

def FsState.setChain (s : FsState ι) (c : ι) (ch : TopoChain ι) : FsState ι :=
  { s with chain := Function.update s.chain c ch }

def FsState.setTable (s : FsState ι) (t : BlockTable ι) : Option ι → FsState ι
  | none =>
    { s with vol.voldata.body.sroot := t }
  | some c => s.setChain c { s.chain c with table := t }

/-- `hammer2_base_insert`, after `hammer2_base_delete` of an old entry. -/
def BlockTable.insert (t : BlockTable ι) (c : ι) (e : Rose TopoRef) : BlockTable ι :=
  (c, e) :: t.filter (·.1 ≠ c)

/-- `hammer2_base_delete`. -/
def BlockTable.delete (t : BlockTable ι) (c : ι) : BlockTable ι := t.filter (·.1 ≠ c)

variable (hmp : FreemapDev)

/-- `hammer2_chain_modify`, when it succeeds. -/
def FsState.modify (s : FsState ι) (c : ι) : Storage → Option (FsState ι)
  | .keep =>
    let ch := s.chain c
    if ch.keeps then
      some (s.setChain c (ch.modify ch.bref.storage (s.vol.voldata.mirrorTid + 1) true))
    else none
  | .alloc seg subKey radix =>
    let ch := s.chain c
    (bmapAlloc (s.live seg) (brefClass ch.bref.type) subKey radix).map fun r =>
      let e : Extent := ⟨r.offset, radix⟩
      let s' := (s.mark seg r.bmap).setChain c
        (ch.modify (some (seg, e)) (s.vol.voldata.mirrorTid + 1) true)
      -- `hammer2_io_dedup_set`
      if ch.bref.type = .data then { s' with sources := ⟨seg, e, .data⟩ :: s'.sources } else s'
  | .dedup r =>
    let ch := s.chain c
    if ch.bref.type = .data ∧ r ∈ s.sources then
      let b := adjustSegment hmp r true (s.live r.seg)
      let s' := if b = s.live r.seg then s else s.mark r.seg b
      some (s'.setChain c
        (ch.modify (some (r.seg, r.ext)) (s.vol.voldata.mirrorTid + 1) false))
    else none

/-- `hammer2_chain_modify` on `vchain` or on a chain. -/
def FsState.modifyAt (s : FsState ι) (how : Storage) : Option ι → Option (FsState ι)
  | none => some { s with vol := s.vol.vchainModify }
  | some c => s.modify hmp c how

/-- The part of `hammer2_flush_core` that writes a chain's blockref into its parent's block
table. -/
def FsState.flush (s : FsState ι) (c : ι) (how : Storage) : Option (FsState ι) :=
  let ch := s.chain c
  match ch.update, ch.parent with
  | true, some p =>
    ((s.setChain c { ch with modified := false, update := false }).modifyAt hmp how p).map fun t =>
      if t.noTable p then t else t.setTable ((t.table p).insert c ch.tree) p
  | _, _ => none

/-- `_hammer2_chain_delete_helper` for a chain whose blockref is in the table. -/
def FsState.unmap (s : FsState ι) (c : ι) (how : Storage) (p : Option ι) : Option (FsState ι) :=
  (s.modifyAt hmp how p).map fun t =>
    (t.setTable ((t.table p).delete c) p).setChain c
      { (t.setTable ((t.table p).delete c) p).chain c with parent := none }

/-- `hammer2_chain_rename_obref` after `hammer2_chain_delete_obref`: the blockref as it stands in
the one table goes to the other. -/
def FsState.move (s : FsState ι) (c : ι) (how how' : Storage) (p q : Option ι) :
    Option (FsState ι) :=
  match (s.table p).find? (·.1 = c) with
  | none => none
  | some e => (s.unmap hmp c how p).bind fun t => (t.modifyAt hmp how' q).map fun u =>
      (u.setTable ((u.table q).insert c e.2) q).setChain c
        { (u.setTable ((u.table q).insert c e.2) q).chain c with parent := some q, update := true }

/-- The flush of a freemap leaf, up to `fchain`. -/
def FsState.flushLeaf (s : FsState ι) (leaf : Nat) : FsState ι :=
  let body := s.vol.voldata.body
  let freemap seg := if seg / 256 = leaf then s.live seg else body.freemap seg
  { s with
    vol := { s.vol.fchainModify with
      voldata := { s.vol.voldata with body := { body with freemap } } }
    dirty := s.dirty.filter (· ≠ leaf) }

/-- The types of the chains a topology is made of. -/
def BrefType.inTopology : BrefType → Bool
  | .inode | .indirect | .data | .dirent => true
  | _ => false

/-- One step other than a mount, when it is enabled. -/
def fsNext (s : FsState ι) : FsAct ι → Option (FsState ι)
  | .create c type direct p =>
    if type.inTopology then
      some (s.setChain c ⟨⟨type, none, 0, direct⟩, false, false, some p, []⟩)
    else none
  | .modify c how => s.modify hmp c how
  | .setDirect c direct =>
    if (s.chain c).modified ∧ (s.chain c).bref.type = .inode then
      some (s.setChain c
        { s.chain c with bref := { (s.chain c).bref with direct }, table := [] })
    else none
  | .attach c p => some (s.setChain c { s.chain c with parent := some p, update := true })
  | .detach c => some (s.setChain c { s.chain c with parent := none })
  | .unmap c p how => s.unmap hmp c how p
  | .move c p q how how' => s.move hmp c how how' p q
  | .copyTable src dst how =>
    (s.modify hmp dst how).map fun t => t.setTable (t.table (some src)) (some dst)
  | .clean c => some (s.setChain c { s.chain c with modified := false })
  | .flush c how => s.flush hmp c how
  | .flushLeaf leaf => some (s.flushLeaf leaf)
  | .flushFreemap => some { s with vol := s.vol.flushFreemap }
  | .voldataModify => some { s with vol := s.vol.voldataModify }
  | .flushVolume => some { s with vol := s.vol.flushVolume }
  | .headerWrite =>
    if s.vol.volumesync then
      some { s with vol.volumesync := false, headers := s.vol.volsync :: s.headers }
    else none
  | .mount _ => none

/-- What the callers promise: the radix and the `sub_key` of an allocation. -/
def Storage.Valid (type : BrefType) : Storage → Prop
  | .alloc _ subKey radix => ValidRadix radix ∧ SubKeyAligned (brefClass type) subKey radix
  | _ => True

/-- The type of a chain; `vchain` never allocates. -/
def FsState.typeAt (s : FsState ι) : Option ι → BrefType
  | none => .volume
  | some c => (s.chain c).bref.type

/-- What the callers promise of a step. -/
def FsAct.Valid (s : FsState ι) : FsAct ι → Prop
  | .modify c how => how.Valid (s.typeAt (some c))
  | .unmap _ p how => how.Valid (s.typeAt p)
  | .move _ p q how how' => how.Valid (s.typeAt p) ∧ how'.Valid (s.typeAt q)
  | .copyTable _ dst how => how.Valid (s.typeAt (some dst))
  | .flush c how => ∀ p, (s.chain c).parent = some p → how.Valid (s.typeAt p)
  | _ => True

/-! ## Mounting -/

/-- `hammer2_freemap_adjust(DORECOVER)` on a blockref: one without storage is below the static
allocation area and returns at once. -/
def adjustRef (freemap : Nat → Bmap) (b : TopoRef) : Nat → Bmap :=
  match b.ref? with
  | none => freemap
  | some r => Function.update freemap r.seg (adjustSegment hmp r true (freemap r.seg))

/-- The freemap after a recovery. -/
def recoveredFreemap (freemap : Nat → Bmap) (adjusted : List TopoRef) : Nat → Bmap :=
  adjusted.foldl (adjustRef hmp) freemap

/-- A chain that is not in use. -/
structure TopoChain.Unused (ch : TopoChain ι) : Prop where
  type : ch.bref.type.inTopology = true
  storage : ch.bref.storage = none
  tid : ch.bref.mirrorTid = 0
  table : ch.table = []

/-- A chain as it is loaded from the media. -/
structure TopoChain.Loads (ch : TopoChain ι) (t : Rose TopoRef) : Prop where
  bref : ch.bref = t.label
  table : ch.table.trees = if t.label.scans then t.children else []

/-- The state after a mount from the header `h` and its recovery. Every chain is one the media has,
or is not in use; nothing is left to share. -/
structure Mounts (h : VolumeData (VolBody ι)) (s : FsState ι) : Prop where
  vol : ∃ zone, s.vol = .mount zone h
  recovered : ∃ fuel adjusted, recovery h.freemapTid fuel h.body.sroot.trees = some adjusted ∧
    s.live = recoveredFreemap hmp h.body.freemap adjusted
  dirty : ∀ seg, s.live seg ≠ h.body.freemap seg → seg / 256 ∈ s.dirty
  chain : ∀ c, (s.chain c).Unused ∨
    ∃ t, Below TopoRef.scans h.body.sroot.trees t ∧ (s.chain c).Loads t
  sources : s.sources = []

/-- The step relation. A mount follows a crash at any point, from any of the headers written. -/
def fsStep (s : FsState ι) (a : FsAct ι) (t : FsState ι) : Prop :=
  a.Valid s ∧
    match a with
    | .mount h => h ∈ s.headers ∧ Mounts hmp h t ∧ t.headers = s.headers
    | _ => fsNext hmp s a = some t

end

end Hammer2
