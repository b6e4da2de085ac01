import Hammer2.Lib.Run
import Hammer2.Freemap.Segment
import Hammer2.Bulkfree.Sync

/-!
# Allocation, dedup and bulkfree together

The live freemap is shared by allocations, by dedup hits that mark their block again, and by
bulkfree passes, each of which takes a snapshot of the blockrefs of the topology and merges it
later, segment by segment. `BfState` is that state and `bfStep` one step of any of the parties.
Dedup bits stand for `dio->dedup_alloc`, one for each 1KB of a segment: set when a data block is
allocated, cleared when the merge stages the block, and lost whenever the buffer goes away.

Reference: `hammer2_bulkfree.c:465-982`, `hammer2_freemap.c:505-514`, `hammer2_io.c:1243-1380`.
-/

namespace Hammer2

/-- A blockref of the topology: its segment, the range in it, and its type. -/
structure Ref where
  seg : Nat
  ext : Extent
  type : BrefType
  deriving DecidableEq, Repr

/-- The blockref as the freemap reads it. -/
def Ref.bref (r : Ref) : Blockref := ⟨r.seg * segSize + r.ext.offset + r.ext.radix, r.type⟩

/-- The range of a blockref is one the allocator returns. -/
structure Ref.WellFormed (r : Ref) : Prop where
  radix : ValidRadix r.ext.radix
  placed : r.ext.WellPlaced
  kb : r.ext.offset % 1024 = 0

instance {r : Ref} : Decidable r.WellFormed :=
  decidable_of_iff (ValidRadix r.ext.radix ∧ r.ext.WellPlaced ∧ r.ext.offset % 1024 = 0)
    ⟨fun h => ⟨h.1, h.2.1, h.2.2⟩, fun h => ⟨h.1, h.2, h.3⟩⟩

/-- The state: the live bmap of each segment, the blockrefs of the topology, the dedup bits, and the
bmaps of the pass in progress that are still to be merged. -/
structure BfState where
  live : Nat → Bmap
  refs : List Ref
  dedup : Nat → Nat → Bool
  pass : Option (Nat → Option Bmap)

/-- The steps of the parties. `hint` and `skip` are those of `bulkfreeSync`; `ok` tells whether a
dedup hit's adjustment finds or creates the leaf. The modifies of the leaves are taken to succeed:
one that fails in I/O loses their bitmaps. -/
inductive BfAct
  | alloc (seg : Nat) (subKey : BitVec 32) (radix : Nat) (type : BrefType)
  | dedupHit (r : Ref) (ok : Bool)
  | release (r : Ref)
  | dedupDrop (seg frag : Nat)
  | snapshot (sbase sstop : Nat)
  | merge (seg : Nat) (hint skip : Bool)
  | passEnd

/-- The 1KB fragments of an extent. -/
def Extent.frags (e : Extent) : List Nat :=
  (List.range (2 ^ e.radix / 1024)).map fun i => e.offset / 1024 + i

/-- The class of an allocation for a blockref type: `(type << 8) | HAMMER2_PBUFRADIX`. -/
def brefClass (type : BrefType) : BitVec 16 := Blockref.cls ⟨0, type⟩

/-- The state of a pass before its scan. -/
def cbinfoInit (hmp : FreemapDev) (sbase sstop : Nat) : BulkfreeInfo where
  hmp := hmp
  sbase := sbase
  sstop := sstop
  bmap s := cbinfoBmapInit hmp (sbase + s * freemapLevel0Size)

/-- The scan of a pass over the blockrefs of the topology. -/
def bulkfreeScan (hmp : FreemapDev) (sbase sstop : Nat) (refs : List Ref) : BulkfreeInfo :=
  (refs.map Ref.bref).foldl bulkfreeCallback (cbinfoInit hmp sbase sstop)

/-- The bmaps a pass over `[sbase, sstop)` is to merge. -/
def bulkfreePass (hmp : FreemapDev) (sbase sstop : Nat) (refs : List Ref) (seg : Nat) :
    Option Bmap :=
  if sbase ≤ seg * segSize ∧ seg * segSize < sstop then
    some ((bulkfreeScan hmp sbase sstop refs).bmap (seg - sbase / segSize))
  else none

/-- The effect of a dedup hit on its segment: `freemapAdjust` on the segment's bmap. -/
def adjustSegment (hmp : FreemapDev) (r : Ref) (ok : Bool) (b : Bmap) : Bmap :=
  if r.bref.off < hmp.allocatorBeg ∨ ok = false then b else (adjustBmap r.bref b).bmap

section
variable (hmp : FreemapDev)

/-- A call of the allocator for a blockref. -/
def BfState.alloc (s : BfState) (seg : Nat) (subKey : BitVec 32) (radix : Nat) (type : BrefType) :
    Option BfState :=
  (bmapAlloc (s.live seg) (brefClass type) subKey radix).map fun r =>
    { s with
      live := Function.update s.live seg r.bmap
      refs := ⟨seg, ⟨r.offset, radix⟩, type⟩ :: s.refs
      dedup := fun g f =>
        s.dedup g f || (type == .data && g == seg && (Extent.frags ⟨r.offset, radix⟩).contains f) }

/-- A blockref that shares a block found through the dedup heuristic. -/
def BfState.dedupHit (s : BfState) (r : Ref) (ok : Bool) : BfState :=
  { s with
    live := Function.update s.live r.seg (adjustSegment hmp r ok (s.live r.seg))
    refs := r :: s.refs }

/-- The merge of one segment of the pass. -/
def BfState.merge (s : BfState) (p : Nat → Option Bmap) (seg : Nat) (hint skip : Bool) (m : Bmap) :
    BfState :=
  let t := bulkfreeSync hmp (seg * segSize) hint skip (s.live seg) m
  { s with
    live := Function.update s.live seg t.live
    dedup := fun g f => s.dedup g f && !(g == seg && t.deleted.contains (f / 16))
    pass := some (Function.update p seg none) }

/-- One step, when it is enabled. -/
def bfNext (s : BfState) : BfAct → Option BfState
  | .alloc seg subKey radix type => s.alloc seg subKey radix type
  | .dedupHit r ok => if r.ext.frags.all (s.dedup r.seg) then some (s.dedupHit hmp r ok) else none
  | .release r => if r ∈ s.refs then some { s with refs := s.refs.erase r } else none
  | .dedupDrop seg frag =>
    some { s with dedup := fun g f => s.dedup g f && !(g == seg && f == frag) }
  | .snapshot sbase sstop =>
    match s.pass with
    | none => some { s with pass := some (bulkfreePass hmp sbase sstop s.refs) }
    | some _ => none
  | .merge seg hint skip =>
    match s.pass with
    | some p => (p seg).map (s.merge hmp p seg hint skip)
    | none => none
  | .passEnd => some { s with pass := none }

/-- What the callers promise of an action: the radix and the `sub_key` of an allocation, the range
of a blockref that is shared, and the storage range of a pass. -/
def BfAct.Valid : BfAct → Prop
  | .alloc _ subKey radix type => ValidRadix radix ∧ SubKeyAligned (brefClass type) subKey radix
  | .dedupHit r _ => r.WellFormed
  | .snapshot sbase sstop => sbase % freemapLevel1Size = 0 ∧
      (sstop % freemapLevel1Size = 0 ∨ sstop = hmp.totalSize)
  | _ => True

instance : ∀ a : BfAct, Decidable (a.Valid hmp)
  | .alloc .. => inferInstanceAs (Decidable (_ ∧ _))
  | .dedupHit r _ => inferInstanceAs (Decidable r.WellFormed)
  | .release _ | .dedupDrop .. | .merge .. | .passEnd => inferInstanceAs (Decidable True)
  | .snapshot .. => inferInstanceAs (Decidable (_ ∧ (_ ∨ _)))

/-- The step relation. -/
def bfStep (s : BfState) (a : BfAct) (t : BfState) : Prop := a.Valid hmp ∧ bfNext hmp s a = some t

end

end Hammer2
