import Hammer2.Lib.Deferral
import Hammer2.Bulkfree.Safety

/-!
# The recovery scan

After a mount `hammer2_recovery` walks the topology from the volume header down, below every
blockref whose `mirror_tid` is past the header's `freemap_tid`, and hands what it finds to
`freemapAdjust`. Ten levels down it puts the chain on a list instead of going deeper, and the list
is worked off from depth zero. The scan is an instance of the walk of `Deferral`
(`recoveryScan_eq`): it ends, and it adjusts every blockref at the end of a path of newer blockrefs
(`recovery_adjusts`).

The freemap is seen here segment by segment; `segBmap_freemapAdjust` relates that view to the
leaves.

Reference: `hammer2_vfsops.c:1954-2137`, `hammer2_chain.c:2712-2905`.
-/

namespace Hammer2

open Deferral

/-! ## Blockrefs of the topology -/

/-- What recovery reads of a blockref: the type, the segment and the range of `data_off` (`none` for
a `data_off` of 0), and `mirror_tid`. `direct` is `HAMMER2_OPFLAG_DIRECTDATA` of the inode it leads
to. -/
structure TopoRef where
  type : BrefType
  storage : Option (Nat × Extent)
  mirrorTid : Nat
  direct : Bool
  deriving DecidableEq, Repr

/-- The blockref as the freemap sees it. -/
def TopoRef.ref? (b : TopoRef) : Option Ref := b.storage.map fun s => ⟨s.1, s.2, b.type⟩

/-- The types below which `recoveryScan` goes: all others return early. -/
def TopoRef.scans (b : TopoRef) : Bool :=
  match b.type with
  | .volume | .indirect => true
  | .inode => !b.direct
  | _ => false

/-- The types for which `hammer2_chain_scan` returns no chain. -/
def TopoRef.isLeaf (b : TopoRef) : Bool :=
  match b.type with
  | .inode | .freemapNode | .indirect | .volume | .freemap => false
  | _ => true

/-- `HAMMER2_RECOVERY_MAXDEPTH`. -/
def recoveryMaxdepth : Nat := 10

/-- What a scan does: the blockrefs it hands to `freemapAdjust`, in order, and the elements it
appends to `info->list`. -/
structure RecoveryScan where
  adjusted : List TopoRef
  list : List (Rose TopoRef)

/-- One scan and then another. -/
def RecoveryScan.append (s t : RecoveryScan) : RecoveryScan :=
  ⟨s.adjusted ++ t.adjusted, s.list ++ t.list⟩

section
variable (syncTid : Nat)

mutual
/-- `hammer2_recovery_scan` of the chain with the blockref `bref` and the block table `table`. -/
def recoveryScan : Nat → Rose TopoRef → RecoveryScan
  | depth, .node bref table =>
    let adjusted := if bref.type = .volume then [] else [bref]
    if bref.scans then
      if recoveryMaxdepth ≤ depth then ⟨adjusted, [.node bref table]⟩
      else RecoveryScan.append ⟨adjusted, []⟩ (recoveryScanTable depth table)
    else ⟨adjusted, []⟩
/-- The loop of `hammer2_recovery_scan` over a block table. -/
def recoveryScanTable : Nat → List (Rose TopoRef) → RecoveryScan
  | _, [] => ⟨[], []⟩
  | depth, t :: ts =>
    RecoveryScan.append
      (if syncTid < t.label.mirrorTid then
        if t.label.isLeaf then ⟨[t.label], []⟩ else recoveryScan (depth + 1) t
      else ⟨[], []⟩)
      (recoveryScanTable depth ts)
end

/-- The loop of `hammer2_recovery` over the list, at most `fuel` times. -/
def recoveryLoop : Nat → List (Rose TopoRef) → Option (List TopoRef)
  | _, [] => some []
  | 0, _ :: _ => none
  | fuel + 1, t :: ts =>
    let s := recoveryScan syncTid 0 t
    (recoveryLoop fuel (ts ++ s.list)).map (s.adjusted ++ ·)

end

/-- The blockref of `vchain`. -/
def vchainRef : TopoRef := ⟨.volume, none, 0, false⟩

/-- `hammer2_recovery` on the topology root of a volume header: the blockrefs it adjusts. -/
def recovery (syncTid fuel : Nat) (sroot : List (Rose TopoRef)) : Option (List TopoRef) :=
  let s := recoveryScan syncTid 0 (.node vchainRef sroot)
  (recoveryLoop syncTid fuel s.list).map (s.adjusted ++ ·)

/-! ## The scan as a walk -/

/-- The test of `recoveryScan` on a child. -/
def newer (syncTid : Nat) (b : TopoRef) : Bool := syncTid < b.mirrorTid

/-- All but the volume root are adjusted. -/
def recoveryAdjusted (visited : List TopoRef) : List TopoRef := visited.filter (·.type ≠ .volume)

section
variable {syncTid : Nat}

/-- A leaf is not scanned. -/
theorem scans_of_isLeaf {b : TopoRef} (h : b.isLeaf = true) :
    b.scans = false ∧ b.type ≠ .volume := by
  unfold TopoRef.isLeaf at h
  unfold TopoRef.scans
  cases hb : b.type <;> simp_all

theorem recoveryAdjusted_singleton (b : TopoRef) :
    recoveryAdjusted [b] = if b.type = .volume then [] else [b] := by
  unfold recoveryAdjusted
  by_cases h : b.type = .volume
  · simp [h]
  · simp [h]

theorem recoveryAdjusted_append (xs ys : List TopoRef) :
    recoveryAdjusted (xs ++ ys) = recoveryAdjusted xs ++ recoveryAdjusted ys :=
  List.filter_append xs ys

mutual
/-- The scan is the walk that keeps the newer blockrefs. -/
theorem recoveryScan_eq : ∀ (depth : Nat) (t : Rose TopoRef),
    recoveryScan syncTid depth t =
      ⟨recoveryAdjusted (walk TopoRef.scans (newer syncTid) recoveryMaxdepth depth t).visited,
        (walk TopoRef.scans (newer syncTid) recoveryMaxdepth depth t).deferred⟩
  | depth, .node bref table => by
    have ih := recoveryScanTable_eq depth table
    rw [recoveryScan, walk]
    split
    · split
      · rw [recoveryAdjusted_singleton]
      · simp only [ih, RecoveryScan.append, Walk.append, recoveryAdjusted_append,
          recoveryAdjusted_singleton]
    · rw [recoveryAdjusted_singleton]
/-- The loop over a block table is the walk of the children. -/
theorem recoveryScanTable_eq : ∀ (depth : Nat) (ts : List (Rose TopoRef)),
    recoveryScanTable syncTid depth ts =
      ⟨recoveryAdjusted (walkAll TopoRef.scans (newer syncTid) recoveryMaxdepth depth ts).visited,
        (walkAll TopoRef.scans (newer syncTid) recoveryMaxdepth depth ts).deferred⟩
  | _, [] => rfl
  | depth, t :: ts => by
    have iht := recoveryScan_eq (depth + 1) t
    have ihs := recoveryScanTable_eq depth ts
    simp only [recoveryScanTable, walkAll, ihs, Walk.append, RecoveryScan.append,
      recoveryAdjusted_append]
    by_cases hk : syncTid < t.label.mirrorTid
    · rw [if_pos hk, if_pos (show newer syncTid t.label = true from decide_eq_true hk)]
      by_cases hl : t.label.isLeaf = true
      · -- A leaf is adjusted without a chain, which is what the scan of its chain would do.
        obtain ⟨hs, hv⟩ := scans_of_isLeaf hl
        rw [if_pos hl]
        cases t with
        | node b us =>
          rw [Rose.label_node] at hs hv
          simp [walk, hs, recoveryAdjusted_singleton, hv]
      · rw [if_neg hl, iht]
    · rw [if_neg hk, if_neg (show ¬ newer syncTid t.label = true from fun h =>
        hk (of_decide_eq_true h))]
      rfl
end

/-- The loop is a drain of deferred trees. -/
theorem recoveryLoop_eq : ∀ (fuel : Nat) (ts : List (Rose TopoRef)),
    recoveryLoop syncTid fuel ts =
      (drain TopoRef.scans (newer syncTid) recoveryMaxdepth fuel ts).map recoveryAdjusted
  | _, [] => by rw [recoveryLoop, drain]; rfl
  | 0, _ :: _ => rfl
  | fuel + 1, t :: ts => by
    rw [recoveryLoop, drain, recoveryScan_eq, recoveryLoop_eq fuel, Option.map_map, Option.map_map]
    congr 1
    funext xs
    exact (recoveryAdjusted_append _ xs).symm

/-! ## What recovery adjusts -/

/-- **The scan ends**: one round for each blockref of the topology is enough, and more rounds change
nothing. -/
theorem recovery_terminates (sroot : List (Rose TopoRef)) :
    ∃ adjusted, ∀ fuel, Rose.sizeAll sroot ≤ fuel →
      recovery syncTid fuel sroot = some adjusted := by
  have hlim : 0 < recoveryMaxdepth := by decide
  have hlt := @sizeAll_walk_lt _ TopoRef.scans (newer syncTid) recoveryMaxdepth 0 hlim
    (.node vchainRef sroot)
  rw [Rose.size] at hlt
  have hsome := @drain_isSome _ TopoRef.scans (newer syncTid) recoveryMaxdepth hlim
    (Rose.sizeAll sroot) _ (Nat.le_of_lt_succ hlt)
  obtain ⟨xs, hxs⟩ := Option.isSome_iff_exists.1 hsome
  refine ⟨recoveryAdjusted (walk TopoRef.scans (newer syncTid) recoveryMaxdepth 0
    (.node vchainRef sroot)).visited ++ recoveryAdjusted xs, fun fuel hfuel => ?_⟩
  rw [recovery, recoveryScan_eq, recoveryLoop_eq, drain_mono hfuel hxs]
  rfl

variable {sroot : List (Rose TopoRef)} {adjusted : List TopoRef} {fuel : Nat}

/-- A result of recovery does not depend on the rounds allowed. -/
theorem recovery_mono {fuel' : Nat} (hle : fuel ≤ fuel')
    (h : recovery syncTid fuel sroot = some adjusted) :
    recovery syncTid fuel' sroot = some adjusted := by
  rw [recovery, recoveryLoop_eq, Option.map_map, Option.map_eq_some_iff] at h ⊢
  obtain ⟨xs, hxs, rfl⟩ := h
  exact ⟨xs, drain_mono hle hxs, rfl⟩

/-- **Recovery adjusts what the freemap may miss**: every blockref at the end of a path of blockrefs
newer than the freemap, at any depth. -/
theorem recovery_adjusts {p : List TopoRef} {x : TopoRef}
    (h : recovery syncTid fuel sroot = some adjusted) (hp : Path TopoRef.scans sroot p x)
    (hnew : ∀ y ∈ p, syncTid < y.mirrorTid) (hx : x.type ≠ .volume) : x ∈ adjusted := by
  have hlim : 0 < recoveryMaxdepth := by decide
  rw [recovery, recoveryScan_eq, recoveryLoop_eq, Option.map_map, Option.map_eq_some_iff] at h
  obtain ⟨xs, hxs, rfl⟩ := h
  have hfilter : ∀ {ys : List TopoRef}, x ∈ ys → x ∈ recoveryAdjusted ys := fun hy =>
    List.mem_filter.2 ⟨hy, decide_eq_true hx⟩
  have hk : ∀ y ∈ p, newer syncTid y = true := fun y hy => decide_eq_true (hnew y hy)
  rcases mem_walk (t := .node vchainRef sroot) hlim rfl hp hk with hv | hv
  · exact List.mem_append_left _ (hfilter hv)
  · exact List.mem_append_right _ (hfilter (mem_of_drain hlim hxs hv))

/-- Recovery adjusts only blockrefs of the topology. -/
theorem recovery_subset (h : recovery syncTid fuel sroot = some adjusted) :
    adjusted ⊆ reachAll TopoRef.scans sroot := by
  rw [recovery, recoveryScan_eq, recoveryLoop_eq, Option.map_map, Option.map_eq_some_iff] at h
  obtain ⟨xs, hxs, rfl⟩ := h
  have hw := @walk_within _ TopoRef.scans (newer syncTid) recoveryMaxdepth 0 (.node vchainRef sroot)
  have hdrain := drain_subset hw.deferred hxs
  have hfilter : ∀ {ys : List TopoRef}, ys ⊆ reach TopoRef.scans (.node vchainRef sroot) →
      recoveryAdjusted ys ⊆ reachAll TopoRef.scans sroot := by
    intro ys hys x hx
    obtain ⟨hx, hv⟩ := List.mem_filter.1 hx
    rcases List.mem_cons.1 (hys hx) with rfl | hx
    · exact absurd rfl (of_decide_eq_true hv)
    · exact hx
  exact List.append_subset.2 ⟨hfilter hw.visited, hfilter hdrain⟩

end

/-! ## The freemap, segment by segment -/

/-- The bmap of a segment in a freemap whose missing leaves are yet to be initialised. -/
def segBmap (hmp : FreemapDev) (leaf : Nat → Option FreemapLeaf) (seg : Nat) : Bmap :=
  ((leaf (seg / 256)).getD (freemapInit hmp (seg / 256 * freemapLevel1Size))).bmap (seg % 256)

section
variable {hmp : FreemapDev} {r : Ref}

/-- An adjustment changes the bmap of its segment. -/
theorem segBmap_freemapAdjust (hwf : r.WellFormed) (leaf : Nat → Option FreemapLeaf) :
    segBmap hmp (Function.update leaf (r.seg / 256)
        (freemapAdjust .ok hmp r.bref (leaf (r.seg / 256))).leaf) =
      Function.update (segBmap hmp leaf) r.seg (adjustSegment hmp r true
        (segBmap hmp leaf r.seg)) := by
  rcases Nat.lt_or_ge r.bref.off hmp.allocatorBeg with hlow | hge
  · simp only [freemapAdjust, adjustSegment, if_pos hlow, if_pos (Or.inl hlow),
      Function.update_eq_self]
  obtain ⟨hoff, hrad⟩ := hwf.off
  have hlt := hwf.offset_lt
  have hidx : adjustBmapIndex r.bref.off = r.seg % 256 := by
    rw [hoff]
    simp only [adjustBmapIndex, freemapLevel0Radix, freemapCount, segSize, Nat.reducePow] at *
    omega
  have hbase : h2fmBase r.bref.off freemapLevel1Radix = r.seg / 256 * freemapLevel1Size := by
    rw [hoff]
    simp only [h2fmBase, rounddown2, freemapLevel1Radix, freemapLevel1Size, segSize,
      Nat.reducePow] at *
    omega
  rw [leaf_freemapAdjust_ok hge, hidx, hbase]
  funext g
  by_cases hg : g = r.seg
  · subst hg
    rw [Function.update_self, segBmap, Function.update_self, Option.getD_some,
      FreemapLeaf.bmap_setBmap (Nat.mod_lt _ (by decide)), if_pos rfl, adjustSegment,
      if_neg (by simp only [not_or]; exact ⟨by omega, by decide⟩), adjustLeaf, hidx]
    rfl
  · rw [Function.update_of_ne hg]
    by_cases hl : g / 256 = r.seg / 256
    · rw [segBmap, hl, Function.update_self, Option.getD_some,
        FreemapLeaf.bmap_setBmap (Nat.mod_lt _ (by decide)), if_neg (by omega), segBmap, hl]
    · rw [segBmap, Function.update_of_ne hl, segBmap]

end

end Hammer2
