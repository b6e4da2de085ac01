import Hammer2.Freemap.Segment
import Hammer2.Bulkfree.Callback

/-!
# Three computations of a block's position

The allocator, the bulkfree scan and `freemapAdjust` each compute from an offset the bmap, the
bitmap element and the bit index of its 16KB block. The first two agree on every block of a segment.
`freemapAdjust` masks the block's index with 15 where an element holds 32 blocks, so it agrees with
them, and marks the blocks it was handed, exactly for the blocks of the lower half of an element.

Reference: `hammer2_freemap.c:588-677`, `hammer2_freemap.c:965`, `hammer2_bulkfree.c:750-804`.
-/

namespace Hammer2

/-- The 16KB block number `n` of the device holds a byte of `[off, off + 2 ^ radix)`. -/
def BlockCovered (off radix n : Nat) : Prop := ∃ x, off ≤ x ∧ x < off + 2 ^ radix ∧ x / 16384 = n

/-- The element and the bit index the allocator chooses. -/
def allocIndex (b : Bmap) (cls : BitVec 16) (subKey : BitVec 32) (radix : Nat) :
    Option (Nat × Nat) :=
  (bmapPlace b cls subKey radix).map fun p => (p.i, p.j)

/-- An adjustment marks exactly the blocks of its blockref, in every leaf: a leaf that has to be
created is compared with the one `freemapInit` gives. -/
def AdjustExact (hmp : FreemapDev) (bref : Blockref) : Prop :=
  ∀ leaf : Option FreemapLeaf, ∃ leaf', (freemapAdjust .ok hmp bref leaf).leaf = some leaf' ∧
    ∀ s < 256, ∀ k < 256,
      let n := h2fmBase bref.off freemapLevel1Radix / 16384 + 256 * s + k
      (BlockCovered bref.off bref.radix n → (leaf'.bmap s).pair k = 3#2) ∧
      (¬ BlockCovered bref.off bref.radix n → (leaf'.bmap s).pair k =
        ((leaf.getD (freemapInit hmp (h2fmBase bref.off freemapLevel1Radix))).bmap s).pair k)

/-- The position `freemapAdjust` computes is the allocator's and, in every storage range a bulkfree
pass gathers, the scan's. -/
def PositionsAgree (b : Bmap) (cls : BitVec 16) (subKey : BitVec 32) (radix : Nat) (off : Nat) :
    Prop :=
  allocIndex b cls subKey radix = some (adjustElement off, adjustStart off) ∧
  ∀ sbase, sbase % freemapLevel1Size = 0 → sbase ≤ off →
    (off - sbase) / 2 ^ freemapLevel0Radix % freemapCount = adjustBmapIndex off ∧
    callbackElement ((off - sbase) % freemapLevel0Size) = adjustElement off ∧
    callbackStart ((off - sbase) % freemapLevel0Size) = adjustStart off

section
variable {b : Bmap} {cls : BitVec 16} {subKey : BitVec 32} {radix : Nat} {r : AllocResult}

/-- The allocator's position is read off the offset it returns. -/
theorem allocIndex_eq (hr : ValidRadix radix) (hal : SubKeyAligned cls subKey radix)
    (h : bmapAlloc b cls subKey radix = some r) :
    allocIndex b cls subKey radix = some (r.offset / 524288, 2 * (r.offset / 16384 % 32)) := by
  unfold bmapAlloc at h
  rw [Option.map_eq_some_iff] at h
  obtain ⟨p, hp, rfl⟩ := h
  rw [allocIndex, hp, Option.map_some]
  rcases bmapPlace_cases hr hal hp with ⟨hl, rfl⟩ | ⟨a, hrun⟩
  · unfold linearUsable at hl
    simp only [Bool.and_eq_true, decide_eq_true_eq] at hl
    have hj : (linearPlace b radix).j = 2 * (b.linear / 16384 % 32) := linear_shift hl.2
    rw [hj]
    rfl
  · have hoff : (bmapCommit b cls radix p).offset = (32 * p.i + a) * 16384 := hrun.offset
    have hfit := hrun.fits
    have hpos : 1 ≤ blocks radix := by rcases blocks_cases hr with h | h | h <;> omega
    rw [hoff, hrun.index, show (32 * p.i + a) * 16384 / 524288 = p.i by omega,
      show (32 * p.i + a) * 16384 / 16384 % 32 = a by omega]

/-- The offset returned from a map whose iterator is a multiple of the smallest allocation is one,
too. -/
theorem AllocStep.offset_kb (h : AllocStep b radix r) (hkb : b.linear % allocMin = 0) :
    r.offset % 1024 = 0 := by
  cases h with
  | linear hfrag hunal hfit hseg hoff hlin hpair hbg => rw [hoff]; exact hkb
  | block s hal hs hfree hoff hlin hpair hbg => rw [hoff]; omega

/-- An open segment lies past the static allocation area. -/
theorem allocatorBeg_le_of_open {hmp : FreemapDev} {base : Nat}
    (h : freemapReserved hmp (h2fmBase base freemapLevel1Radix) base = false) :
    hmp.allocatorBeg ≤ base := by
  unfold freemapReserved freemapLokey roundup2 segSize at h
  simp only [Bool.or_eq_false_iff, decide_eq_false_iff_not] at h
  omega

/-- A leaf with every block free. -/
def freeLeaf : FreemapLeaf where
  bmdata := Vector.replicate 256 Bmap.initFree
  avail := freemapLevel1Size

theorem bmap_freeLeaf (i : Nat) : freeLeaf.bmap i = Bmap.initFree := by
  rw [FreemapLeaf.bmap, freeLeaf, Vector.getElem?_replicate]
  split <;> rfl

end

/-! ## The blockref of an allocation -/

section
variable {hmp : FreemapDev} {off radix : Nat} {type : BrefType}

/-- The radix sits in the low bits of an aligned offset. -/
theorem bref_off_radix (hr : ValidRadix radix) (hoff : off % 1024 = 0) :
    (Blockref.mk (off + radix) type).off = off ∧
    (Blockref.mk (off + radix) type).radix = radix := by
  have := hr.2
  unfold radixMax at this
  simp only [Blockref.off, Blockref.radix]
  omega

/-- An adjustment covers the blocks of the extent. -/
theorem adjustCount_eq (hr : ValidRadix radix) : adjustCount radix = blocks radix := by
  obtain rfl | rfl | rfl | rfl | rfl | rfl | rfl := hr.cases <;> rfl

/-- Without errors the leaf is the old or the new one with one bmap adjusted. -/
theorem leaf_freemapAdjust_ok {bref : Blockref} (h : hmp.allocatorBeg ≤ bref.off)
    (leaf : Option FreemapLeaf) :
    (freemapAdjust .ok hmp bref leaf).leaf =
      let l := leaf.getD (freemapInit hmp (h2fmBase bref.off freemapLevel1Radix))
      some (l.setBmap (adjustBmapIndex bref.off) (adjustLeaf bref l).bmap) := by
  unfold freemapAdjust
  rw [if_neg (Nat.not_lt.2 h)]
  cases leaf with
  | none | some l => simp [AdjustIo.ok, freemapAdjust.go]

/-- The blocks of a well-placed range are a run from the block of its offset on. -/
theorem blockCovered_iff (hr : ValidRadix radix) {o : Nat}
    (hwp : Extent.WellPlaced ⟨o, radix⟩) {base n : Nat} (hbase : base % 16384 = 0) :
    BlockCovered (base + o) radix n ↔
      (base + o) / 16384 ≤ n ∧ n < (base + o) / 16384 + blocks radix := by
  unfold BlockCovered
  by_cases hlt : radix < 14
  · have hsz := fragment_size hr hlt
    have hone : o % 16384 + 2 ^ radix ≤ 16384 := hwp.one_block hlt
    constructor
    · rintro ⟨x, h1, h2, rfl⟩
      omega
    · rintro ⟨h1, h2⟩
      exact ⟨base + o, le_refl _, by omega, by omega⟩
  · have hsz := block_size hr (Nat.le_of_not_lt hlt)
    obtain ⟨c, hc⟩ : 2 ^ radix ∣ o := hwp.aligned (Nat.le_of_not_lt hlt)
    have hal : o % 16384 = 0 := by
      rw [hc, hsz, Nat.mul_comm (blocks radix), Nat.mul_assoc]
      exact Nat.mul_mod_right _ _
    rw [hsz]
    constructor
    · rintro ⟨x, h1, h2, rfl⟩
      omega
    · rintro ⟨h1, h2⟩
      exact ⟨16384 * n, by omega, by omega, by omega⟩

/-- A run of blocks inside a segment, found in the leaf by the segment and the block in it. -/
theorem leaf_block_iff {base o m s k : Nat} (hbase : base % segSize = 0)
    (ho : o / 16384 + m ≤ 256) (hm : 1 ≤ m) (hs : s < 256) (hk : k < 256) :
    ((base + o) / 16384 ≤ h2fmBase (base + o) freemapLevel1Radix / 16384 + 256 * s + k ∧
        h2fmBase (base + o) freemapLevel1Radix / 16384 + 256 * s + k < (base + o) / 16384 + m) ↔
      s = adjustBmapIndex (base + o) ∧ o / 16384 ≤ k ∧ k < o / 16384 + m := by
  simp only [segSize, h2fmBase, rounddown2, adjustBmapIndex, freemapLevel1Radix,
    freemapLevel0Radix, freemapCount, Nat.reducePow] at *
  omega

/-- The first pair of an adjustment. -/
theorem adjustFirst_eq {base o : Nat} (hbase : base % segSize = 0) (ho : o < segSize) :
    adjustFirst (base + o) = 32 * (o / 524288) + o / 16384 % 16 := by
  simp only [segSize, adjustFirst, adjustElement, freemapLevel0Radix, Nat.reduceSub,
    Nat.reducePow] at *
  omega

/-- A run aligned to its length does not leave its half of an element. -/
theorem run_in_half (hr : ValidRadix radix) {o : Nat} (hwp : Extent.WellPlaced ⟨o, radix⟩) :
    o / 16384 % 16 + blocks radix ≤ 16 := by
  by_cases hlt : radix < 14
  · have := (fragment_size hr hlt).1
    omega
  · have hsz := block_size hr (Nat.le_of_not_lt hlt)
    have hdvd : 2 ^ radix ∣ o := hwp.aligned (Nat.le_of_not_lt hlt)
    rw [hsz] at hdvd
    rcases blocks_cases hr with h | h | h <;> rw [h] at hdvd ⊢ <;> omega

variable {base o : Nat}

/-- In the lower half of an element the adjustment marks the blocks it was handed, in the upper half
it marks none of them. -/
theorem adjustExact_iff (hr : ValidRadix radix) (hwp : Extent.WellPlaced ⟨o, radix⟩)
    (hbase : base % segSize = 0) (hkb : o % 1024 = 0) (hbeg : hmp.allocatorBeg ≤ base) :
    AdjustExact hmp ⟨base + o + radix, type⟩ ↔ o / 16384 % 32 < 16 := by
  have hb1024 : (base + o) % 1024 = 0 := by unfold segSize at hbase; omega
  obtain ⟨hboff, hbrad⟩ := @bref_off_radix (base + o) radix type hr hb1024
  have hseg : o + 2 ^ radix ≤ segSize := hwp.in_segment
  have hpow : 0 < 2 ^ radix := Nat.two_pow_pos radix
  have hblk : 1 ≤ blocks radix := by rcases blocks_cases hr with h | h | h <;> omega
  have hhalf := run_in_half hr hwp
  have hfirst := adjustFirst_eq hbase (show o < segSize by omega)
  have hend : o / 16384 + blocks radix ≤ 256 := by unfold segSize at hseg; omega
  have hidx : adjustBmapIndex (base + o) < 256 := Nat.mod_lt _ (by decide)
  have hleaf : ∀ leaf, (freemapAdjust .ok hmp ⟨base + o + radix, type⟩ leaf).leaf = _ :=
    leaf_freemapAdjust_ok (by rw [hboff]; omega)
  simp only [hboff] at hleaf
  -- The pairs after the adjustment, at the block it really marks.
  have hpair : ∀ (l : FreemapLeaf) (s k : Nat), ((l.setBmap (adjustBmapIndex (base + o))
      (adjustLeaf ⟨base + o + radix, type⟩ l).bmap).bmap s).pair k =
      if s = adjustBmapIndex (base + o) ∧ adjustFirst (base + o) ≤ k ∧
        k < adjustFirst (base + o) + blocks radix then 3#2 else (l.bmap s).pair k := by
    intro l s k
    rw [FreemapLeaf.bmap_setBmap hidx]
    by_cases hs : s = adjustBmapIndex (base + o)
    · subst hs
      rw [if_pos rfl, adjustLeaf, pair_adjustBmap (by rw [hbrad]; exact hr.2), hboff, hbrad,
        adjustCount_eq hr]
      exact if_congr (by simp) rfl rfl
    · rw [if_neg hs, if_neg (fun h => hs h.1)]
  have hcov : ∀ s < 256, ∀ k < 256, BlockCovered (base + o) radix
      (h2fmBase (base + o) freemapLevel1Radix / 16384 + 256 * s + k) ↔
      s = adjustBmapIndex (base + o) ∧ o / 16384 ≤ k ∧ k < o / 16384 + blocks radix := by
    intro s hs k hk
    rw [blockCovered_iff hr hwp (by unfold segSize at hbase; omega),
      leaf_block_iff hbase hend hblk hs hk]
  constructor
  · intro hex
    by_contra hge
    obtain ⟨leaf', hl, hall⟩ := hex (some freeLeaf)
    rw [hleaf] at hl
    obtain rfl := Option.some.inj hl
    have hk : o / 16384 < 256 := by omega
    have hc := (hall _ hidx _ hk).1
    rw [hboff, hbrad] at hc
    have h3 := hc ((hcov _ hidx _ hk).2 ⟨rfl, le_refl _, by omega⟩)
    simp only [Option.getD_some] at h3
    rw [hpair, if_neg (fun h => by omega), bmap_freeLeaf, Bmap.pair_initFree hk] at h3
    exact absurd h3 (by decide)
  · intro hlt leaf
    refine ⟨_, hleaf leaf, fun s hs k hk => ?_⟩
    have hfo : adjustFirst (base + o) = o / 16384 := by omega
    simp only [hboff, hbrad, hpair, hfo, hcov s hs k hk]
    exact ⟨fun h => if_pos h, fun h => if_neg h⟩

/-- The scan's and `freemapAdjust`'s positions, from the offset in the segment. -/
theorem callback_position {sbase : Nat} (hbase : base % segSize = 0) (ho : o < segSize)
    (hsb : sbase % freemapLevel1Size = 0) (hle : sbase ≤ base + o) :
    (base + o - sbase) / 2 ^ freemapLevel0Radix % freemapCount = adjustBmapIndex (base + o) ∧
      callbackElement ((base + o - sbase) % freemapLevel0Size) = o / 524288 ∧
      callbackStart ((base + o - sbase) % freemapLevel0Size) = 2 * (o / 16384 % 32) := by
  rw [callbackElement_eq, callbackStart_eq]
  simp only [segSize, adjustBmapIndex, freemapLevel0Radix, freemapLevel0Size, freemapLevel1Size,
    freemapCount, Nat.reducePow] at *
  omega

/-- The element and the bit of an adjustment. -/
theorem adjust_position (hbase : base % segSize = 0) (ho : o < segSize) :
    adjustElement (base + o) = o / 524288 ∧ adjustStart (base + o) = 2 * (o / 16384 % 16) := by
  simp only [segSize, adjustElement, adjustStart, freemapLevel0Radix, freemapBlockRadix,
    Nat.reduceSub, Nat.reducePow] at *
  omega

end

/-- **Recovery marks the bits the allocator marked exactly in the lower half of each element**: for
every offset an open segment's allocator can return, the adjustment of its blockref is exact, and
its position is that of the allocator and of the scan, if and only if the block's index in its
bitmap element is below 16. -/
theorem freemapAdjust_exact_iff (hmp : FreemapDev) (b : Bmap) (cls : BitVec 16)
    (subKey : BitVec 32) (radix base : Nat) (type : BrefType) (r : AllocResult)
    (hr : ValidRadix radix) (hal : SubKeyAligned cls subKey radix)
    (hkb : b.linear % allocMin = 0) (hbase : base % segSize = 0)
    (hopen : freemapReserved hmp (h2fmBase base freemapLevel1Radix) base = false)
    (h : bmapAlloc b cls subKey radix = some r) :
    (AdjustExact hmp ⟨base + r.offset + radix, type⟩ ↔ r.offset / 16384 % 32 < 16) ∧
    (PositionsAgree b cls subKey radix (base + r.offset) ↔ r.offset / 16384 % 32 < 16) := by
  have hstep := bmapAlloc_step hr hal h
  have hwp := hstep.wellPlaced hr
  have hpow : 0 < 2 ^ radix := Nat.two_pow_pos radix
  have ho : r.offset < segSize := by
    have : r.offset + 2 ^ radix ≤ segSize := hwp.in_segment
    omega
  refine ⟨adjustExact_iff hr hwp hbase (hstep.offset_kb hkb) (allocatorBeg_le_of_open hopen), ?_⟩
  unfold PositionsAgree
  obtain ⟨hel, hst⟩ := adjust_position hbase ho
  rw [allocIndex_eq hr hal h, hel, hst]
  simp only [Option.some.injEq, Prod.mk.injEq, true_and]
  constructor
  · rintro ⟨hj, -⟩
    omega
  · intro hlt
    refine ⟨by omega, fun sbase hsb hle => ?_⟩
    obtain ⟨h1, h2, h3⟩ := callback_position hbase ho hsb hle
    exact ⟨h1, h2, by omega⟩

/-- A 16KB data block placed by its key at block 5 of the second segment of a 2GB volume. -/
theorem freemapAdjust_exact_iff_block_five :
    ∃ r, bmapAlloc Bmap.initFree 0x0310#16 0x14000#32 14 = some r ∧ r.offset = 81920 ∧
      (AdjustExact ⟨4194304, 2147483648⟩ ⟨4194304 + r.offset + 14, .data⟩ ↔
        r.offset / 16384 % 32 < 16) ∧
      (PositionsAgree Bmap.initFree 0x0310#16 0x14000#32 14 (4194304 + r.offset) ↔
        r.offset / 16384 % 32 < 16) := by
  have hmap : (bmapAlloc Bmap.initFree 0x0310#16 0x14000#32 14).map AllocResult.offset =
      some 81920 := by decide +kernel
  obtain ⟨r, hget, hoff⟩ := Option.map_eq_some_iff.1 hmap
  exact ⟨r, hget, hoff, freemapAdjust_exact_iff ⟨4194304, 2147483648⟩ Bmap.initFree
    0x0310#16 0x14000#32 14 4194304 .data _ (by decide) (by decide) (by decide) (by decide)
    (by decide) hget⟩

/-- The allocator places a 16KB data block at block 16 of the second segment; the adjustment of its
blockref leaves that block `00` and marks block 0 in its place. -/
theorem freemapAdjust_marks_other_block :
    let bref : Blockref := ⟨4194304 + 262144 + 14, .data⟩
    (bmapAlloc Bmap.initFree 0x0310#16 0x40000#32 14).map AllocResult.offset = some 262144 ∧
      (adjustBmap bref Bmap.initFree).bmap.pair 16 = 0#2 ∧
      (adjustBmap bref Bmap.initFree).bmap.pair 0 = 3#2 ∧
      ¬ AdjustExact ⟨4194304, 2147483648⟩ bref := by
  refine ⟨by decide +kernel, by decide +kernel, by decide +kernel, ?_⟩
  rw [adjustExact_iff (by decide) ⟨by decide, by decide, by decide⟩ (by decide) (by decide)
    (by decide)]
  decide

end Hammer2
