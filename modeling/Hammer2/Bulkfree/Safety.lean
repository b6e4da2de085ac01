import Hammer2.Bulkfree.System
import Hammer2.Freemap.Position

/-!
# Bulkfree never frees live storage

The invariant has two parts. Of a segment (`SegInv`): its live map covers the bytes that are
referenced or may still be shared through dedup, and a byte that may be shared lies in a block
marked `11`. Of a segment whose snapshot is still to be merged (`PassInv`): where the snapshot has
`00` and the live map has `10`, nothing of the block is referenced. Every step keeps both, except
that a merge keeps the first only when it does not move an iterator that stands on a block boundary.

Reference: `hammer2_bulkfree.c:842-1153`.
-/

namespace Hammer2

/-! ## The invariant of a segment -/

/-- What holds of the live map `b` of segment `seg`, given the referenced bytes `R` and the bytes
`D` with dedup bits. A segment closed to allocation stays as `freemapInit` left it. -/
structure SegInv (hmp : FreemapDev) (seg : Nat) (b : Bmap) (R D : Set Nat) : Prop where
  covers : b.Covers (R ∪ D)
  staged : ∀ x ∈ D, b.pair (x / 16384) = 3#2
  full : segReserved hmp (seg * segSize) → ∀ k < 256, b.pair k = 3#2
  no_linear : segReserved hmp (seg * segSize) → b.linear = segSize
  no_dedup : segReserved hmp (seg * segSize) → D = ∅

/-- What holds of a bmap the scan rebuilt. -/
structure Bmap.Scanned (m : Bmap) : Prop where
  stages : m.TwoStage
  linear_le : m.linear ≤ segSize
  linear_kb : m.linear % 1024 = 0
  linear_marked : m.linear % 16384 ≠ 0 → m.pair (m.linear / 16384) = 3#2

/-- What holds of the snapshot `m` of segment `seg` until it is merged into the live map `b`. -/
structure PassInv (hmp : FreemapDev) (seg : Nat) (b : Bmap) (R : Set Nat) (m : Bmap) : Prop where
  scanned : m.Scanned
  unreferenced : ∀ k < 256, m.pair k = 0#2 → b.pair k = 2#2 → ∀ x ∈ R, x / 16384 ≠ k
  full : segReserved hmp (seg * segSize) → ∀ k < 256, m.pair k = 3#2

section
variable {hmp : FreemapDev} {seg : Nat} {b c m : Bmap} {R R' D D' U U' : Set Nat}

theorem Bmap.Covers.mono (h : b.Covers U) (hsub : U' ⊆ U) : b.Covers U' where
  in_segment x hx := h.in_segment x (hsub hx)
  marked x hx := h.marked x (hsub hx)
  linear_le := h.linear_le
  linear_kb := h.linear_kb
  linear_marked := h.linear_marked
  tail_unused hu x hx := h.tail_unused hu x (hsub hx)

theorem SegInv.mono (h : SegInv hmp seg b R D) (hR : R' ⊆ R) (hD : D' ⊆ D) :
    SegInv hmp seg b R' D' where
  covers := h.covers.mono (Set.union_subset_union hR hD)
  staged x hx := h.staged x (hD hx)
  full := h.full
  no_linear := h.no_linear
  no_dedup hc := Set.subset_empty_iff.1 (h.no_dedup hc ▸ hD)

theorem PassInv.mono (h : PassInv hmp seg b R m) (hR : R' ⊆ R) : PassInv hmp seg b R' m where
  scanned := h.scanned
  unreferenced k hk h0 h2 x hx := h.unreferenced k hk h0 h2 x (hR hx)
  full := h.full

variable {x radix k off bytes : Nat} {r : AllocResult} {cls : BitVec 16} {e : Extent}

/-- Bytes of a covered set lie in blocks of the segment. -/
theorem Bmap.Covers.block_lt (h : b.Covers U) (hx : x ∈ U) : x / 16384 < 256 := by
  have := h.in_segment x hx
  simp only [segSize] at this
  omega

/-! ## Allocation -/

/-- An allocation sets a pair to `11` or keeps it. -/
theorem AllocStep.pair_cases (h : AllocStep b radix r) (hk : k < 256) :
    r.bmap.pair k = 3#2 ∨ r.bmap.pair k = b.pair k := by
  cases h with
  | linear hfrag hunal hfit hseg hoff hlin hpair hbg | block s hal hs hfree hoff hlin hpair hbg =>
    rw [hpair k hk]
    split
    · exact Or.inl rfl
    · exact Or.inr rfl

/-- A full segment with its iterator off allocates nothing. -/
theorem AllocStep.not_full (h : AllocStep b radix r) (hr : ValidRadix radix)
    (hlin : b.linear = segSize) : ∃ k < 256, b.pair k ≠ 3#2 := by
  cases h with
  | linear hfrag hunal hfit hseg hoff hl hpair hbg => omega
  | block s hal hs hfree hoff hl hpair hbg =>
    have hpos : 1 ≤ blocks radix := by rcases blocks_cases hr with h | h | h <;> omega
    refine ⟨s, by omega, ?_⟩
    rw [hfree s (le_refl _) (by omega)]
    decide

/-- An allocation keeps the invariant, with its block referenced and shared. -/
theorem SegInv.alloc (h : SegInv hmp seg b R D) (hstep : AllocStep b radix r)
    (hr : ValidRadix radix) :
    SegInv hmp seg r.bmap (R ∪ Extent.bytes ⟨r.offset, radix⟩)
      (D ∪ Extent.bytes ⟨r.offset, radix⟩) := by
  have hopen : ¬ segReserved hmp (seg * segSize) := by
    intro hc
    obtain ⟨k, hk, hne⟩ := hstep.not_full hr (h.no_linear hc)
    exact hne (h.full hc k hk)
  refine ⟨?_, ?_, fun hc => absurd hc hopen, fun hc => absurd hc hopen,
    fun hc => absurd hc hopen⟩
  · refine (hstep.covers hr h.covers).mono ?_
    rintro x ((hx | hx) | (hx | hx))
    · exact Or.inl (Or.inl hx)
    · exact Or.inr hx
    · exact Or.inl (Or.inr hx)
    · exact Or.inr hx
  · rintro x (hx | hx)
    · have hlt := h.covers.block_lt (Or.inr hx)
      rcases hstep.pair_cases hlt with h3 | hsame
      · exact h3
      · rw [hsame]; exact h.staged x hx
    · exact hstep.pair_new hr hx

/-- An allocation after the snapshot keeps the invariant of the pass. -/
theorem PassInv.alloc (h : PassInv hmp seg b R m) (hstep : AllocStep b radix r)
    (hr : ValidRadix radix) :
    PassInv hmp seg r.bmap (R ∪ Extent.bytes ⟨r.offset, radix⟩) m where
  scanned := h.scanned
  unreferenced k hk h0 h2 x hx := by
    rcases hx with hx | hx
    · rcases hstep.pair_cases hk with h3 | hsame
      · rw [h3] at h2; exact absurd h2 (by decide)
      · exact h.unreferenced k hk h0 (hsame ▸ h2) x hx
    · rintro rfl
      rw [hstep.pair_new hr hx] at h2
      exact absurd h2 (by decide)
  full := h.full

/-! ## Marking again -/

/-- A map that differs from `b` by blocks marked `11` and by an iterator reset to 0. -/
structure Remarked (b c : Bmap) : Prop where
  pair : ∀ k < 256, c.pair k = 3#2 ∨ c.pair k = b.pair k
  linear : c.linear = b.linear ∨ c.linear = 0

/-- Marking a block again keeps the invariant. -/
theorem SegInv.remark (h : SegInv hmp seg b R D) (hrm : Remarked b c)
    (hopen : ¬ segReserved hmp (seg * segSize)) (hR : R' ⊆ R ∪ D) : SegInv hmp seg c R' D := by
  have hU : R' ∪ D ⊆ R ∪ D := Set.union_subset hR Set.subset_union_right
  have hc := h.covers.mono hU
  have hne : ∀ k < 256, b.pair k ≠ 0#2 → c.pair k ≠ 0#2 := by
    intro k hk hb
    rcases hrm.pair k hk with h3 | hs
    · rw [h3]; decide
    · rw [hs]; exact hb
  refine ⟨⟨hc.in_segment, fun x hx => hne _ (hc.block_lt hx) (hc.marked x hx), ?_, ?_, ?_, ?_⟩, ?_,
    fun hcl => absurd hcl hopen, fun hcl => absurd hcl hopen, fun hcl => absurd hcl hopen⟩
  · rcases hrm.linear with hl | hl <;> rw [hl]
    · exact hc.linear_le
    · exact Nat.zero_le _
  · rcases hrm.linear with hl | hl <;> rw [hl]
    exact hc.linear_kb
  · intro hu
    rcases hrm.linear with hl | hl <;> rw [hl] at hu ⊢
    · have hle := hc.linear_le
      simp only [segSize] at hle
      exact hne _ (by omega) (hc.linear_marked hu)
    · exact absurd rfl hu
  · intro hu
    rcases hrm.linear with hl | hl <;> rw [hl] at hu ⊢
    · exact hc.tail_unused hu
    · exact absurd rfl hu
  · intro x hx
    rcases hrm.pair _ (h.covers.block_lt (Or.inr hx)) with h3 | hs
    · exact h3
    · rw [hs]; exact h.staged x hx

/-- Marking a block again keeps the invariant of the pass. -/
theorem PassInv.remark (h : PassInv hmp seg b R m) (hseg : SegInv hmp seg b R D)
    (hrm : Remarked b c) (hR : R' ⊆ R ∪ D) : PassInv hmp seg c R' m where
  scanned := h.scanned
  unreferenced k hk h0 h2 x hx := by
    have hb2 : b.pair k = 2#2 := by
      rcases hrm.pair k hk with h3 | hs
      · rw [h3] at h2; exact absurd h2 (by decide)
      · exact hs ▸ h2
    rcases hR hx with hx | hx
    · exact h.unreferenced k hk h0 hb2 x hx
    · -- A byte that may be shared lies in a block marked `11`.
      rintro rfl
      rw [hseg.staged x hx] at hb2
      exact absurd hb2 (by decide)
  full := h.full

/-- A dedup hit marks blocks `11` and may reset the iterator. -/
theorem remarked_adjustSegment {r : Ref} (hwf : r.WellFormed) {ok : Bool} :
    Remarked b (adjustSegment hmp r ok b) := by
  unfold adjustSegment
  split
  · exact ⟨fun k _ => Or.inr rfl, Or.inl rfl⟩
  · refine ⟨fun k _ => ?_, linear_adjustLoop _ _ _⟩
    have hkb : (r.seg * segSize + r.ext.offset) % 1024 = 0 := by
      have := hwf.kb
      simp only [segSize]
      omega
    have hrad : r.bref.radix ≤ 16 := by
      rw [Ref.bref, (bref_off_radix hwf.radix hkb).2]
      exact hwf.radix.2
    rw [pair_adjustBmap hrad]
    split
    · exact Or.inl rfl
    · exact Or.inr rfl

/-! ## Merging -/

/-- The condition of a merge: the branch that moves the iterator up inside its block is taken only
for an iterator that stands inside the block. -/
def MergeOk (live m : Bmap) : Prop :=
  (∃ i < 7, topElement (syncBitmap live m).live bmapElements = some i) →
    linadjust live.linear m.linear = true → live.linear % 16384 ≠ 0

instance : Decidable (MergeOk b m) := inferInstanceAs (Decidable ((∃ i < 7, _) → _ → _))

/-- The iterator after a merge stands on a block boundary, or it was moved up inside its block. -/
theorem syncAdjust_linear (hm : m.Scanned) :
    ((syncAdjust b m).live.linear % 16384 = 0 ∧ (syncAdjust b m).live.linear ≤ segSize) ∨
      ((∃ i < 7, topElement (syncBitmap b m).live bmapElements = some i) ∧
        linadjust b.linear m.linear = true ∧ (syncAdjust b m).live.linear = m.linear) := by
  have hlin := @linear_syncBitmap m b hm.stages
  rw [← hlin]
  simp only [syncAdjust, syncFinish]
  cases htop : topElement (syncBitmap b m).live bmapElements with
  | none => exact Or.inl ⟨rfl, Nat.zero_le _⟩
  | some i =>
    simp only
    split
    · next hi =>
      split
      · next hl => exact Or.inr ⟨⟨i, hi, rfl⟩, hl, rfl⟩
      · have hle := hm.linear_le
        simp only [roundup2, freemapBlockSize, segSize] at hle ⊢
        exact Or.inl (by omega)
    · exact Or.inl ⟨by norm_num [segSize], le_refl _⟩

/-- **A merge keeps the invariant of its segment** when it meets `MergeOk`. -/
theorem SegInv.merge (h : SegInv hmp seg b R D) (hp : PassInv hmp seg b R m)
    (hok : MergeOk b m) :
    SegInv hmp seg (syncAdjust b m).live R {x ∈ D | x / 16384 ∉ (syncAdjust b m).deleted} := by
  have hts := hp.scanned.stages
  have hpair : ∀ k < 256, (syncAdjust b m).live.pair k = syncPair (m.pair k) (b.pair k) :=
    fun k hk => pair_syncAdjust hts hk
  -- A shared byte keeps its bits only where the snapshot has `11`.
  have hD : ∀ x ∈ D, x / 16384 ∉ (syncAdjust b m).deleted → m.pair (x / 16384) = 3#2 := by
    intro x hx hnd
    have hlt := h.covers.block_lt (Or.inr hx)
    rcases hts _ hlt with h0 | h3
    · exact absurd ((mem_deleted_syncAdjust hts).2 ⟨hlt, h0, h.staged x hx⟩) hnd
    · exact h3
  have hcases := @syncAdjust_linear b m hp.scanned
  have hfin : (∀ k < 256, (syncAdjust b m).live.pair k = 3#2) →
      (syncAdjust b m).live.linear = segSize := linear_syncAdjust_full
  generalize syncAdjust b m = t at *
  have hsub : R ∪ {x ∈ D | x / 16384 ∉ t.deleted} ⊆ R ∪ D :=
    Set.union_subset_union_right R (Set.sep_subset _ _)
  have hmarked : ∀ x ∈ R ∪ {x ∈ D | x / 16384 ∉ t.deleted}, t.live.pair (x / 16384) ≠ 0#2 := by
    intro x hx
    have hlt := h.covers.block_lt (hsub hx)
    have hne := h.covers.marked x (hsub hx)
    rw [hpair _ hlt]
    rcases hx with hx | hx
    · unfold syncPair
      split
      · next h0 =>
        split
        · next h2 => exact absurd rfl (hp.unreferenced _ hlt h0 h2 x hx)
        · split
          · decide
          · exact hne
      · split
        · decide
        · exact hne
    · rw [hD x hx.1 hx.2]; simp [syncPair]
  have hfull : segReserved hmp (seg * segSize) → ∀ k < 256, t.live.pair k = 3#2 := by
    intro hc k hk
    rw [hpair k hk, hp.full hc k hk]; simp [syncPair]
  have hcov : t.live.Covers (R ∪ {x ∈ D | x / 16384 ∉ t.deleted}) := by
    have hin : ∀ x ∈ R ∪ {x ∈ D | x / 16384 ∉ t.deleted}, x < segSize :=
      fun x hx => h.covers.in_segment x (hsub hx)
    rcases hcases with ⟨hal, hle⟩ | ⟨htop, hadj, hl⟩
    · exact ⟨hin, hmarked, hle, by omega, fun hu => absurd hal hu, fun hu => absurd hal hu⟩
    · -- The iterator moved up inside its block, past the end of what is in use there.
      have hunal := hok htop hadj
      simp only [linadjust, freemapBlockSize, Bool.and_eq_true, decide_eq_true_eq,
        beq_iff_eq] at hadj
      have hmu : m.linear % 16384 ≠ 0 := by omega
      have hml := hp.scanned.linear_le
      refine ⟨hin, hmarked, by rw [hl]; exact hml, by rw [hl]; exact hp.scanned.linear_kb,
        fun _ => ?_, fun _ x hx hblk => ?_⟩
      · simp only [segSize] at hml
        rw [hl, hpair _ (by omega), hp.scanned.linear_marked hmu]
        simp [syncPair]
      · rw [hl] at hblk ⊢
        have := h.covers.tail_unused hunal x (hsub hx) (by omega)
        omega
  refine ⟨hcov, fun x hx => ?_, hfull, fun hc => hfin (hfull hc), fun hc => ?_⟩
  · rw [hpair _ (h.covers.block_lt (Or.inr hx.1)), hD x hx.1 hx.2]; simp [syncPair]
  · rw [Set.eq_empty_iff_forall_notMem]
    intro x hx
    have hxD := hx.1
    rw [h.no_dedup hc] at hxD
    exact hxD

/-! ## The scan -/

/-- The callback sets a pair to `11` or keeps it. -/
theorem callbackBmap_pair_cases (hseg : off + bytes ≤ segSize) :
    (callbackBmap cls off bytes m).pair k = 3#2 ∨
      (callbackBmap cls off bytes m).pair k = m.pair k := by
  rw [pair_callbackBmap hseg]
  split
  · exact Or.inl rfl
  · exact Or.inr rfl

/-- A callback clears no pair. -/
theorem callbackBmap_pair_mono (hseg : off + bytes ≤ segSize) (h3 : m.pair k = 3#2) :
    (callbackBmap cls off bytes m).pair k = 3#2 := by
  rcases callbackBmap_pair_cases hseg with h | h
  · exact h
  · rw [h, h3]

/-- The blocks of a blockref are marked after the callback. -/
theorem callbackBmap_marks (hr : ValidRadix e.radix) (hwp : e.WellPlaced) (hts : m.TwoStage)
    (hx : x ∈ e.bytes) :
    (callbackBmap cls e.offset (2 ^ e.radix) m).pair (x / 16384) = 3#2 := by
  have hseg := hwp.in_segment
  have hcov : e.offset / 16384 ≤ x / 16384 ∧
      x / 16384 < e.offset / 16384 + (2 ^ e.radix + 16383) / 16384 := by
    simp only [Extent.bytes, Set.mem_Ico] at hx
    have hblk := (@blockCovered_iff e.radix hr e.offset hwp 0 (x / 16384) rfl).1
      ⟨x, by omega, by omega, rfl⟩
    simp only [Nat.zero_add] at hblk
    refine ⟨hblk.1, ?_⟩
    by_cases hlt : e.radix < 14
    · have := fragment_size hr hlt
      omega
    · have := block_size hr (Nat.le_of_not_lt hlt)
      omega
  have hlt : x / 16384 < 256 := by
    simp only [Extent.bytes, Set.mem_Ico] at hx
    simp only [segSize] at hseg
    omega
  rw [pair_callbackBmap hseg]
  rcases hts _ hlt with h0 | h3
  · rw [if_pos ⟨hcov.1, hcov.2, h0⟩]
  · rw [h3, ite_self]

/-- The callback keeps what holds of a rebuilt map: the iterator it records stands inside a block
only when a fragment of that block was seen. -/
theorem Bmap.Scanned.callback (h : m.Scanned) (hr : ValidRadix e.radix) (hwp : e.WellPlaced)
    (hkb : e.offset % 1024 = 0) :
    (callbackBmap cls e.offset (2 ^ e.radix) m).Scanned := by
  have hseg := hwp.in_segment
  have hpos : 0 < 2 ^ e.radix := Nat.two_pow_pos _
  have hkeep : ∀ k, m.pair k = 3#2 →
      (callbackBmap cls e.offset (2 ^ e.radix) m).pair k = 3#2 :=
    fun k => callbackBmap_pair_mono hseg
  have hmark : ∀ x ∈ e.bytes,
      (callbackBmap cls e.offset (2 ^ e.radix) m).pair (x / 16384) = 3#2 :=
    fun x => callbackBmap_marks hr hwp h.stages
  have hstages : (callbackBmap cls e.offset (2 ^ e.radix) m).TwoStage := by
    intro k hk
    rcases callbackBmap_pair_cases hseg with h3 | hs
    · exact Or.inr h3
    · rw [hs]; exact h.stages k hk
  have hlin : (callbackBmap cls e.offset (2 ^ e.radix) m).linear = m.linear ∨
      (callbackBmap cls e.offset (2 ^ e.radix) m).linear = e.offset + 2 ^ e.radix := by
    rw [linear_callbackBmap, callbackLinear]
    split
    · split
      · exact Or.inr rfl
      · exact Or.inl rfl
    · split
      · exact Or.inr rfl
      · exact Or.inl rfl
  have hsz : 2 ^ e.radix % 1024 = 0 := by
    by_cases hlt : e.radix < 14
    · exact (fragment_size hr hlt).2.2.2
    · have := block_size hr (Nat.le_of_not_lt hlt)
      omega
  rcases hlin with hl | hl
  · exact ⟨hstages, by rw [hl]; exact h.linear_le, by rw [hl]; exact h.linear_kb,
      fun hu => by rw [hl] at hu ⊢; exact hkeep _ (h.linear_marked hu)⟩
  · refine ⟨hstages, by rw [hl]; exact hseg, by rw [hl]; omega, fun hu => ?_⟩
    rw [hl] at hu ⊢
    -- An end off a block boundary is the end of a fragment, in the fragment's own block.
    have hlt : e.radix < 14 := by
      by_contra hge
      have hsz := block_size hr (Nat.le_of_not_lt hge)
      obtain ⟨c, hc⟩ := hwp.aligned (Nat.le_of_not_lt hge)
      refine hu ?_
      rw [hc, hsz, show blocks e.radix * 16384 * c + blocks e.radix * 16384 =
        16384 * (blocks e.radix * c + blocks e.radix) by ring]
      exact Nat.mul_mod_right _ _
    have hone := hwp.one_block hlt
    have hm := hmark e.offset (by simp only [Extent.bytes, Set.mem_Ico]; omega)
    rwa [show (e.offset + 2 ^ e.radix) / 16384 = e.offset / 16384 by omega]

/-- An initial map of the scan. -/
theorem scanned_cbinfoBmapInit {key : Nat} : (cbinfoBmapInit hmp key).Scanned := by
  unfold cbinfoBmapInit
  split
  · exact ⟨fun k hk => Or.inr (Bmap.pair_initReserved hk), le_refl _, rfl, fun hu => absurd rfl hu⟩
  · exact ⟨fun k hk => Or.inl (Bmap.pair_initFree hk), Nat.zero_le _, rfl, fun hu => absurd rfl hu⟩

/-- A map with every block marked and the iterator off. -/
structure Bmap.Full (m : Bmap) : Prop where
  pair : ∀ k < 256, m.pair k = 3#2
  linear : m.linear = segSize

/-- A callback keeps a map of whole pairs one. -/
theorem Bmap.Full.callback (h : m.Full) (hseg : off + bytes ≤ segSize) :
    (callbackBmap cls off bytes m).Full where
  pair k hk := callbackBmap_pair_mono hseg (h.pair k hk)
  linear := by
    rw [linear_callbackBmap, callbackLinear, h.linear]
    split
    · rw [if_neg (by omega)]
    · rw [if_neg (by omega)]

/-- A map of whole pairs can come out of a scan. -/
theorem Bmap.Full.scanned (h : m.Full) : m.Scanned where
  stages k hk := Or.inr (h.pair k hk)
  linear_le := le_of_eq h.linear
  linear_kb := by rw [h.linear]; rfl
  linear_marked hu := by rw [h.linear] at hu; exact absurd rfl hu

/-- An open segment lies between the static allocation area and the end of the volume. -/
theorem open_bounds (h : segReserved hmp (seg * segSize) = false) :
    hmp.allocatorBeg ≤ seg * segSize ∧ seg * segSize + segSize ≤ hmp.totalSize := by
  unfold segReserved freemapLokey roundup2 rounddown2 segSize at h
  simp only [Bool.or_eq_false_iff, decide_eq_false_iff_not] at h
  simp only [segSize]
  omega

end

/-! ## The scan of a segment -/

/-- The storage range `[sbase, sstop)` of a pass, and a segment in it. -/
structure PassRange (hmp : FreemapDev) (sbase sstop seg : Nat) : Prop where
  base : sbase % freemapLevel1Size = 0
  stop : sstop % freemapLevel1Size = 0 ∨ sstop = hmp.totalSize
  low : sbase ≤ seg * segSize
  high : seg * segSize < sstop

section
variable {hmp : FreemapDev} {sbase sstop seg : Nat} {cb : BulkfreeInfo} {r : Ref}

/-- The offset and the radix of a blockref are those of its extent. -/
theorem Ref.WellFormed.off (h : r.WellFormed) :
    r.bref.off = r.seg * segSize + r.ext.offset ∧ r.bref.radix = r.ext.radix := by
  have hkb : (r.seg * segSize + r.ext.offset) % 1024 = 0 := by
    have := h.kb
    simp only [segSize]
    omega
  exact bref_off_radix h.radix hkb

theorem Ref.WellFormed.offset_lt (h : r.WellFormed) : r.ext.offset < segSize := by
  have := h.placed.in_segment
  have := Nat.two_pow_pos r.ext.radix
  omega

/-- The segment index and the offset in the segment, relative to the start of the pass. -/
theorem pass_relative {o : Nat} (hbase : sbase % freemapLevel1Size = 0) (ho : o < segSize)
    (hle : sbase ≤ seg * segSize + o) :
    (seg * segSize + o - sbase) / 2 ^ freemapLevel0Radix = seg - sbase / segSize ∧
      (seg * segSize + o - sbase) % freemapLevel0Size = o ∧ sbase / segSize ≤ seg := by
  simp only [freemapLevel1Size, segSize, freemapLevel0Radix, freemapLevel0Size,
    Nat.reducePow] at *
  omega

/-- A callback leaves a segment's bmap alone, or marks in it at the blockref's own offset, for no
more than the rest of the segment. -/
theorem bulkfreeCallback_cases (hwf : r.WellFormed) (hrange : PassRange hmp sbase sstop seg)
    (hb : cb.sbase = sbase) :
    (bulkfreeCallback cb r.bref).bmap (seg - sbase / segSize) = cb.bmap (seg - sbase / segSize) ∨
      r.seg = seg ∧ ∃ bytes, r.ext.offset + bytes ≤ segSize ∧
        (bulkfreeCallback cb r.bref).bmap (seg - sbase / segSize) =
          callbackBmap r.bref.cls r.ext.offset bytes (cb.bmap (seg - sbase / segSize)) := by
  rw [bmap_bulkfreeCallback]
  split
  · next h =>
    obtain ⟨hoff, -⟩ := hwf.off
    have hle : sbase ≤ r.seg * segSize + r.ext.offset := by
      rw [← hb, ← hoff]; exact h.1.1
    obtain ⟨hidx, hrel, hge⟩ := pass_relative hrange.base hwf.offset_lt hle
    have hseg : r.seg = seg := by
      have hi := h.2
      rw [hoff, hb, hidx] at hi
      have hlow := hrange.low
      unfold segSize at hi hge hlow
      omega
    refine Or.inr ⟨hseg, callbackBytes cb r.bref, ?_, ?_⟩
    · have hlt := hwf.offset_lt
      have : callbackBytes cb r.bref ≤ freemapLevel0Size - r.ext.offset := by
        rw [callbackBytes, hoff, hb, hrel]; exact min_le_right _ _
      have hsz : freemapLevel0Size = segSize := rfl
      omega
    · rw [hoff, hb, hrel]
  · exact Or.inl rfl

/-- In an open segment the blockref's whole range is handed to the bmap. -/
theorem bulkfreeCallback_open (hwf : r.WellFormed) (hrange : PassRange hmp sbase sstop seg)
    (hh : cb.hmp = hmp) (hb : cb.sbase = sbase) (hs : cb.sstop = sstop)
    (hopen : segReserved hmp (seg * segSize) = false) (hseg : r.seg = seg) :
    (bulkfreeCallback cb r.bref).bmap (seg - sbase / segSize) =
      callbackBmap r.bref.cls r.ext.offset (2 ^ r.ext.radix)
        (cb.bmap (seg - sbase / segSize)) := by
  obtain ⟨hoff, hrad⟩ := hwf.off
  have hlt := hwf.offset_lt
  have hin := hwf.placed.in_segment
  have hlow := hrange.low
  obtain ⟨hbeg, hend⟩ := open_bounds hopen
  have hstop : seg * segSize + segSize ≤ sstop := by
    rcases hrange.stop with h | h
    · have hhigh := hrange.high
      simp only [segSize, freemapLevel1Size] at *
      omega
    · rw [h]; exact hend
  rw [hseg] at hoff
  obtain ⟨hidx, hrel, -⟩ := pass_relative hrange.base hlt (show sbase ≤ seg * segSize + _ by omega)
  have hacc : cb.Accepts r.bref := by
    unfold BulkfreeInfo.Accepts
    rw [hoff, hh, hb, hs]
    omega
  have hbytes : callbackBytes cb r.bref = 2 ^ r.ext.radix := by
    have hsz : freemapLevel0Size = segSize := rfl
    rw [callbackBytes, hoff, hrad, hb, hs, hrel, hsz]
    omega
  rw [bmap_bulkfreeCallback, if_pos ⟨hacc, by rw [hoff, hb, hidx]⟩, hbytes, hoff, hb, hrel]

/-- What the scan has established of a segment's bmap after the blockrefs `rs`. -/
structure ScanInv (hmp : FreemapDev) (seg : Nat) (m : Bmap) (rs : List Ref) : Prop where
  scanned : m.Scanned
  full : segReserved hmp (seg * segSize) = true → m.Full
  marks : segReserved hmp (seg * segSize) = false → ∀ r ∈ rs, r.seg = seg → ∀ x ∈ r.ext.bytes,
    m.pair (x / 16384) = 3#2

/-- A callback adds its blockref to what the rebuilt map covers. -/
theorem ScanInv.callback {rs : List Ref} (hwf : r.WellFormed)
    (hrange : PassRange hmp sbase sstop seg) (hh : cb.hmp = hmp) (hb : cb.sbase = sbase)
    (hs : cb.sstop = sstop) (h : ScanInv hmp seg (cb.bmap (seg - sbase / segSize)) rs) :
    ScanInv hmp seg ((bulkfreeCallback cb r.bref).bmap (seg - sbase / segSize)) (r :: rs) := by
  by_cases hres : segReserved hmp (seg * segSize) = true
  · have hfull : ((bulkfreeCallback cb r.bref).bmap (seg - sbase / segSize)).Full := by
      rcases bulkfreeCallback_cases hwf hrange hb with heq | ⟨-, bytes, hle, heq⟩
      · rw [heq]; exact h.full hres
      · rw [heq]; exact (h.full hres).callback hle
    exact ⟨hfull.scanned, fun _ => hfull, fun hopen => absurd (hres.symm.trans hopen) (by decide)⟩
  · rw [Bool.not_eq_true] at hres
    refine ⟨?_, fun hc => absurd (hres.symm.trans hc) (by decide), fun _ => ?_⟩
    · rcases bulkfreeCallback_cases hwf hrange hb with heq | ⟨hseg, -⟩
      · rw [heq]; exact h.scanned
      · rw [bulkfreeCallback_open hwf hrange hh hb hs hres hseg]
        exact h.scanned.callback hwf.radix hwf.placed hwf.kb
    · intro q hq hqs x hx
      rcases List.mem_cons.1 hq with rfl | hq
      · rw [bulkfreeCallback_open hwf hrange hh hb hs hres hqs]
        exact callbackBmap_marks hwf.radix hwf.placed h.scanned.stages hx
      · have hold := h.marks hres q hq hqs x hx
        rcases bulkfreeCallback_cases hwf hrange hb with heq | ⟨-, bytes, hle, heq⟩
        · rw [heq]; exact hold
        · rw [heq]; exact callbackBmap_pair_mono hle hold

/-- The callbacks of a scan cover all the blockrefs given to them. -/
theorem ScanInv.fold (hrange : PassRange hmp sbase sstop seg) :
    ∀ (rs : List Ref) (cb : BulkfreeInfo) (done : List Ref), (∀ r ∈ rs, r.WellFormed) →
      cb.hmp = hmp → cb.sbase = sbase → cb.sstop = sstop →
      ScanInv hmp seg (cb.bmap (seg - sbase / segSize)) done →
      ScanInv hmp seg (((rs.map Ref.bref).foldl bulkfreeCallback cb).bmap (seg - sbase / segSize))
        (rs.reverse ++ done)
  | [], _, _, _, _, _, _, h => h
  | r :: rs, cb, done, hwf, hh, hb, hs, h => by
    rw [List.forall_mem_cons] at hwf
    obtain ⟨fh, fb, fs⟩ := @bulkfreeCallback_fields cb r.bref
    have := ScanInv.fold hrange rs (bulkfreeCallback cb r.bref) (r :: done) hwf.2 (fh.trans hh)
      (fb.trans hb) (fs.trans hs) (h.callback hwf.1 hrange hh hb hs)
    rwa [List.reverse_cons, List.append_assoc]

/-- **The scan of a segment**: every blockref of the topology is marked in an open segment. -/
theorem scanInv_bulkfreePass {refs : List Ref} (hwf : ∀ r ∈ refs, r.WellFormed) {m : Bmap}
    (hbase : sbase % freemapLevel1Size = 0)
    (hstop : sstop % freemapLevel1Size = 0 ∨ sstop = hmp.totalSize)
    (h : bulkfreePass hmp sbase sstop refs seg = some m) : ScanInv hmp seg m refs := by
  unfold bulkfreePass at h
  split at h
  · next hin =>
    have hrange : PassRange hmp sbase sstop seg := ⟨hbase, hstop, hin.1, hin.2⟩
    have hkey : sbase + (seg - sbase / segSize) * freemapLevel0Size = seg * segSize := by
      have hlow := hrange.low
      simp only [freemapLevel1Size, segSize, freemapLevel0Size] at *
      omega
    have hinit : ScanInv hmp seg (cbinfoBmapInit hmp
        (sbase + (seg - sbase / segSize) * freemapLevel0Size)) [] := by
      rw [hkey]
      refine ⟨scanned_cbinfoBmapInit, fun hres => ?_, fun _ r hr => absurd hr (by simp)⟩
      rw [cbinfoBmapInit, if_pos hres]
      exact ⟨fun k => Bmap.pair_initReserved, rfl⟩
    have hfold := ScanInv.fold hrange refs (cbinfoInit hmp sbase sstop) [] hwf rfl rfl rfl hinit
    obtain rfl := Option.some.inj h
    refine ⟨hfold.scanned, hfold.full, fun hopen r hr => hfold.marks hopen r ?_⟩
    simpa using hr
  · cases h

end

end Hammer2
