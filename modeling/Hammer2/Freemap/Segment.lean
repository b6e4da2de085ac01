import Hammer2.Freemap.Alloc
import Hammer2.Freemap.Init

/-!
# Segments and the storage in use

`Bmap.Covers b U` relates a segment's bmap to the set `U` of its bytes in use: each is in a marked
block, and past an iterator that stands inside a block nothing of that block is in use. It is the
one invariant the three ways of choosing space keep together: an allocation from a map that covers
`U` takes storage disjoint from `U`, and the new map covers both (`AllocStep.covers`). A run of
allocations (`allocRun`) is then safe by induction on its calls.

Reference: `hammer2_freemap.c:547-753`.
-/

namespace Hammer2

/-! ## Extents -/

/-- A byte range the allocator returned: an offset in a segment and a radix. -/
structure Extent where
  offset : Nat
  radix : Nat
  deriving DecidableEq, Repr

/-- The bytes of an extent. -/
def Extent.bytes (e : Extent) : Set Nat := Set.Ico e.offset (e.offset + 2 ^ e.radix)

/-- The shape of a returned range: a fragment stays in its 16KB block, anything larger is aligned to
its size, and both lie in the segment. -/
structure Extent.WellPlaced (e : Extent) : Prop where
  in_segment : e.offset + 2 ^ e.radix ≤ segSize
  one_block : e.radix < 14 → e.offset % 16384 + 2 ^ e.radix ≤ 16384
  aligned : 14 ≤ e.radix → 2 ^ e.radix ∣ e.offset

instance {e : Extent} : Decidable e.WellPlaced :=
  decidable_of_iff (e.offset + 2 ^ e.radix ≤ segSize ∧
      (e.radix < 14 → e.offset % 16384 + 2 ^ e.radix ≤ 16384) ∧
      (14 ≤ e.radix → 2 ^ e.radix ∣ e.offset))
    ⟨fun h => ⟨h.1, h.2.1, h.2.2⟩, fun h => ⟨h.1, h.2, h.3⟩⟩

/-! ## The invariant -/

/-- The bmap `b` accounts for the bytes `U` in use. -/
structure Bmap.Covers (b : Bmap) (U : Set Nat) : Prop where
  in_segment : ∀ x ∈ U, x < segSize
  marked : ∀ x ∈ U, b.pair (x / 16384) ≠ 0#2
  linear_le : b.linear ≤ segSize
  linear_kb : b.linear % 1024 = 0
  linear_marked : b.linear % 16384 ≠ 0 → b.pair (b.linear / 16384) ≠ 0#2
  tail_unused : b.linear % 16384 ≠ 0 → ∀ x ∈ U, x / 16384 = b.linear / 16384 → x < b.linear

section
variable {b : Bmap} {U : Set Nat} {radix : Nat} {r : AllocResult}

/-- The blocks of a run are the blocks its bytes fall in. -/
theorem mem_run_block {s radix x : Nat} (hr : ValidRadix radix) (h1 : s * 16384 ≤ x)
    (h2 : x < s * 16384 + 2 ^ radix) : s ≤ x / 16384 ∧ x / 16384 < s + blocks radix := by
  by_cases hlt : radix < 14
  · have := fragment_size hr hlt
    omega
  · rw [block_size hr (by omega)] at h2
    omega

/-- The range an allocation returns has the shape the formats need. -/
theorem AllocStep.wellPlaced (h : AllocStep b radix r) (hr : ValidRadix radix) :
    Extent.WellPlaced ⟨r.offset, radix⟩ := by
  cases h with
  | linear hfrag hunal hfit hseg hoff hlin hpair hbg =>
    unfold segSize at hseg
    refine ⟨?_, fun _ => ?_, fun hge => absurd hfrag (Nat.not_lt.2 hge)⟩
    · simp only [hoff, segSize]; omega
    · simp only [hoff]; exact hfit
  | block s hal hs hfree hoff hlin hpair hbg =>
    by_cases hlt : radix < 14
    · have hsz := fragment_size hr hlt
      refine ⟨?_, fun _ => ?_, fun hge => absurd hlt (Nat.not_lt.2 hge)⟩
      · simp only [hoff, segSize]; omega
      · simp only [hoff]; omega
    · have hsz := block_size hr (Nat.le_of_not_lt hlt)
      refine ⟨?_, fun hlt' => absurd hlt' hlt, fun _ => ?_⟩
      · simp only [hoff, segSize, hsz]; omega
      · simp only [hoff, hsz]
        exact Nat.mul_dvd_mul_right hal 16384

/-- Storage handed out is disjoint from the storage in use. -/
theorem AllocStep.disjoint (h : AllocStep b radix r) (hr : ValidRadix radix) (hc : b.Covers U) :
    Disjoint (Extent.bytes ⟨r.offset, radix⟩) U := by
  rw [Set.disjoint_left]
  intro x hx hU
  simp only [Extent.bytes, Set.mem_Ico] at hx
  cases h with
  | linear hfrag hunal hfit hseg hoff hlin hpair hbg =>
    -- Past the iterator its block is unused.
    rw [hoff] at hx
    have := hc.tail_unused hunal x hU (by omega)
    omega
  | block s hal hs hfree hoff hlin hpair hbg =>
    rw [hoff] at hx
    obtain ⟨h1, h2⟩ := mem_run_block hr hx.1 hx.2
    exact hc.marked x hU (hfree _ h1 h2)

/-- An allocation never unmarks a block. -/
theorem AllocStep.pair_mono (h : AllocStep b radix r) {k : Nat} (hk : k < 256)
    (hne : b.pair k ≠ 0#2) : r.bmap.pair k ≠ 0#2 := by
  cases h with
  | linear hfrag hunal hfit hseg hoff hlin hpair hbg | block s hal hs hfree hoff hlin hpair hbg =>
    rw [hpair k hk]; split
    · decide
    · exact hne

/-- The blocks of the returned range are marked `11`. -/
theorem AllocStep.pair_new (h : AllocStep b radix r) (hr : ValidRadix radix) {x : Nat}
    (hx : x ∈ Extent.bytes ⟨r.offset, radix⟩) : r.bmap.pair (x / 16384) = 3#2 := by
  have hseg := (h.wellPlaced hr).in_segment
  simp only [Extent.bytes, Set.mem_Ico] at hx
  simp only [segSize] at hseg
  cases h with
  | linear hfrag hunal hfit hseg hoff hlin hpair hbg =>
    rw [hoff] at hx
    rw [hpair _ (by omega), if_pos (by omega)]
  | block s hal hs hfree hoff hlin hpair hbg =>
    rw [hoff] at hx
    have hin := mem_run_block hr hx.1 hx.2
    rw [hpair _ (by omega), if_pos hin]

/-- **The invariant is kept**: the new map covers the old storage and the new range. -/
theorem AllocStep.covers (h : AllocStep b radix r) (hr : ValidRadix radix) (hc : b.Covers U) :
    r.bmap.Covers (U ∪ Extent.bytes ⟨r.offset, radix⟩) := by
  have hwp := h.wellPlaced hr
  have hseg := hwp.in_segment
  have hnew : ∀ x ∈ Extent.bytes ⟨r.offset, radix⟩, x < segSize := by
    intro x hx
    simp only [Extent.bytes, Set.mem_Ico] at hx hseg
    omega
  have hmarked : ∀ x ∈ U ∪ Extent.bytes ⟨r.offset, radix⟩, r.bmap.pair (x / 16384) ≠ 0#2 := by
    rintro x (hx | hx)
    · have := hc.in_segment x hx
      simp only [segSize] at this
      exact h.pair_mono (by omega) (hc.marked x hx)
    · rw [h.pair_new hr hx]; decide
  have hin : ∀ x ∈ U ∪ Extent.bytes ⟨r.offset, radix⟩, x < segSize := by
    rintro x (hx | hx)
    · exact hc.in_segment x hx
    · exact hnew x hx
  -- What is left is the iterator, which each case of the step moves its own way.
  cases h with
  | linear hfrag hunal hfit hseg' hoff hlin hpair hbg =>
    have hsz := fragment_size hr hfrag
    have hkb := hc.linear_kb
    simp only [segSize] at hseg'
    refine ⟨hin, hmarked, by rw [hlin, segSize]; omega, by rw [hlin]; omega, ?_, ?_⟩
    · intro hu
      rw [hlin] at hu ⊢
      rw [hpair _ (by omega), if_pos (by omega)]
      decide
    · rintro hu x (hx | hx) hblk
      · rw [hlin] at hu hblk ⊢
        have := hc.tail_unused hunal x hx (by omega)
        omega
      · simp only [Extent.bytes, Set.mem_Ico, hoff] at hx
        rw [hlin]; exact hx.2
  | block s hal hs hfree hoff hlin hpair hbg =>
    by_cases hlt : radix < 14
    · rw [if_pos hlt, hoff] at hlin
      have hsz := fragment_size hr hlt
      refine ⟨hin, hmarked, by rw [hlin, segSize]; omega, by rw [hlin]; omega, ?_, ?_⟩
      · intro _
        rw [hlin, hpair _ (by omega), if_pos (by omega)]
        decide
      · rintro _ x (hx | hx) hblk
        · -- Nothing of the freshly taken block was in use.
          rw [hlin] at hblk
          exact absurd (hfree _ (by omega) (by omega)) (hc.marked x hx)
        · simp only [Extent.bytes, Set.mem_Ico, hoff] at hx
          rw [hlin]; exact hx.2
    · rw [if_neg hlt] at hlin
      refine ⟨hin, hmarked, by rw [hlin]; exact hc.linear_le, by rw [hlin]; exact hc.linear_kb,
        ?_, ?_⟩
      · intro hu
        rw [hlin] at hu ⊢
        have hle := hc.linear_le
        simp only [segSize] at hle
        have hold := hc.linear_marked hu
        rw [hpair _ (by omega)]
        split
        · decide
        · exact hold
      · rintro hu x (hx | hx) hblk
        · rw [hlin] at hu hblk ⊢
          exact hc.tail_unused hu x hx hblk
        · -- The run was free and the iterator's block was not.
          simp only [Extent.bytes, Set.mem_Ico, hoff] at hx
          have hrun := mem_run_block hr hx.1 hx.2
          rw [hlin] at hu hblk
          rw [hblk] at hrun
          exact absurd (hfree _ hrun.1 hrun.2) (hc.linear_marked hu)

/-- The counter stays 16KB for each free block. -/
theorem AllocStep.avail (h : AllocStep b radix r) (hc : b.Covers U)
    (hav : b.avail = 16384 * b.freePairs)
    (hsub : r.bmap.avail = (b.avail + 2 ^ 32 - r.bgsize) % 2 ^ 32) :
    r.bmap.avail = 16384 * r.bmap.freePairs := by
  have hle : b.freePairs ≤ 256 := by
    have := Finset.card_filter_le (Finset.range 256) fun k => b.pair k = 0#2
    rwa [Finset.card_range] at this
  suffices hfp : 16384 * r.bmap.freePairs + r.bgsize = 16384 * b.freePairs by omega
  cases h with
  | linear hfrag hunal hfit hseg hoff hlin hpair hbg =>
    have hold := hc.linear_marked hunal
    rw [if_neg hold] at hbg
    have : r.bmap.freePairs = b.freePairs := by
      apply Bmap.freePairs_congr
      intro k hk
      rw [hpair k hk]
      split
      · next heq => subst heq; simp [hold]
      · rfl
    omega
  | block s hal hs hfree hoff hlin hpair hbg =>
    have := Bmap.freePairs_mark hs hfree hpair
    omega

/-- Without a bulkfree pass a pair is `00` or `11`. -/
theorem AllocStep.pair_full (h : AllocStep b radix r)
    (hfull : ∀ k < 256, b.pair k ≠ 0#2 → b.pair k = 3#2) :
    ∀ k < 256, r.bmap.pair k ≠ 0#2 → r.bmap.pair k = 3#2 := by
  intro k hk hne
  cases h with
  | linear hfrag hunal hfit hseg hoff hlin hpair hbg | block s hal hs hfree hoff hlin hpair hbg =>
    rw [hpair k hk] at hne ⊢
    split
    · rfl
    · next hno => rw [if_neg hno] at hne; exact hfull k hk hne

end

/-! ## Runs of allocations -/

/-- The arguments of a call to the allocator. -/
structure AllocCall where
  cls : BitVec 16
  subKey : BitVec 32
  radix : Nat
  deriving DecidableEq

/-- A call as its callers make it: a radix of an allocation, and a `sub_key` taken from the key of
the block. -/
def AllocCall.Valid (c : AllocCall) : Prop :=
  ValidRadix c.radix ∧ SubKeyAligned c.cls c.subKey c.radix

instance {c : AllocCall} : Decidable c.Valid := inferInstanceAs (Decidable (_ ∧ _))

/-- A segment and the ranges its allocator returned, the latest first. -/
structure AllocLog where
  bmap : Bmap
  log : List Extent
  deriving DecidableEq

/-- One call: a failed one changes nothing. -/
def AllocLog.call (s : AllocLog) (c : AllocCall) : AllocLog :=
  match bmapAlloc s.bmap c.cls c.subKey c.radix with
  | some r => { bmap := r.bmap, log := ⟨r.offset, c.radix⟩ :: s.log }
  | none => s

/-- A sequence of calls on a segment. -/
def allocRun (b : Bmap) (calls : List AllocCall) : AllocLog :=
  calls.foldl AllocLog.call { bmap := b, log := [] }

/-- The bytes of the returned ranges. -/
def AllocLog.used (s : AllocLog) : Set Nat := {x | ∃ e ∈ s.log, x ∈ e.bytes}

/-- What holds of a segment and its log after every call. -/
structure AllocLog.Sound (s : AllocLog) : Prop where
  placed : ∀ e ∈ s.log, e.WellPlaced
  apart : s.log.Pairwise fun e f => Disjoint e.bytes f.bytes
  avail : s.bmap.avail = 16384 * s.bmap.freePairs
  marked : ∀ x ∈ s.used, s.bmap.pair (x / 16384) = 3#2
  tail_unused : s.bmap.linear % 16384 ≠ 0 →
    ∀ x, s.bmap.linear ≤ x → x / 16384 = s.bmap.linear / 16384 → x ∉ s.used

/-- The invariant of a run: the map covers the log, on top of what is claimed of it. -/
structure AllocLog.Inv (s : AllocLog) : Prop where
  covers : s.bmap.Covers s.used
  full : ∀ k < 256, s.bmap.pair k ≠ 0#2 → s.bmap.pair k = 3#2
  avail : s.bmap.avail = 16384 * s.bmap.freePairs
  placed : ∀ e ∈ s.log, e.WellPlaced
  apart : s.log.Pairwise fun e f => Disjoint e.bytes f.bytes

theorem AllocLog.used_cons {b : Bmap} {e : Extent} {es : List Extent} :
    (AllocLog.mk b (e :: es)).used = {x | ∃ f ∈ es, x ∈ f.bytes} ∪ e.bytes := by
  ext x
  simp only [used, List.mem_cons, exists_eq_or_imp, Set.mem_ofPred_eq, Set.mem_union]
  exact or_comm

/-- A call keeps the invariant. -/
theorem AllocLog.Inv.call {s : AllocLog} (h : s.Inv) {c : AllocCall} (hc : c.Valid) :
    (s.call c).Inv := by
  unfold AllocLog.call
  split
  · next r hr =>
    have hstep := bmapAlloc_step hc.1 hc.2 hr
    refine ⟨?_, hstep.pair_full h.full, hstep.avail h.covers h.avail (bmapAlloc_avail hr), ?_, ?_⟩
    · rw [used_cons]
      exact hstep.covers hc.1 h.covers
    · exact List.forall_mem_cons.2 ⟨hstep.wellPlaced hc.1, h.placed⟩
    · refine List.pairwise_cons.2 ⟨fun f hf => ?_, h.apart⟩
      have hsub : f.bytes ⊆ s.used := fun x hx => Set.mem_ofPred.2 ⟨f, hf, hx⟩
      exact (hstep.disjoint hc.1 h.covers).mono_right hsub
  · exact h

/-- So does a run of calls. -/
theorem AllocLog.Inv.run {calls : List AllocCall} (hc : ∀ c ∈ calls, c.Valid) :
    ∀ {s : AllocLog}, s.Inv → (calls.foldl AllocLog.call s).Inv := by
  induction calls with
  | nil => exact fun h => h
  | cons c cs ih =>
    intro s h
    rw [List.forall_mem_cons] at hc
    exact ih hc.2 (h.call hc.1)

/-- The invariant gives what is claimed of the log. -/
theorem AllocLog.Inv.sound {s : AllocLog} (h : s.Inv) : s.Sound where
  placed := h.placed
  apart := h.apart
  avail := h.avail
  marked x hx := by
    have hlt := h.covers.in_segment x hx
    simp only [segSize] at hlt
    exact h.full _ (by omega) (h.covers.marked x hx)
  tail_unused hu x hle hblk hx := absurd (h.covers.tail_unused hu x hx hblk) (by omega)

/-- A map with the iterator on a block boundary covers the empty set. -/
theorem Bmap.covers_empty {b : Bmap} (hle : b.linear ≤ segSize) (hal : b.linear % 16384 = 0) :
    b.Covers ∅ where
  in_segment _ hx := absurd hx (Set.notMem_empty _)
  marked _ hx := absurd hx (Set.notMem_empty _)
  linear_le := hle
  linear_kb := by omega
  linear_marked hu := absurd hal hu
  tail_unused hu := absurd hal hu

/-- Both initial segments meet the invariant with an empty log. -/
theorem allocLog_inv_init {hmp : FreemapDev} {key count : Nat} :
    (AllocLog.mk (freemapInitBmap hmp key count) []).Inv := by
  have hempty : ∀ b, (AllocLog.mk b []).used = ∅ := by
    intro b
    simp [AllocLog.used]
  rcases @freemapInitBmap_cases hmp key count with h | h <;> rw [h]
  · refine ⟨?_, ?_, ?_, by simp, List.Pairwise.nil⟩
    · rw [hempty]; exact Bmap.covers_empty (Nat.zero_le _) rfl
    · intro k hk hne
      exact absurd (Bmap.pair_initFree hk) hne
    · rw [Bmap.freePairs_initFree]; rfl
  · refine ⟨?_, ?_, ?_, by simp, List.Pairwise.nil⟩
    · rw [hempty]; exact Bmap.covers_empty (Nat.le_refl _) rfl
    · intro k hk _
      exact Bmap.pair_initReserved hk
    · rw [Bmap.freePairs_initReserved]; rfl

/-- **The allocator never hands out overlapping storage**: from a segment as `freemapInit` leaves
it, after every sequence of calls. -/
theorem allocRun_sound (hmp : FreemapDev) (key count : Nat) (calls : List AllocCall)
    (hc : ∀ c ∈ calls, c.Valid) : (allocRun (freemapInitBmap hmp key count) calls).Sound :=
  (AllocLog.Inv.run hc allocLog_inv_init).sound

/-- A fragment, a 64KB data block placed by its key and a second fragment packed behind the first,
in the second segment of a 2GB volume. -/
theorem allocRun_sound_mixed :
    let calls : List AllocCall :=
      [⟨0x0110#16, 0#32, 10⟩, ⟨0x0310#16, 0x30000#32, 16⟩, ⟨0x0110#16, 0#32, 11⟩]
    let s := allocRun (freemapInitBmap ⟨4194304, 2147483648⟩ 0 1) calls
    (∀ c ∈ calls, c.Valid) ∧ s.log = [⟨1024, 11⟩, ⟨196608, 16⟩, ⟨0, 10⟩] ∧ s.Sound :=
  ⟨by decide, by decide +kernel, allocRun_sound _ _ _ _ (by decide)⟩

/-- With a `sub_key` that is not aligned to the block, the run of a 64KB data block is cut at the
end of its bitmap element: only the first of its four blocks is marked, and the next allocation
returns storage that overlaps it. -/
theorem allocRun_misaligned_overlap :
    let calls : List AllocCall := [⟨0x0310#16, 0x7C000#32, 16⟩, ⟨0x0310#16, 0x80000#32, 16⟩]
    let s := allocRun (freemapInitBmap ⟨4194304, 2147483648⟩ 0 1) calls
    (∀ c ∈ calls, ValidRadix c.radix) ∧ s.log = [⟨524288, 16⟩, ⟨507904, 16⟩] ∧ ¬ s.Sound := by
  refine ⟨by decide, by decide +kernel, fun hs => ?_⟩
  have hlog : (allocRun (freemapInitBmap ⟨4194304, 2147483648⟩ 0 1)
      [⟨0x0310#16, 0x7C000#32, 16⟩, ⟨0x0310#16, 0x80000#32, 16⟩]).log =
        [⟨524288, 16⟩, ⟨507904, 16⟩] := by decide +kernel
  have hap := hs.apart
  rw [hlog, List.pairwise_cons] at hap
  have hdis := hap.1 ⟨507904, 16⟩ (by simp)
  rw [Set.disjoint_left] at hdis
  exact hdis (a := 524288) (by simp [Extent.bytes]) (by simp [Extent.bytes])

end Hammer2
