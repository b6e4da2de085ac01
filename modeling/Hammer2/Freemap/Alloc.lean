import Hammer2.Freemap.Bmap

/-!
# The block allocator of a segment

`bmapAlloc` is `hammer2_bmap_alloc`: it packs a fragment at the linear iterator when that is off a
16KB boundary, else it tries the place `sub_key` names (data blocks of 16KB and more), else it scans
the bitmap for the first free run. `AllocStep` says once what a successful call did to the pairs,
the iterator and the returned offset, in two cases; everything about the allocator is derived from
it.

Reference: `hammer2_freemap.c:547-753`.
-/

namespace Hammer2

open PairWord

/-! ## The source's functions -/

/-- `bmradix`: the bits of the bitmap an allocation takes, two per 16KB block. -/
def bmradix (radix : Nat) : Nat :=
  if radix ≤ freemapBlockRadix then 2 else 2 <<< (radix - freemapBlockRadix)

/-- The tests under which the linear iterator is used. -/
def linearUsable (b : Bmap) (size : Nat) : Bool :=
  b.linear % freemapBlockSize + size ≤ freemapBlockSize && b.linear % freemapBlockSize ≠ 0 &&
    b.linear < segSize

/-- Where an allocation goes: the element, the bit index and the mask of its bits, the offset in the
segment and the iterator left behind. -/
structure Placement where
  i : Nat
  j : Nat
  bmmask : BitVec 64
  offset : Nat
  linear : Nat
  deriving DecidableEq

/-- The place at the linear iterator. -/
def linearPlace (b : Bmap) (radix : Nat) : Placement where
  i := b.linear / (segSize / bmapElements)
  j := (b.linear / (freemapBlockSize / 2)) &&& 62
  bmmask := lowMask 64 (bmradix radix) <<< ((b.linear / (freemapBlockSize / 2)) &&& 62)
  offset := b.linear
  linear := b.linear + 2 ^ radix

/-- The element and bit index `sub_key` selects, for data blocks of at least 16KB. -/
def subKeyIndex (cls : BitVec 16) (subKey : BitVec 32) (radix : Nat) : Option (Nat × Nat) :=
  if (cls >>> 8).toNat = BrefType.data.code ∧ freemapBlockRadix ≤ radix then
    some (subKey.toNat % bmapSize / (bmapSize / bmapElements),
      subKey.toNat % bmapIndexSize / (bmapIndexSize / bmapBlocksPerElement) * 2)
  else none

/-- The inner loop of the general scan: bit index `j` with its mask, stepping by `bmradix`. -/
def scanElement (q : BitVec 64) (bmr : Nat) : Nat → Nat → BitVec 64 → Option (Nat × BitVec 64)
  | 0, _, _ => none
  | fuel + 1, j, bmmask =>
    if j < bmapBitsPerElement then
      if q &&& bmmask = 0#64 then some (j, bmmask)
      else scanElement q bmr fuel (j + bmr) (bmmask <<< bmr)
    else none

/-- The outer loop of the general scan, from element `i` on. -/
def scanBmap (b : Bmap) (bmr : Nat) : Nat → Nat → Option (Nat × Nat × BitVec 64)
  | 0, _ => none
  | fuel + 1, i =>
    if i < bmapElements then
      match scanElement (b.elt i) bmr bmapBitsPerElement 0 (lowMask 64 bmr) with
      | some (j, bmmask) => some (i, j, bmmask)
      | none => scanBmap b bmr fuel (i + 1)
    else none

/-- The label `success`: the offset of bit `j` of element `i`, and the iterator after a fragment. -/
def blockPlace (b : Bmap) (radix : Nat) (i j : Nat) (bmmask : BitVec 64) : Placement :=
  let offset := i * (segSize / bmapElements) + j * (freemapBlockSize / 2)
  { i, j, bmmask, offset,
    linear := if 2 ^ radix % freemapBlockSize ≠ 0 then offset + 2 ^ radix else b.linear }

/-- The choice of a place. `none` is `HAMMER2_ERROR_ENOSPC`. -/
def bmapPlace (b : Bmap) (cls : BitVec 16) (subKey : BitVec 32) (radix : Nat) :
    Option Placement :=
  if linearUsable b (2 ^ radix) then some (linearPlace b radix)
  else
    let scan := (scanBmap b (bmradix radix) bmapElements 0).map
      fun (i, j, bmmask) => blockPlace b radix i j bmmask
    match subKeyIndex cls subKey radix with
    | some (i, j) =>
      let bmmask := lowMask 64 (bmradix radix) <<< j
      if b.elt i &&& bmmask = 0#64 then some (blockPlace b radix i j bmmask) else scan
    | none => scan

/-- The loop that moves the mask of a whole device buffer up to the one that meets `bmmask`. -/
def pbmmaskFor (bmmask : BitVec 64) : Nat → BitVec 64 → BitVec 64
  | 0, pbmmask => pbmmask
  | fuel + 1, pbmmask =>
    if pbmmask &&& bmmask = 0#64 then pbmmaskFor bmmask fuel (pbmmask <<< bmradix pbufRadix)
    else pbmmask

/-- The outcome of a successful allocation: the new bmap, the offset added to `*basep`, the
bitmap-granular size taken from `allocator_free`, and the device buffer created without a read. -/
structure AllocResult where
  bmap : Bmap
  offset : Nat
  bgsize : Nat
  newnz : Option Nat
  deriving DecidableEq

/-- The part of `hammer2_bmap_alloc` after the choice of a place. -/
def bmapCommit (b : Bmap) (cls : BitVec 16) (radix : Nat) (p : Placement) : AllocResult :=
  let q := b.elt p.i
  let pbmmask := pbmmaskFor p.bmmask bmapElements (lowMask 64 (bmradix pbufRadix))
  let bgsize :=
    if radix < freemapBlockRadix then
      if q &&& p.bmmask ≠ 0#64 then 0 else freemapBlockSize
    else 2 ^ radix
  { bmap := { (b.setElt p.i (q ||| p.bmmask)) with
      linear := p.linear
      cls := if b.cls = 0 then cls else b.cls
      avail := (b.avail + 2 ^ 32 - bgsize) % 2 ^ 32 }
    offset := p.offset
    bgsize
    newnz :=
      if q &&& p.bmmask = 0#64 ∧ pbufSize ≠ 2 ^ radix ∧ q &&& pbmmask = 0#64 then
        some (rounddown2 p.offset pbufSize)
      else none }

/-- `hammer2_bmap_alloc`. `none` is `HAMMER2_ERROR_ENOSPC`, which changes nothing. -/
def bmapAlloc (b : Bmap) (cls : BitVec 16) (subKey : BitVec 32) (radix : Nat) :
    Option AllocResult :=
  (bmapPlace b cls subKey radix).map (bmapCommit b cls radix)

/-! ## Sizes -/

/-- The 16KB blocks an allocation takes. -/
def blocks (radix : Nat) : Nat := if radix ≤ 14 then 1 else 2 ^ (radix - 14)

/-- The radixes the allocator is called with. -/
def ValidRadix (radix : Nat) : Prop := radixMin ≤ radix ∧ radix ≤ radixMax

instance {radix : Nat} : Decidable (ValidRadix radix) := inferInstanceAs (Decidable (_ ∧ _))

section
variable {radix : Nat}

/-- The radices from 1KB to 64KB. -/
theorem ValidRadix.cases (h : ValidRadix radix) :
    radix = 10 ∨ radix = 11 ∨ radix = 12 ∨ radix = 13 ∨ radix = 14 ∨ radix = 15 ∨ radix = 16 := by
  unfold ValidRadix radixMin radixMax at h
  omega

/-- Two bits for each block. -/
theorem bmradix_eq (h : ValidRadix radix) : bmradix radix = 2 * blocks radix := by
  obtain rfl | rfl | rfl | rfl | rfl | rfl | rfl := h.cases <;> rfl

/-- An allocation takes one, two or four blocks. -/
theorem blocks_cases (h : ValidRadix radix) :
    blocks radix = 1 ∨ blocks radix = 2 ∨ blocks radix = 4 := by
  obtain rfl | rfl | rfl | rfl | rfl | rfl | rfl := h.cases <;> decide

/-- A fragment is a multiple of 1KB smaller than a block. -/
theorem fragment_size (h : ValidRadix radix) (hlt : radix < 14) :
    blocks radix = 1 ∧ 1024 ≤ 2 ^ radix ∧ 2 ^ radix ≤ 8192 ∧ 2 ^ radix % 1024 = 0 := by
  obtain rfl | rfl | rfl | rfl | rfl | rfl | rfl := h.cases <;> first | decide | omega

/-- From 16KB on an allocation is a whole number of blocks. -/
theorem block_size (h : ValidRadix radix) (hge : 14 ≤ radix) :
    2 ^ radix = blocks radix * 16384 := by
  obtain rfl | rfl | rfl | rfl | rfl | rfl | rfl := h.cases <;> first | decide | omega

/-- Only allocations below 16KB share a block. -/
theorem size_mod_block (h : ValidRadix radix) :
    2 ^ radix % freemapBlockSize ≠ 0 ↔ radix < 14 := by
  obtain rfl | rfl | rfl | rfl | rfl | rfl | rfl := h.cases <;> decide

end

/-! ## The three ways to choose a place -/

section
variable {b : Bmap} {cls : BitVec 16} {subKey : BitVec 32} {radix : Nat}

/-- The trick that turns an offset into a shift: `& 62` keeps the block's index in its element,
doubled. -/
theorem linear_shift {x : Nat} (h : x < segSize) :
    (x / (freemapBlockSize / 2)) &&& 62 = 2 * (x / 16384 % 32) := by
  have hall : ∀ y < 512, y &&& 62 = 2 * (y / 2 % 32) := by decide +kernel
  unfold segSize at h
  have hq : x / 8192 / 2 = x / 16384 := by rw [Nat.div_div_eq_div_mul]
  rw [show freemapBlockSize / 2 = 8192 from rfl, hall _ (by omega), hq]

/-- A run of free blocks chosen for an allocation: aligned to its length in element `i`, with the
offset and the iterator that go with it. -/
structure FreeRun (b : Bmap) (radix : Nat) (p : Placement) (a : Nat) : Prop where
  elt : p.i < 8
  fits : a + blocks radix ≤ 32
  aligned : blocks radix ∣ a
  index : p.j = 2 * a
  mask : p.bmmask = runMask 64 (2 * a) (2 * blocks radix)
  free : b.elt p.i &&& p.bmmask = 0#64
  offset : p.offset = (32 * p.i + a) * 16384
  linear : p.linear = if radix < 14 then p.offset + 2 ^ radix else b.linear

/-- The bit index `2 * a` of element `i`, tested free, is a free run. -/
theorem freeRun_blockPlace (hr : ValidRadix radix) {i a : Nat} (hi : i < 8)
    (hfit : a + blocks radix ≤ 32) (hal : blocks radix ∣ a)
    (hfree : b.elt i &&& runMask 64 (2 * a) (2 * blocks radix) = 0#64) :
    FreeRun b radix (blockPlace b radix i (2 * a) (runMask 64 (2 * a) (2 * blocks radix))) a where
  elt := hi
  fits := hfit
  aligned := hal
  index := rfl
  mask := rfl
  free := hfree
  offset := by
    simp only [blockPlace, segSize, bmapElements, freemapBlockSize]
    omega
  linear := by
    simp only [blockPlace]
    exact if_congr (size_mod_block hr) rfl rfl

/-- The inner loop finds a bit index aligned to the run, with the run's own mask, tested free. -/
theorem scanElement_sound {q : BitVec 64} {m : Nat} (hm : m ∣ 32) :
    ∀ (fuel a : Nat) {j : Nat} {bmmask : BitVec 64}, m ∣ a →
      scanElement q (2 * m) fuel (2 * a) (runMask 64 (2 * a) (2 * m)) = some (j, bmmask) →
      ∃ c, m ∣ c ∧ c + m ≤ 32 ∧ j = 2 * c ∧ bmmask = runMask 64 (2 * c) (2 * m) ∧
        q &&& bmmask = 0#64
  | 0, _, _, _, _, h => by simp [scanElement] at h
  | fuel + 1, a, j, bmmask, ha, h => by
    rw [scanElement] at h
    split at h
    · next hj =>
      split at h
      · next hq =>
        obtain ⟨rfl, rfl⟩ := Prod.mk.inj (Option.some.inj h)
        refine ⟨a, ha, ?_, rfl, rfl, hq⟩
        -- `a < 32` and both are multiples of `m`, so the run ends inside the element.
        have hlt : a < 32 := by unfold bmapBitsPerElement at hj; omega
        exact Nat.le_of_lt_add_of_dvd (by omega) (Nat.dvd_add ha dvd_rfl) hm
      · rw [runMask_shiftLeft, ← Nat.mul_add] at h
        exact scanElement_sound hm fuel (a + m) (Nat.dvd_add ha dvd_rfl) h
    · cases h

/-- The general scan finds a free run. -/
theorem scanBmap_sound (hr : ValidRadix radix) : ∀ (fuel i₀ : Nat) {i j : Nat} {bmmask : BitVec 64},
    scanBmap b (bmradix radix) fuel i₀ = some (i, j, bmmask) →
      ∃ a, FreeRun b radix (blockPlace b radix i j bmmask) a
  | 0, _, _, _, _, h => by simp [scanBmap] at h
  | fuel + 1, i₀, i, j, bmmask, h => by
    rw [scanBmap] at h
    split at h
    · next hi =>
      split at h
      · next j' mask' hs =>
        simp only [Option.some.injEq, Prod.mk.injEq] at h
        obtain ⟨rfl, rfl, rfl⟩ := h
        have hdvd : blocks radix ∣ 32 := by
          rcases blocks_cases hr with h | h | h <;> rw [h] <;> decide
        rw [bmradix_eq hr, ← runMask_zero] at hs
        obtain ⟨c, hc, hfit, rfl, rfl, hfree⟩ :=
          scanElement_sound hdvd bmapBitsPerElement 0 (dvd_zero _) hs
        exact ⟨c, freeRun_blockPlace hr hi hfit hc hfree⟩
      · exact scanBmap_sound hr fuel (i₀ + 1) h
    · cases h

/-- The assumption on `sub_key`: for a data block of more than 16KB it is the low part of a key that
is aligned to the block. -/
def SubKeyAligned (cls : BitVec 16) (subKey : BitVec 32) (radix : Nat) : Prop :=
  (cls >>> 8).toNat = BrefType.data.code → blocks radix ∣ subKey.toNat / 16384

instance : Decidable (SubKeyAligned cls subKey radix) := inferInstanceAs (Decidable (_ → _))

/-- A place named by an aligned `sub_key` is a free run when its bits test free. -/
theorem subKey_sound (hr : ValidRadix radix) (hal : SubKeyAligned cls subKey radix) {i j : Nat}
    (h : subKeyIndex cls subKey radix = some (i, j))
    (hfree : b.elt i &&& (lowMask 64 (bmradix radix) <<< j) = 0#64) :
    ∃ a, FreeRun b radix (blockPlace b radix i j (lowMask 64 (bmradix radix) <<< j)) a := by
  unfold subKeyIndex at h
  split at h
  · next hc =>
    simp only [Option.some.injEq, Prod.mk.injEq] at h
    obtain ⟨rfl, rfl⟩ := h
    simp only [bmapSize, bmapElements, bmapIndexSize, bmapBlocksPerElement,
      Nat.reduceDiv] at hfree ⊢
    have hdvd := hal hc.1
    have hj : subKey.toNat % 524288 / 16384 * 2 = 2 * (subKey.toNat / 16384 % 32) := by omega
    rw [bmradix_eq hr, hj] at hfree ⊢
    refine ⟨_, freeRun_blockPlace hr (by omega) ?_ ?_ hfree⟩ <;>
      rcases blocks_cases hr with hb | hb | hb <;> rw [hb] at hdvd ⊢ <;> omega
  · cases h

/-- A place is the linear iterator's or a free run. -/
theorem bmapPlace_cases (hr : ValidRadix radix) (hal : SubKeyAligned cls subKey radix)
    {p : Placement} (h : bmapPlace b cls subKey radix = some p) :
    (linearUsable b (2 ^ radix) = true ∧ p = linearPlace b radix) ∨ ∃ a, FreeRun b radix p a := by
  unfold bmapPlace at h
  split at h
  · next hl => exact Or.inl ⟨hl, (Option.some.inj h).symm⟩
  · refine Or.inr ?_
    have hscan : ∀ p', ((scanBmap b (bmradix radix) bmapElements 0).map
        fun (i, j, bmmask) => blockPlace b radix i j bmmask) = some p' →
          ∃ a, FreeRun b radix p' a := by
      intro p' hp
      rw [Option.map_eq_some_iff] at hp
      obtain ⟨⟨i, j, bmmask⟩, hs, rfl⟩ := hp
      exact scanBmap_sound hr _ _ hs
    simp only at h
    split at h
    · next i j hs =>
      split at h
      · next hfree =>
        obtain rfl := Option.some.inj h
        exact subKey_sound hr hal hs hfree
      · exact hscan p h
    · exact hscan p h

end

/-! ## What an allocation does -/

/-- What a successful allocation did to the segment's blocks. Either a fragment went to the linear
iterator, inside the iterator's block, or a run of free blocks was taken from block `s` on, aligned
to its length. -/
inductive AllocStep (b : Bmap) (radix : Nat) (r : AllocResult) : Prop
  | linear (hfrag : radix < 14) (hunal : b.linear % 16384 ≠ 0)
      (hfit : b.linear % 16384 + 2 ^ radix ≤ 16384) (hseg : b.linear < segSize)
      (hoff : r.offset = b.linear) (hlin : r.bmap.linear = b.linear + 2 ^ radix)
      (hpair : ∀ k < 256, r.bmap.pair k = if k = b.linear / 16384 then 3#2 else b.pair k)
      (hbg : r.bgsize = if b.pair (b.linear / 16384) = 0#2 then 16384 else 0)
  | block (s : Nat) (hal : blocks radix ∣ s) (hs : s + blocks radix ≤ 256)
      (hfree : ∀ k, s ≤ k → k < s + blocks radix → b.pair k = 0#2)
      (hoff : r.offset = s * 16384)
      (hlin : r.bmap.linear = if radix < 14 then r.offset + 2 ^ radix else b.linear)
      (hpair : ∀ k < 256, r.bmap.pair k =
        if s ≤ k ∧ k < s + blocks radix then 3#2 else b.pair k)
      (hbg : r.bgsize = blocks radix * 16384)

section
variable {b : Bmap} {cls : BitVec 16} {subKey : BitVec 32} {radix : Nat} {r : AllocResult}

/-- The pairs after the commit of a run. -/
theorem pair_bmapCommit {p : Placement} {a m : Nat} (hi : p.i < 8) (ham : a + m ≤ 32)
    (hmask : p.bmmask = runMask 64 (2 * a) (2 * m)) {k : Nat} :
    (bmapCommit b cls radix p).bmap.pair k =
      if 32 * p.i + a ≤ k ∧ k < 32 * p.i + a + m then 3#2 else b.pair k := by
  rw [← Bmap.pair_setElt_run hi ham, ← hmask]
  exact Bmap.pair_congr rfl k

/-- The bitmap-granular size of a run that tested free. -/
theorem bgsize_bmapCommit {p : Placement} (hr : ValidRadix radix)
    (hfree : b.elt p.i &&& p.bmmask = 0#64) :
    (bmapCommit b cls radix p).bgsize = blocks radix * 16384 := by
  simp only [bmapCommit, hfree, ne_eq, not_true_eq_false, if_false]
  split
  · next hlt => rw [(fragment_size hr hlt).1]; rfl
  · next hge => exact block_size hr (Nat.le_of_not_lt hge)

/-- The linear iterator takes fragments only, so its mask is one pair. -/
theorem linearPlace_mask (hr : ValidRadix radix) (hlt : radix < 14) (hseg : b.linear < segSize) :
    (linearPlace b radix).bmmask = runMask 64 (2 * (b.linear / 16384 % 32)) (2 * 1) := by
  rw [linearPlace, linear_shift hseg, bmradix_eq hr, (fragment_size hr hlt).1]
  rfl

/-- **The allocator's specification**: a successful call is one of the two kinds of step. -/
theorem bmapAlloc_step (hr : ValidRadix radix) (hal : SubKeyAligned cls subKey radix)
    (h : bmapAlloc b cls subKey radix = some r) : AllocStep b radix r := by
  unfold bmapAlloc at h
  rw [Option.map_eq_some_iff] at h
  obtain ⟨p, hp, rfl⟩ := h
  rcases bmapPlace_cases hr hal hp with ⟨hl, rfl⟩ | ⟨a, hrun⟩
  · unfold linearUsable freemapBlockSize at hl
    simp only [Bool.and_eq_true, decide_eq_true_eq] at hl
    obtain ⟨⟨hfit, hunal⟩, hseg⟩ := hl
    have hlt : radix < 14 := by
      by_contra hge
      have := block_size hr (Nat.le_of_not_lt hge)
      rcases blocks_cases hr with hb | hb | hb <;> omega
    have hi : (linearPlace b radix).i = b.linear / 16384 / 32 := by
      rw [Nat.div_div_eq_div_mul]; rfl
    have hi8 : b.linear / 16384 / 32 < 8 := by unfold segSize at hseg; omega
    have hmask := linearPlace_mask hr hlt hseg
    refine .linear hlt hunal hfit hseg rfl rfl ?_ ?_
    · intro k _
      rw [pair_bmapCommit (by rw [hi]; exact hi8) (by omega) hmask, hi]
      exact if_congr (by omega) rfl rfl
    · -- The block of the iterator is charged only when its pair was still `00`.
      have hone : b.elt (linearPlace b radix).i &&& (linearPlace b radix).bmmask = 0#64 ↔
          b.pair (b.linear / 16384) = 0#2 := by
        rw [hmask, Bmap.run_free_iff (by omega), hi]
        constructor
        · intro hall
          exact hall _ (by omega) (by omega)
        · intro h0 k h1 h2
          rwa [show k = b.linear / 16384 by omega]
      simp only [bmapCommit, if_pos (show radix < freemapBlockRadix from hlt), ne_eq, ite_not]
      exact if_congr hone rfl rfl
  · have hi := hrun.elt
    have hfit := hrun.fits
    refine .block (32 * p.i + a) ?_ (by omega) ?_ hrun.offset hrun.linear ?_
      (bgsize_bmapCommit hr hrun.free)
    · have hdvd : blocks radix ∣ 32 := by
        rcases blocks_cases hr with h | h | h <;> rw [h] <;> decide
      exact Nat.dvd_add (Dvd.dvd.mul_right hdvd _) hrun.aligned
    · have hfree := hrun.free
      rw [hrun.mask, Bmap.run_free_iff hfit] at hfree
      exact hfree
    · intro k _
      exact pair_bmapCommit hi hfit hrun.mask

/-- The counter is charged the bitmap-granular size. -/
theorem bmapAlloc_avail (h : bmapAlloc b cls subKey radix = some r) :
    r.bmap.avail = (b.avail + 2 ^ 32 - r.bgsize) % 2 ^ 32 := by
  unfold bmapAlloc at h
  rw [Option.map_eq_some_iff] at h
  obtain ⟨p, -, rfl⟩ := h
  rfl

end

end Hammer2
