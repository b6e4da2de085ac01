import Hammer2.Disk
import Hammer2.Lib.PairWord

/-!
# The bitmap of a segment

`Bmap` is `struct hammer2_bmap_data`: the linear iterator, the class, the bytes available and the
eight 64-bit elements of the bitmap. The elements are read and written by index (`elt`, `setElt`);
every proof reads the bitmap through `pair`, the two bits of one of the segment's 256 blocks, and
through `freePairs`, the number of blocks whose pair is `00`.

Reference: `hammer2_disk.h:793-879`.
-/

namespace Hammer2

open PairWord

/-- `struct hammer2_bmap_data`. `avail` is a 32-bit counter, subtracted from modulo `2 ^ 32`. -/
structure Bmap where
  linear : Nat
  cls : BitVec 16
  avail : Nat
  bitmapq : Vector (BitVec 64) 8
  deriving DecidableEq

namespace Bmap

/-- `bmap->bitmapq[i]`. -/
def elt (b : Bmap) (i : Nat) : BitVec 64 := b.bitmapq[i]?.getD 0#64

/-- `bmap->bitmapq[i] = x`. -/
def setElt (b : Bmap) (i : Nat) (x : BitVec 64) : Bmap :=
  { b with bitmapq := b.bitmapq.setIfInBounds i x }

variable {x : BitVec 64} {b : Bmap} {i : Nat}

@[simp] theorem setElt_linear :
    (b.setElt i x).linear = b.linear := rfl

@[simp] theorem setElt_avail :
    (b.setElt i x).avail = b.avail := rfl

@[simp] theorem setElt_cls :
    (b.setElt i x).cls = b.cls := rfl

theorem elt_setElt {j : Nat} (hi : i < 8) :
    (b.setElt i x).elt j = if j = i then x else b.elt j := by
  simp only [elt, setElt, Vector.getElem?_setIfInBounds]
  by_cases h : i = j
  · subst h; simp [hi]
  · rw [if_neg h, if_neg (Ne.symm h)]

/-- The pair of block `k` of the segment: 32 blocks in each element. -/
def pair (b : Bmap) (k : Nat) : BitVec 2 := pairAt (b.elt (k / 32)) (k % 32)

/-- The pair depends on the bitmap only. -/
theorem pair_congr {c : Bmap} (h : b.bitmapq = c.bitmapq) (k : Nat) : b.pair k = c.pair k := by
  unfold pair elt
  rw [h]

/-- The other fields do not change a pair. -/
@[simp] theorem pair_mk {l a k : Nat} {c : BitVec 16} :
    (Bmap.mk l c a b.bitmapq).pair k = b.pair k := rfl

/-- The number of blocks whose pair is `00`. -/
def freePairs (b : Bmap) : Nat := ((Finset.range 256).filter fun k => b.pair k = 0#2).card

/-- The segment `hammer2_freemap_init` leaves free for data. -/
def initFree : Bmap where
  linear := 0
  cls := 0
  avail := segSize
  bitmapq := Vector.replicate 8 0#64

/-- The segment `hammer2_freemap_init` marks allocated. -/
def initReserved : Bmap where
  linear := segSize
  cls := 0
  avail := 0
  bitmapq := Vector.replicate 8 (BitVec.allOnes 64)

end Bmap

/-! ## Runs of blocks in one element -/

section
variable {b : Bmap} {i a m : Nat}

/-- Setting the run of pairs `a .. a + m` of element `i` marks exactly the blocks it covers. -/
theorem Bmap.pair_setElt_run (hi : i < 8) (ham : a + m ≤ 32) {k : Nat} :
    (b.setElt i (b.elt i ||| runMask 64 (2 * a) (2 * m))).pair k =
      if 32 * i + a ≤ k ∧ k < 32 * i + a + m then 3#2 else b.pair k := by
  unfold Bmap.pair
  rw [Bmap.elt_setElt hi]
  by_cases h : k / 32 = i
  · rw [if_pos h, h, pairAt_or_runMask (by omega) (by omega)]
    exact if_congr (by omega) rfl rfl
  · rw [if_neg h, if_neg (by omega)]

/-- A run of an element tests free exactly when its blocks are all `00`. -/
theorem Bmap.run_free_iff (ham : a + m ≤ 32) :
    b.elt i &&& runMask 64 (2 * a) (2 * m) = 0#64 ↔
      ∀ k, 32 * i + a ≤ k → k < 32 * i + a + m → b.pair k = 0#2 := by
  rw [and_runMask_eq_zero_iff (by omega)]
  constructor
  · intro h k h1 h2
    have hq : k / 32 = i := by omega
    rw [Bmap.pair, hq]
    exact h (k % 32) (by omega) (by omega)
  · intro h k h1 h2
    have := h (32 * i + k) (by omega) (by omega)
    rwa [Bmap.pair, show (32 * i + k) / 32 = i by omega,
      show (32 * i + k) % 32 = k by omega] at this

end

/-! ## Counting free blocks -/

/-- Marking a run of free blocks takes its length from the number of free blocks. -/
theorem Bmap.freePairs_mark {b c : Bmap} {s n : Nat} (hn : s + n ≤ 256)
    (hfree : ∀ k, s ≤ k → k < s + n → b.pair k = 0#2)
    (hc : ∀ k, k < 256 → c.pair k = if s ≤ k ∧ k < s + n then 3#2 else b.pair k) :
    c.freePairs + n = b.freePairs := by
  have hsplit : ((Finset.range 256).filter fun k => b.pair k = 0#2) =
      ((Finset.range 256).filter fun k => c.pair k = 0#2) ∪ Finset.Ico s (s + n) := by
    ext k
    simp only [Finset.mem_filter, Finset.mem_range, Finset.mem_union, Finset.mem_Ico]
    constructor
    · rintro ⟨hk, hb⟩
      by_cases hin : s ≤ k ∧ k < s + n
      · exact Or.inr hin
      · refine Or.inl ⟨hk, ?_⟩
        rw [hc k hk, if_neg hin, hb]
    · rintro (⟨hk, hck⟩ | hin)
      · refine ⟨hk, ?_⟩
        rw [hc k hk] at hck
        split at hck
        · exact absurd hck (by decide)
        · exact hck
      · exact ⟨by omega, hfree k hin.1 hin.2⟩
  have hdisj : Disjoint ((Finset.range 256).filter fun k => c.pair k = 0#2)
      (Finset.Ico s (s + n)) := by
    rw [Finset.disjoint_left]
    intro k hk hin
    simp only [Finset.mem_filter, Finset.mem_range, Finset.mem_Ico] at hk hin
    rw [hc k hk.1, if_pos hin] at hk
    exact absurd hk.2 (by decide)
  rw [freePairs, freePairs, hsplit, Finset.card_union_of_disjoint hdisj, Nat.card_Ico]
  omega

/-- A map with the same `00` pairs has the same number of free blocks. -/
theorem Bmap.freePairs_congr {b c : Bmap}
    (h : ∀ k, k < 256 → (c.pair k = 0#2 ↔ b.pair k = 0#2)) : c.freePairs = b.freePairs := by
  unfold freePairs
  congr 1
  ext k
  simp only [Finset.mem_filter, Finset.mem_range]
  exact and_congr_right (h k)

/-! ## The two initial maps -/

theorem Bmap.pair_initFree {k : Nat} (hk : k < 256) : initFree.pair k = 0#2 := by
  have : k / 32 < 8 := by omega
  simp [pair, elt, initFree, this]

theorem Bmap.pair_initReserved {k : Nat} (hk : k < 256) : initReserved.pair k = 3#2 := by
  have : k / 32 < 8 := by omega
  simp only [pair, elt, initReserved, Vector.getElem?_replicate, this, if_true, Option.getD_some]
  exact pairAt_allOnes (by omega)

theorem Bmap.freePairs_initFree : initFree.freePairs = 256 := by
  rw [freePairs, Finset.filter_true_of_mem, Finset.card_range]
  intro k hk
  exact pair_initFree (Finset.mem_range.1 hk)

theorem Bmap.freePairs_initReserved : initReserved.freePairs = 0 := by
  rw [freePairs, Finset.card_eq_zero, Finset.filter_eq_empty_iff]
  intro k hk
  rw [pair_initReserved (Finset.mem_range.1 hk)]
  decide

end Hammer2
