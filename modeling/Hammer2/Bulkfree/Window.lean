import Hammer2.Bulkfree.Callback

/-!
# The start bitmap of a bulkfree window

`cbinfo_bmap_init` fills the bmaps of a whole window in one loop that carries `lokey` from leaf to
leaf; `hammer2_freemap_init` computes `lokey` and `hikey` anew for every leaf. Offsets are 64 bits
wide here: the end of the last leaf of the key space is 0, and `hammer2_freemap_init` reserves that
leaf whatever the size of the volume. Below it, the bmaps of a window are those of its leaves
(`cbinfoWindow_eq_leaves`), and both loops compute the closed forms that the other modules use
(`cbinfoWindow_eq`, `freemapLeafInit_eq`).

Reference: `hammer2_bulkfree.c:645-674`, `hammer2_freemap.c:758-820`.
-/

namespace Hammer2

/-- `(allocator_beg + HAMMER2_SEGMASK64) & ~HAMMER2_SEGMASK64`. -/
def allocatorKey (hmp : FreemapDev) : Nat :=
  rounddown2 ((hmp.allocatorBeg + (segSize - 1)) % 2 ^ 64) segSize

/-- The two tests that raise `lokey` to the base of the leaf at `key` and past its reserved area. -/
def raiseLokey (lokey key : Nat) : Nat :=
  max (max lokey (h2fmBase key freemapLevel1Radix)) (h2fmZoneBase key + zoneSeg)

/-- The bmap of the segment at `key`. -/
def boundedBmap (lokey hikey key : Nat) : Bmap :=
  if key < lokey ∨ hikey ≤ key then Bmap.initReserved else Bmap.initFree

/-- A loop over `n` bmaps that raises `lokey` at each. -/
def bmapLoop (raise : Nat → Nat → Nat) (hikey : Nat) : Nat → Nat → Nat → List Bmap
  | 0, _, _ => []
  | n + 1, key, lokey =>
    boundedBmap (raise lokey key) hikey key ::
      bmapLoop raise hikey n ((key + freemapLevel0Size) % 2 ^ 64) (raise lokey key)

/-- `cbinfo_bmap_init` for a window of `n` bmaps. -/
def cbinfoWindow (hmp : FreemapDev) (sbase n : Nat) : List Bmap :=
  bmapLoop raiseLokey (rounddown2 hmp.totalSize segSize) n sbase (allocatorKey hmp)

/-- `hikey` of `hammer2_freemap_init`. -/
def freemapEnd (hmp : FreemapDev) (key : Nat) : Nat :=
  let hikey := (key + freemapLevel1Size) % 2 ^ 64
  if hmp.totalSize < hikey then rounddown2 hmp.totalSize segSize else hikey

/-- The bmaps that `hammer2_freemap_init` makes; its loop leaves `lokey` alone. -/
def freemapLeafInit (hmp : FreemapDev) (key : Nat) : List Bmap :=
  bmapLoop (fun lokey _ => lokey) (freemapEnd hmp key) freemapCount key
    (raiseLokey (allocatorKey hmp) key)

section
variable {hmp : FreemapDev} {key key' lokey hikey n i : Nat}

/-- What a segment raised `lokey` to, a later one raises it past. -/
theorem raiseLokey_raiseLokey (h : key ≤ key') :
    raiseLokey (raiseLokey lokey key) key' = raiseLokey lokey key' := by
  have hdiv : key / 2 ^ 30 ≤ key' / 2 ^ 30 := Nat.div_le_div_right h
  simp only [raiseLokey, h2fmBase, h2fmZoneBase, rounddown2, freemapLevel1Radix, freemapLevel1Size,
    Nat.reducePow] at *
  omega

/-- Bmap `i` of a loop is that of its own key, with `lokey` raised there. -/
theorem getElem?_bmapLoop {raise : Nat → Nat → Nat}
    (hraise : ∀ {l k k'}, k ≤ k' → raise (raise l k) k' = raise l k')
    (hfit : key + n * freemapLevel0Size ≤ 2 ^ 64) (hi : i < n) :
    (bmapLoop raise hikey n key lokey)[i]? =
      some (boundedBmap (raise lokey (key + i * freemapLevel0Size)) hikey
        (key + i * freemapLevel0Size)) := by
  induction n generalizing key lokey i with
  | zero => omega
  | succ n ih =>
    cases i with
    | zero => simp [bmapLoop]
    | succ i =>
      have hmod : (key + freemapLevel0Size) % 2 ^ 64 = key + freemapLevel0Size := by
        refine Nat.mod_eq_of_lt ?_
        simp only [freemapLevel0Size] at *
        omega
      have hkey : key + freemapLevel0Size + i * freemapLevel0Size =
          key + (i + 1) * freemapLevel0Size := by ring
      rw [bmapLoop, List.getElem?_cons_succ, hmod,
        ih (by rw [Nat.succ_mul] at hfit; omega) (by omega), hkey, hraise (by omega)]

/-- A bmap starts as allocated or as free as a whole. -/
theorem boundedBmap_cases : boundedBmap lokey hikey key = Bmap.initReserved ∨
    boundedBmap lokey hikey key = Bmap.initFree := by
  unfold boundedBmap
  split
  · exact .inl rfl
  · exact .inr rfl

/-- The segments of a leaf have the `lokey` of the leaf. -/
theorem raiseLokey_segment (hkey : freemapLevel1Size ∣ key) (hi : i < freemapCount) :
    raiseLokey lokey (key + i * freemapLevel0Size) = raiseLokey lokey key := by
  obtain ⟨q, rfl⟩ := hkey
  simp only [raiseLokey, h2fmBase, h2fmZoneBase, rounddown2, freemapLevel1Radix, freemapLevel1Size,
    freemapLevel0Size, freemapCount, Nat.reducePow] at *
  omega

/-- A segment of a leaf ends past the volume, rounded down, or past the `hikey` of its leaf
alike. -/
theorem freemapEnd_le_iff (hkey : freemapLevel1Size ∣ key) (hfit : key + freemapLevel1Size < 2 ^ 64)
    (hi : i < freemapCount) :
    freemapEnd hmp key ≤ key + i * freemapLevel0Size ↔
      rounddown2 hmp.totalSize segSize ≤ key + i * freemapLevel0Size := by
  obtain ⟨q, rfl⟩ := hkey
  simp only [freemapEnd, Nat.mod_eq_of_lt hfit]
  split
  · rfl
  · simp only [rounddown2, freemapLevel1Size, freemapLevel0Size, freemapCount, segSize] at *
    omega

end

/-- Below the last leaf of the key space, the start bitmap of a window of `n` leaves has at every
segment the bmap, all allocated or all free, that `hammer2_freemap_init` makes there for the
leaf. -/
theorem cbinfoWindow_eq_leaves (hmp : FreemapDev) {sbase n i : Nat}
    (hbase : freemapLevel1Size ∣ sbase) (hfit : sbase + n * freemapLevel1Size < 2 ^ 64)
    (hi : i < n * freemapCount) :
    ∃ b, (cbinfoWindow hmp sbase (n * freemapCount))[i]? = some b ∧
      (freemapLeafInit hmp (sbase + i / freemapCount * freemapLevel1Size))[i % freemapCount]? =
        some b ∧
      (b = Bmap.initReserved ∨ b = Bmap.initFree) := by
  have hleaf : freemapLevel1Size ∣ sbase + i / freemapCount * freemapLevel1Size :=
    hbase.add (Nat.dvd_mul_left _ _)
  have hseg : i % freemapCount < freemapCount := Nat.mod_lt _ (by decide)
  have hend : sbase + i / freemapCount * freemapLevel1Size + freemapLevel1Size < 2 ^ 64 := by
    simp only [freemapCount, freemapLevel1Size] at *
    omega
  have hkey : sbase + i * freemapLevel0Size = sbase + i / freemapCount * freemapLevel1Size +
      i % freemapCount * freemapLevel0Size := by
    simp only [freemapCount, freemapLevel1Size, freemapLevel0Size]
    omega
  refine ⟨_, getElem?_bmapLoop raiseLokey_raiseLokey ?_ hi, ?_, boundedBmap_cases⟩
  · simp only [freemapCount, freemapLevel1Size, freemapLevel0Size] at *
    omega
  · rw [freemapLeafInit, getElem?_bmapLoop (fun _ => rfl) ?_ hseg, hkey,
      raiseLokey_segment hleaf hseg, boundedBmap, boundedBmap]
    · simp only [freemapEnd_le_iff hleaf hend hseg]
    · simp only [freemapCount, freemapLevel1Size, freemapLevel0Size] at *
      omega

/-- A segment of the second leaf of a volume of 2 GB, in the window and in the leaf. -/
theorem cbinfoWindow_eq_leaves_second : ∃ b, (cbinfoWindow ⟨0, 2 ^ 31⟩ 0 512)[300]? = some b ∧
    (freemapLeafInit ⟨0, 2 ^ 31⟩ (2 ^ 30))[44]? = some b ∧
    (b = Bmap.initReserved ∨ b = Bmap.initFree) :=
  cbinfoWindow_eq_leaves ⟨0, 2 ^ 31⟩ (n := 2) (i := 300) (Nat.dvd_zero _) (by decide) (by decide)

/-- On a volume that reaches into the last leaf of the key space, the window takes its second
segment for free, and `hammer2_freemap_init`, whose `hikey` is 0 there, reserves it. -/
theorem cbinfoWindow_last_leaf :
    (cbinfoWindow ⟨0, 2 ^ 64 - 1⟩ (2 ^ 64 - 2 ^ 30) 256)[1]? = some Bmap.initFree ∧
      (freemapLeafInit ⟨0, 2 ^ 64 - 1⟩ (2 ^ 64 - 2 ^ 30))[1]? = some Bmap.initReserved := by
  decide +kernel

/-! ## The closed forms -/

section
variable {hmp : FreemapDev} (hbeg : hmp.allocatorBeg + segSize ≤ 2 ^ 64)
include hbeg

/-- Raised for a leaf, the allocator's key is the `lokey` of `hammer2_freemap_init`. -/
theorem raiseLokey_allocatorKey (key : Nat) :
    raiseLokey (allocatorKey hmp) key = freemapLokey hmp key := by
  have hlt : hmp.allocatorBeg + (segSize - 1) < 2 ^ 64 := by
    simp only [segSize] at *
    omega
  rw [raiseLokey, allocatorKey, Nat.mod_eq_of_lt hlt]
  rfl

/-- The loop of `cbinfo_bmap_init` gives each segment the bmap of its key. -/
theorem cbinfoWindow_eq {sbase n i : Nat} (hfit : sbase + n * freemapLevel0Size ≤ 2 ^ 64)
    (hi : i < n) :
    (cbinfoWindow hmp sbase n)[i]? = some (cbinfoBmapInit hmp (sbase + i * freemapLevel0Size)) := by
  rw [cbinfoWindow, getElem?_bmapLoop raiseLokey_raiseLokey hfit hi, raiseLokey_allocatorKey hbeg]
  simp [boundedBmap, cbinfoBmapInit, segReserved]

/-- The loop of `hammer2_freemap_init` makes the bmaps of `freemapInit`. -/
theorem freemapLeafInit_eq {key i : Nat} (hfit : key + freemapLevel1Size < 2 ^ 64)
    (hi : i < freemapCount) :
    (freemapLeafInit hmp key)[i]? = some ((freemapInit hmp key).bmap i) := by
  have hend : freemapEnd hmp key = freemapHikey hmp key := by
    simp only [freemapEnd, Nat.mod_eq_of_lt hfit]
    rfl
  rw [freemapLeafInit, getElem?_bmapLoop (fun _ => rfl) hfit.le hi, raiseLokey_allocatorKey hbeg,
    bmap_freemapInit hi, hend]
  simp [boundedBmap, freemapInitBmap, freemapReserved]

end

end Hammer2
