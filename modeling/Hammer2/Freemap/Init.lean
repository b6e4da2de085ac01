import Hammer2.Freemap.Bmap

/-!
# Initialising a freemap leaf

`freemapInit` is `hammer2_freemap_init`: of the 256 segments of a leaf, those below the static
allocation area, in the reserved 4MB at the base of the leaf's 1GB, or past the end of the volume
are marked allocated, the others are left free.

Reference: `hammer2_freemap.c:758-820`.
-/

namespace Hammer2

/-- The fields of `hammer2_dev` and its volume data that bound the storage open to allocation. -/
structure FreemapDev where
  allocatorBeg : Nat
  totalSize : Nat
  deriving DecidableEq, Repr

/-- A freemap leaf: 256 bmaps, and the byte hint kept in the leaf's blockref. -/
structure FreemapLeaf where
  bmdata : Vector Bmap 256
  avail : Nat
  deriving DecidableEq

/-- `chain->data->bmdata[i]`. -/
def FreemapLeaf.bmap (leaf : FreemapLeaf) (i : Nat) : Bmap := leaf.bmdata[i]?.getD Bmap.initFree

/-- The leaf with segment `i` replaced. -/
def FreemapLeaf.setBmap (leaf : FreemapLeaf) (i : Nat) (b : Bmap) : FreemapLeaf :=
  { leaf with bmdata := leaf.bmdata.setIfInBounds i b }

theorem FreemapLeaf.bmap_setBmap {leaf : FreemapLeaf} {i j : Nat} {b : Bmap} (hi : i < 256) :
    (leaf.setBmap i b).bmap j = if j = i then b else leaf.bmap j := by
  simp only [bmap, setBmap, Vector.getElem?_setIfInBounds]
  by_cases h : i = j
  · subst h; simp [hi]
  · rw [if_neg h, if_neg (Ne.symm h)]

section
variable (hmp : FreemapDev) (key : Nat)

/-- `lokey`: the first free segment of the leaf at `key`. -/
def freemapLokey : Nat :=
  max (max (roundup2 hmp.allocatorBeg segSize) (h2fmBase key freemapLevel1Radix))
    (h2fmZoneBase key + zoneSeg)

/-- `hikey`: the end of the free segments of the leaf at `key`. -/
def freemapHikey : Nat :=
  if hmp.totalSize < key + freemapLevel1Size then rounddown2 hmp.totalSize segSize
  else key + freemapLevel1Size

/-- The test of the loop: the segment at `segKey` is not open to allocation. -/
def freemapReserved (segKey : Nat) : Bool :=
  segKey < freemapLokey hmp key || freemapHikey hmp key ≤ segKey

/-- The bmap the loop writes for segment `count`. -/
def freemapInitBmap (count : Nat) : Bmap :=
  if freemapReserved hmp key (key + count * freemapLevel0Size) then Bmap.initReserved
  else Bmap.initFree

/-- `hammer2_freemap_init`. -/
def freemapInit : FreemapLeaf where
  bmdata := Vector.ofFn fun count => freemapInitBmap hmp key count
  avail := freemapLevel1Size - freemapLevel0Size *
    ((List.range freemapCount).countP fun count =>
      freemapReserved hmp key (key + count * freemapLevel0Size))

end

section
variable {hmp : FreemapDev} {key : Nat}

/-- A segment is initialised free or reserved. -/
theorem freemapInitBmap_cases {count : Nat} :
    freemapInitBmap hmp key count = Bmap.initFree ∨
      freemapInitBmap hmp key count = Bmap.initReserved := by
  unfold freemapInitBmap
  split
  · exact Or.inr rfl
  · exact Or.inl rfl

theorem bmap_freemapInit {count : Nat} (h : count < 256) :
    (freemapInit hmp key).bmap count = freemapInitBmap hmp key count := by
  have hget : (freemapInit hmp key).bmdata[count]? = some (freemapInitBmap hmp key count) := by
    rw [freemapInit, Vector.getElem?_ofFn, dif_pos h]
  rw [FreemapLeaf.bmap, hget, Option.getD_some]

end

end Hammer2
