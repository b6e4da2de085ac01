import Mathlib

/-!
# On-media constants

The sizes, radixes and blockref types of `hammer2_disk.h`. A 4MB segment is described by one
`hammer2_bmap_data`, whose bitmap holds two bits for each of the segment's 256 blocks of 16KB. A
freemap leaf holds 256 such segments (1GB), and each 1GB key range starts with a reserved 4MB area.

Reference: `hammer2_disk.h:116-464`, `hammer2_disk.h:708-726`.
-/

namespace Hammer2

/-! ## Rounding to a power of two -/

/-- `rounddown2(x, m)`, and `x & ~(m - 1)`. -/
def rounddown2 (x m : Nat) : Nat := x / m * m

/-- `roundup2(x, m)`, and `(x + (m - 1)) & ~(m - 1)`. -/
def roundup2 (x m : Nat) : Nat := (x + (m - 1)) / m * m

/-! ## Allocation units -/

/-- `HAMMER2_ALLOC_MIN`. -/
def allocMin : Nat := 1024

/-- `HAMMER2_RADIX_MIN`. -/
def radixMin : Nat := 10

/-- `HAMMER2_RADIX_MAX`. -/
def radixMax : Nat := 16

/-- `HAMMER2_PBUFRADIX`. -/
def pbufRadix : Nat := 16

/-- `HAMMER2_PBUFSIZE`: the size of a device buffer. -/
def pbufSize : Nat := 65536

/-- `HAMMER2_SEGSIZE`: the storage one bmap describes. -/
def segSize : Nat := 4194304

/-! ## Freemap geometry -/

/-- `HAMMER2_FREEMAP_BLOCK_RADIX`. -/
def freemapBlockRadix : Nat := 14

/-- `HAMMER2_FREEMAP_BLOCK_SIZE`: the storage one pair of bits describes. -/
def freemapBlockSize : Nat := 16384

/-- `HAMMER2_FREEMAP_COUNT`: segments in a freemap leaf. -/
def freemapCount : Nat := 256

/-- `HAMMER2_FREEMAP_LEVEL0_RADIX`. -/
def freemapLevel0Radix : Nat := 22

/-- `HAMMER2_FREEMAP_LEVEL0_SIZE`: 4MB. -/
def freemapLevel0Size : Nat := 4194304

/-- `HAMMER2_FREEMAP_LEVEL1_RADIX`. -/
def freemapLevel1Radix : Nat := 30

/-- `HAMMER2_FREEMAP_LEVEL1_SIZE`: 1GB, the storage of one freemap leaf. -/
def freemapLevel1Size : Nat := 1073741824

/-- `HAMMER2_BMAP_ELEMENTS`. -/
def bmapElements : Nat := 8

/-- `HAMMER2_BMAP_BITS_PER_ELEMENT`. -/
def bmapBitsPerElement : Nat := 64

/-- `HAMMER2_BMAP_BLOCKS_PER_ELEMENT`. -/
def bmapBlocksPerElement : Nat := 32

/-- `HAMMER2_BMAP_INDEX_SIZE`: the storage of one bitmap element. -/
def bmapIndexSize : Nat := 524288

/-- `HAMMER2_BMAP_SIZE`. -/
def bmapSize : Nat := 4194304

/-- `HAMMER2_ZONE_SEG64`: the reserved area at the base of a zone. -/
def zoneSeg : Nat := 4194304

/-- `HAMMER2_ZONE_BYTES64`: the distance between volume headers. -/
def zoneBytes : Nat := 2147483648

/-- `H2FMBASE(key, radix)`. -/
def h2fmBase (key radix : Nat) : Nat := rounddown2 key (2 ^ radix)

/-- `H2FMZONEBASE(key)`. -/
def h2fmZoneBase (key : Nat) : Nat := rounddown2 key freemapLevel1Size

/-! ## Blockref types -/

/-- `HAMMER2_BREF_TYPE_*`. -/
inductive BrefType where
  | empty | inode | indirect | data | dirent | freemapNode | freemapLeaf | invalid
  | freemap | volume
  deriving DecidableEq, Repr

/-- The on-media number of a blockref type. -/
def BrefType.code : BrefType → Nat
  | .empty => 0
  | .inode => 1
  | .indirect => 2
  | .data => 3
  | .dirent => 4
  | .freemapNode => 5
  | .freemapLeaf => 6
  | .invalid => 7
  | .freemap => 254
  | .volume => 255

end Hammer2
