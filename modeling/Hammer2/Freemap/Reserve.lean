import Hammer2.Freemap.Init
import Hammer2.Lib.Run

/-!
# Storage of the freemap itself

Freemap nodes and leaves are not allocated from the freemap: each has eight fixed blocks in the 4MB
reserved at the base of a 1GB zone, and a modification moves to the next of the eight
(`freemapReserve`). A chain that is already modified keeps its block until it is flushed.

The system below runs flush cycles over the whole freemap. A flush goes over the children of a node
twice and drops their locks in between, so that it may write a chain, find it modified again and
write it again: the steps are the modifications and the writes of single chains. When the flush of
`fchain` has come to its end, what was written last is what the next volume header refers to; the
header is then written or, because of an error, is not. What counts for a chain is how often it was
written since.

Reference: `hammer2_freemap.c:58-152`, `hammer2_chain.c:1436-1620`, `hammer2_flush.c:470-640`,
`hammer2_flush.c:1249-1370`, `hammer2_disk.h:178-380`.
-/

namespace Hammer2

open Transition

/-- `HAMMER2_ZONE_FREEMAP_00`. -/
def zoneFreemap00 : Nat := 1

/-- `HAMMER2_ZONE_FREEMAP_INC`. -/
def zoneFreemapInc : Nat := 5

/-- `HAMMER2_NFREEMAPS`. -/
def nfreemaps : Nat := 8

theorem nfreemaps_pos : 0 < nfreemaps := by decide

/-- `hammer2_getradix(HAMMER2_FREEMAP_LEVELN_PSIZE)`: 32KB. -/
def freemapPradix : Nat := 15

/-- The switch of `hammer2_freemap_reserve` over `keybits`: `HAMMER2_ZONEFM_LEVEL1..5`. -/
def zonefmLevel : Nat → Option Nat
  | 62 => some 4
  | 54 => some 3
  | 46 => some 2
  | 38 => some 1
  | 30 => some 0
  | _ => none

/-- The block selection index after the one `data_off` stands for. -/
def reserveIndex (dataOff : Nat) : Nat :=
  if dataOff - dataOff % 64 = 0 then 0
  else
    let off := (dataOff - dataOff % 64) % segSize / pbufSize
    let index := (off - zoneFreemap00) / zoneFreemapInc + 1
    if index = nfreemaps then 0 else index

/-- `hammer2_freemap_reserve`: the new `data_off`, or nothing for a bad `keybits`. The radix is
added to an offset that has its bits clear. -/
def freemapReserve (key keybits dataOff radix : Nat) : Option Nat :=
  (zonefmLevel keybits).map fun level =>
    h2fmBase key keybits +
      (reserveIndex dataOff * zoneFreemapInc + zoneFreemap00 + level) * pbufSize + radix

/-- A freemap leaf (level 0) or node (levels 1 to 4), with its key at the start of its range. -/
structure FreemapChain where
  level : Fin 5
  key : Nat
  aligned : 2 ^ (freemapLevel1Radix + 8 * level.val) ∣ key
  deriving DecidableEq

namespace FreemapChain

/-- `HAMMER2_FREEMAP_LEVEL1_RADIX` to `HAMMER2_FREEMAP_LEVEL5_RADIX`. -/
def keybits (x : FreemapChain) : Nat := freemapLevel1Radix + 8 * x.level.val

/-- The `i`-th of the chain's blocks. -/
def block (x : FreemapChain) (i : Nat) : Nat :=
  x.key + (i * zoneFreemapInc + zoneFreemap00 + x.level.val) * pbufSize

/-- The `data_off` of the `i`-th block. -/
def blockref (x : FreemapChain) (i : Nat) : Nat := x.block i + freemapPradix

/-- `hammer2_freemap_reserve` of the chain at `dataOff`. -/
def reserve (x : FreemapChain) (dataOff : Nat) : Option Nat :=
  freemapReserve x.key x.keybits dataOff freemapPradix

variable {x y : FreemapChain} {i j : Nat}

/-- The level is read off the key bits. -/
theorem zonefmLevel_keybits (x : FreemapChain) : zonefmLevel x.keybits = some x.level.val := by
  unfold keybits
  generalize x.level = l
  revert l
  decide

/-- The zone of a chain starts at its key. -/
theorem h2fmBase_key (x : FreemapChain) : h2fmBase x.key x.keybits = x.key :=
  Nat.div_mul_cancel x.aligned

/-- A key is aligned to its zone. -/
theorem key_zone (x : FreemapChain) : freemapLevel1Size ∣ x.key :=
  (pow_dvd_pow 2 (Nat.le_add_right _ _)).trans x.aligned

/-- The offset without the radix is the block. -/
theorem blockref_mod (x : FreemapChain) (i : Nat) :
    x.blockref i - x.blockref i % 64 = x.block i ∧ 0 < x.block i := by
  obtain ⟨z, hz⟩ := x.key_zone
  unfold blockref block
  rw [hz]
  simp only [freemapLevel1Size, zoneFreemapInc, zoneFreemap00, pbufSize, freemapPradix]
  omega

/-- The next copy follows the one in use, around the ring of copies. -/
theorem reserveIndex_blockref (hi : i < nfreemaps) :
    reserveIndex (x.blockref i) = (i + 1) % nfreemaps := by
  obtain ⟨z, hz⟩ := x.key_zone
  have hl := x.level.isLt
  obtain ⟨hoff, hpos⟩ := x.blockref_mod i
  -- Within the 4MB segment the block's number tells its set.
  have hblk : x.block i % segSize / pbufSize = i * 5 + 1 + x.level.val := by
    unfold block
    rw [hz]
    simp only [freemapLevel1Size, zoneFreemapInc, zoneFreemap00, pbufSize, segSize, nfreemaps] at *
    omega
  unfold reserveIndex
  rw [hoff, if_neg (Nat.ne_of_gt hpos)]
  dsimp only
  have hset : (i * 5 + 1 + x.level.val - zoneFreemap00) / zoneFreemapInc = i := by
    simp only [zoneFreemap00, zoneFreemapInc]
    omega
  rw [hblk, hset]
  split
  · next h => rw [h, Nat.mod_self]
  · next h => rw [Nat.mod_eq_of_lt (lt_of_le_of_ne hi h)]

/-- The first block of a chain is its block 0. -/
theorem reserve_zero (x : FreemapChain) : x.reserve 0 = some (x.blockref 0) := by
  rw [reserve, freemapReserve, zonefmLevel_keybits, h2fmBase_key]
  rfl

/-- A modification moves to the next of the eight blocks. -/
theorem reserve_blockref (hi : i < nfreemaps) :
    x.reserve (x.blockref i) = some (x.blockref ((i + 1) % nfreemaps)) := by
  rw [reserve, freemapReserve, zonefmLevel_keybits, h2fmBase_key, reserveIndex_blockref hi]
  rfl

/-- The blocks of all chains of all levels are different. -/
theorem block_inj (hi : i < nfreemaps) (hj : j < nfreemaps) (h : x.block i = y.block j) :
    x = y ∧ i = j := by
  obtain ⟨zx, hzx⟩ := x.key_zone
  obtain ⟨zy, hzy⟩ := y.key_zone
  have hlx := x.level.isLt
  have hly := y.level.isLt
  have hnum : i * 5 + 1 + x.level.val = j * 5 + 1 + y.level.val ∧ x.key = y.key := by
    unfold block at h
    rw [hzx, hzy] at h ⊢
    simp only [freemapLevel1Size, zoneFreemapInc, zoneFreemap00, pbufSize, nfreemaps] at *
    omega
  have hlevel : x.level = y.level := Fin.ext (by omega)
  obtain ⟨l, k, ha⟩ := x
  obtain ⟨l', k', ha'⟩ := y
  obtain ⟨hij, rfl⟩ := hnum
  cases hlevel
  exact ⟨rfl, by dsimp only at hij; omega⟩

/-- A blockref tells its chain and its copy. -/
theorem blockref_inj (hi : i < nfreemaps) (hj : j < nfreemaps) (h : x.blockref i = y.blockref j) :
    x = y ∧ i = j :=
  block_inj hi hj (Nat.add_right_cancel h)

/-- The device block of a copy is the copy. -/
theorem rounddown2_blockref (x : FreemapChain) (i : Nat) :
    rounddown2 (x.blockref i) pbufSize = x.block i := by
  obtain ⟨z, hz⟩ := x.key_zone
  unfold rounddown2 blockref block
  rw [hz]
  simp only [freemapLevel1Size, zoneFreemapInc, zoneFreemap00, pbufSize, freemapPradix]
  omega

/-- A block lies in the 4MB at the base of a 1GB zone, past the volume header. -/
theorem block_reserved (hi : i < nfreemaps) :
    x.key < x.block i ∧ x.block i + 2 ^ freemapPradix ≤ x.key + zoneSeg := by
  have hl := x.level.isLt
  unfold block
  simp only [zoneFreemapInc, zoneFreemap00, pbufSize, freemapPradix, zoneSeg, nfreemaps] at *
  omega

/-- The segment of a block is not open to allocation in the leaf that `hammer2_freemap_init`
makes. -/
theorem freemapInit_block {hmp : FreemapDev} {key count : Nat} (hi : i < nfreemaps)
    (hkey : freemapLevel1Size ∣ key) (hc : count < 256)
    (hlo : key + count * freemapLevel0Size ≤ x.block i)
    (hhi : x.block i < key + (count + 1) * freemapLevel0Size) :
    (freemapInit hmp key).bmap count = Bmap.initReserved := by
  obtain ⟨hb, hb'⟩ := block_reserved (x := x) hi
  obtain ⟨z, hz⟩ := x.key_zone
  obtain ⟨z', rfl⟩ := hkey
  rw [bmap_freemapInit hc, freemapInitBmap, if_pos]
  rw [hz] at hb hb'
  have hcount : count = 0 ∧ z = z' := by
    simp only [freemapLevel1Size, freemapLevel0Size, zoneSeg, freemapPradix, Nat.reducePow] at *
    omega
  obtain ⟨rfl, rfl⟩ := hcount
  rw [freemapReserved, Bool.or_eq_true, decide_eq_true_eq]
  refine Or.inl (lt_of_lt_of_le ?_ (le_max_right _ _))
  rw [h2fmZoneBase, rounddown2, Nat.mul_div_cancel_left _ (by decide)]
  simp only [freemapLevel1Size, freemapLevel0Size, zoneSeg]
  omega

end FreemapChain

/-! ## Flush cycles -/

/-- A freemap chain in memory; `written` is its `data_off` at its last write, 0 if there is none. -/
structure FreemapNode where
  dataOff : Nat
  modified : Bool
  written : Nat
  deriving DecidableEq, Repr

/-- `hammer2_chain_modify` of the freemap chain `x`. -/
def FreemapNode.modify (x : FreemapChain) (c : FreemapNode) : FreemapNode :=
  if c.modified then c
  else match x.reserve c.dataOff with
    | some off => { c with dataOff := off, modified := true }
    | none => c

/-- The part of `hammer2_flush_core` that writes the chain, and hands its `data_off` to the parent.
A chain that is not modified has been written as it is. -/
def FreemapNode.write (c : FreemapNode) : FreemapNode :=
  { c with modified := false, written := if c.modified then c.dataOff else c.written }

/-- The freemap: its chains in memory, the `data_off` of each chain in the last freemap flushed
completely and in the last volume header written (0 if it is not there), and how often the chain was
written since either. -/
structure FreemapSys where
  node : FreemapChain → FreemapNode
  synced : FreemapChain → Nat
  header : FreemapChain → Nat
  sinceSync : FreemapChain → Nat
  sinceHeader : FreemapChain → Nat

/-- The steps: a chain is modified, by an allocation or because a child of it was written; a flush
writes a chain, any number of times; the flush of `fchain` has come to its end without an error; the
volume header is written; the volume is mounted after a crash. -/
inductive FreemapAct
  | modify (x : FreemapChain)
  | write (x : FreemapChain)
  | complete
  | writeHeader
  | mount

namespace FreemapSys

/-- A write of `x` counts. -/
def counted (s : FreemapSys) (x : FreemapChain) (n : FreemapChain → Nat) : FreemapChain → Nat :=
  Function.update n x (if (s.node x).modified then n x + 1 else n x)

/-- One step. -/
def next (s : FreemapSys) : FreemapAct → FreemapSys
  | .modify x => { s with node := Function.update s.node x ((s.node x).modify x) }
  | .write x =>
    { s with
      node := Function.update s.node x (s.node x).write
      sinceSync := s.counted x s.sinceSync
      sinceHeader := s.counted x s.sinceHeader }
  | .complete => { s with synced := fun x => (s.node x).written, sinceSync := fun _ => 0 }
  | .writeHeader => { s with header := s.synced, sinceHeader := s.sinceSync }
  | .mount =>
    { s with
      node := fun x => ⟨s.header x, false, s.header x⟩
      synced := s.header, sinceSync := fun _ => 0, sinceHeader := fun _ => 0 }

/-- The step calls `hammer2_freemap_reserve` for the chain `x`. -/
def Picks (s : FreemapSys) (a : FreemapAct) (x : FreemapChain) : Prop :=
  (s.node x).modified = false ∧ a = .modify x

end FreemapSys

def FreemapStep (s : FreemapSys) (a : FreemapAct) (s' : FreemapSys) : Prop := s' = s.next a

/-- The condition on a step that picks a block for a chain: the chain was written fewer than seven
times since the freemap flush that the last volume header records. -/
def FreemapOk (s : FreemapSys) (a : FreemapAct) : Prop :=
  ∀ x, s.Picks a x → s.sinceHeader x < 7

/-- A freemap just mounted: every chain is as the header has it. -/
structure FreemapMounted (s : FreemapSys) : Prop where
  placed : ∀ x, s.header x = 0 ∨ ∃ i < nfreemaps, s.header x = x.blockref i
  node : ∀ x, s.node x = ⟨s.header x, false, s.header x⟩
  synced : s.synced = s.header
  since : ∀ x, s.sinceSync x = 0 ∧ s.sinceHeader x = 0

/-- What the block `off` picked for the chain `x` has to be: no other chain uses it, it is in the
reserved area of a zone, `hammer2_freemap_init` opens no such storage to allocation, and the header
that a mount would select does not refer to it. -/
structure FreshBlock (s : FreemapSys) (x : FreemapChain) (off : Nat) : Prop where
  others : ∀ y ≠ x, off ≠ (s.node y).dataOff ∧ off ≠ s.synced y ∧ ∀ i < nfreemaps,
    off ≠ y.blockref i
  reserved : ∃ zone, freemapLevel1Size ∣ zone ∧ zone < rounddown2 off pbufSize ∧
    rounddown2 off pbufSize + 2 ^ freemapPradix ≤ zone + zoneSeg
  closed : ∀ hmp key count, freemapLevel1Size ∣ key → count < 256 →
    key + count * freemapLevel0Size ≤ rounddown2 off pbufSize →
    rounddown2 off pbufSize < key + (count + 1) * freemapLevel0Size →
    (freemapInit hmp key).bmap count = Bmap.initReserved
  header : ∀ y, off ≠ s.header y

section
variable {x y : FreemapChain} {c : FreemapNode} {ref n off : Nat}
    {s s' : FreemapSys} {a : FreemapAct}

/-- A `data_off` that the chain `x` can have. -/
def Placed (x : FreemapChain) (off : Nat) : Prop := off = 0 ∨ ∃ i < nfreemaps, off = x.blockref i

/-- The chain is at most `n` modifications past the block `ref`, and one more if it is modified
now. -/
def Since (x : FreemapChain) (c : FreemapNode) (ref n : Nat) : Prop :=
  ref = 0 ∨ ∃ i < nfreemaps, ∃ k, ref = x.blockref i ∧
    c.dataOff = x.blockref ((i + k) % nfreemaps) ∧ k ≤ n + c.modified.toNat

/-- A block of a chain is told from the `data_off` of a chain that has none. -/
theorem FreemapChain.blockref_ne_zero (x : FreemapChain) (i : Nat) : x.blockref i ≠ 0 :=
  Nat.ne_of_gt (Nat.add_pos_right _ (by decide))

/-- What one chain can have as its block no other chain can. -/
theorem Placed.ne_of_ne (h : Placed y off) (hxy : y ≠ x) {i : Nat} (hi : i < nfreemaps) :
    x.blockref i ≠ off := by
  rcases h with rfl | ⟨j, hj, rfl⟩
  · exact x.blockref_ne_zero i
  · exact fun heq => hxy (FreemapChain.blockref_inj hi hj heq).1.symm

/-- The block that modifications are counted from is one the chain can have. -/
theorem Since.placed (h : Since x c ref n) : Placed x ref := by
  rcases h with h | ⟨i, hi, -, hr, -⟩
  · exact Or.inl h
  · exact Or.inr ⟨i, hi, hr⟩

/-- A chain is no modification past the block it has. -/
theorem Since.refl (h : Placed x c.dataOff) : Since x c c.dataOff 0 := by
  rcases h with h | ⟨i, hi, hr⟩
  · exact Or.inl h
  · exact Or.inr ⟨i, hi, 0, hr, by rw [Nat.add_zero, Nat.mod_eq_of_lt hi]; exact hr, Nat.zero_le _⟩

/-- A chain that is written may be modified once more before its next write. -/
theorem Since.write (h : Since x c ref n) :
    Since x c.write ref (if c.modified then n + 1 else n) := by
  rcases h with h | ⟨i, hi, k, hr, hd, hk⟩
  · exact Or.inl h
  · refine Or.inr ⟨i, hi, k, hr, hd, hk.trans ?_⟩
    cases c.modified with
    | true => exact Nat.le_refl _
    | false => exact Nat.le_refl _

/-- A modification leaves the chain as it is, or takes the next block. -/
theorem FreemapNode.modify_cases (h : Placed x c.dataOff) :
    (c.modified = true ∧ c.modify x = c) ∨ c.modified = false ∧ ∃ i < nfreemaps,
      x.reserve c.dataOff = some (x.blockref i) ∧ c.modify x = ⟨x.blockref i, true, c.written⟩ ∧
      (c.dataOff = 0 ∨ ∃ j < nfreemaps, c.dataOff = x.blockref j ∧ i = (j + 1) % nfreemaps) := by
  cases hm : c.modified with
  | true => exact Or.inl ⟨rfl, by rw [FreemapNode.modify, if_pos hm]⟩
  | false =>
    have hmod : ∀ i, x.reserve c.dataOff = some (x.blockref i) →
        c.modify x = ⟨x.blockref i, true, c.written⟩ := fun i hi => by
      rw [FreemapNode.modify, if_neg (by rw [hm]; decide), hi]
    refine Or.inr ⟨rfl, ?_⟩
    rcases h with h0 | ⟨j, hj, hd⟩
    · have hres : x.reserve c.dataOff = some (x.blockref 0) := by rw [h0, x.reserve_zero]
      exact ⟨0, by decide, hres, hmod 0 hres, Or.inl h0⟩
    · have hres : x.reserve c.dataOff = some (x.blockref ((j + 1) % nfreemaps)) := by
        rw [hd, FreemapChain.reserve_blockref hj]
      exact ⟨_, Nat.mod_lt _ nfreemaps_pos, hres, hmod _ hres, Or.inr ⟨j, hj, hd, rfl⟩⟩

/-- A write of a chain that is not modified does nothing. -/
theorem FreemapNode.write_of_clean (h : c.modified = false) : c.write = c := by
  cases c
  cases h
  rfl

/-- A modification writes nothing. -/
theorem FreemapNode.modify_written (x : FreemapChain) (c : FreemapNode) :
    (c.modify x).written = c.written := by
  unfold FreemapNode.modify
  split
  · rfl
  · split <;> rfl

/-- A modification leaves the chain in one of its blocks. -/
theorem Placed.modify (h : Placed x c.dataOff) : Placed x (c.modify x).dataOff := by
  rcases FreemapNode.modify_cases h with ⟨-, heq⟩ | ⟨-, i, hi, -, heq, -⟩
  · rw [heq]; exact h
  · rw [heq]; exact Or.inr ⟨i, hi, rfl⟩

/-- A modification of a chain is one step around its blocks, and sets the flag that accounts for
it. -/
theorem Since.modify (h : Since x c ref n) (hp : Placed x c.dataOff) :
    Since x (c.modify x) ref n := by
  rcases FreemapNode.modify_cases hp with ⟨-, heq⟩ | ⟨hm, i, hi, -, heq, hj⟩
  · rw [heq]; exact h
  · rw [heq]
    rcases h with h | ⟨j, hj', k, hr, hd, hk⟩
    · exact Or.inl h
    · refine Or.inr ⟨j, hj', k + 1, hr, ?_, ?_⟩
      · rcases hj with h0 | ⟨j₂, hj₂, hd₂, rfl⟩
        · exact absurd (hd.symm.trans h0) (x.blockref_ne_zero _)
        · obtain ⟨-, heq⟩ := FreemapChain.blockref_inj (Nat.mod_lt _ nfreemaps_pos) hj₂
            (hd.symm.trans hd₂)
          rw [← heq, Nat.mod_add_mod, Nat.add_assoc]
      · rw [hm] at hk
        exact Nat.add_le_add_right hk 1

/-- What a run keeps of every chain. -/
structure FreemapInv (s : FreemapSys) : Prop where
  placed : ∀ x, Placed x (s.node x).dataOff
  written : ∀ x, Since x (s.node x) (s.node x).written 0
  synced : ∀ x, Since x (s.node x) (s.synced x) (s.sinceSync x)
  header : ∀ x, Since x (s.node x) (s.header x) (s.sinceHeader x)

/-- A mount begins with every chain in the block that the header has. -/
theorem FreemapMounted.inv (h : FreemapMounted s) : FreemapInv s := by
  have hp : ∀ x, Placed x (s.node x).dataOff := fun x => by rw [h.node x]; exact h.placed x
  have hs : ∀ x, Since x (s.node x) (s.header x) 0 := fun x => by
    have := Since.refl (hp x)
    rwa [h.node x] at this ⊢
  refine ⟨hp, fun x => ?_, fun x => ?_, fun x => ?_⟩
  · have := hs x
    rwa [h.node x] at this ⊢
  · rw [(h.since x).1, h.synced]; exact hs x
  · rw [(h.since x).2]; exact hs x

/-- A modification keeps the block that was written last, and what it counts from. -/
theorem FreemapInv.modify (h : FreemapInv s) (y : FreemapChain) :
    FreemapInv (s.next (.modify y)) := by
  have hupd : ∀ x, (s.next (.modify y)).node x = s.node x ∨
      (s.next (.modify y)).node x = (s.node x).modify x := fun x => by
    by_cases hxy : x = y
    · subst hxy
      exact Or.inr (Function.update_self ..)
    · exact Or.inl (Function.update_of_ne hxy ..)
  refine ⟨fun x => ?_, fun x => ?_, fun x => ?_, fun x => ?_⟩ <;>
    rcases hupd x with heq | heq <;> rw [heq]
  · exact h.placed x
  · exact (h.placed x).modify
  · exact h.written x
  · rw [FreemapNode.modify_written]
    exact (h.written x).modify (h.placed x)
  · exact h.synced x
  · exact (h.synced x).modify (h.placed x)
  · exact h.header x
  · exact (h.header x).modify (h.placed x)

/-- A write of a chain counts for one modification of it, and for none of another chain. -/
theorem FreemapInv.since_write {m : FreemapChain → Nat} (y : FreemapChain)
    (hs : Since x (s.node x) ref (m x)) :
    Since x ((s.next (.write y)).node x) ref (s.counted y m x) := by
  by_cases hxy : x = y
  · subst hxy
    have hn : (s.next (.write x)).node x = (s.node x).write := Function.update_self ..
    rw [hn, FreemapSys.counted, Function.update_self]
    exact hs.write
  · have hn : (s.next (.write y)).node x = s.node x := Function.update_of_ne hxy ..
    rw [hn, FreemapSys.counted, Function.update_of_ne hxy]
    exact hs

/-- A chain that was written has its own block as the one written last. -/
theorem FreemapInv.write (h : FreemapInv s) (y : FreemapChain) :
    FreemapInv (s.next (.write y)) := by
  refine ⟨fun x => ?_, fun x => ?_, fun x => since_write y (h.synced x),
    fun x => since_write y (h.header x)⟩
  · by_cases hxy : x = y
    · subst hxy
      have hn : (s.next (.write x)).node x = (s.node x).write := Function.update_self ..
      rw [hn]; exact h.placed x
    · have hn : (s.next (.write y)).node x = s.node x := Function.update_of_ne hxy ..
      rw [hn]; exact h.placed x
  · by_cases hxy : x = y
    · subst hxy
      have hn : (s.next (.write x)).node x = (s.node x).write := Function.update_self ..
      rw [hn]
      cases hm : (s.node x).modified with
      | true =>
        have hw : (s.node x).write.written = (s.node x).write.dataOff := by
          simp only [FreemapNode.write, hm, if_true]
        rw [hw]
        exact Since.refl (h.placed x)
      | false =>
        rw [FreemapNode.write_of_clean hm]
        exact h.written x
    · have hn : (s.next (.write y)).node x = s.node x := Function.update_of_ne hxy ..
      rw [hn]; exact h.written x

/-- Every step keeps the invariant; the end of a flush makes what was written last the freemap that
counts from then on. -/
theorem FreemapInv.step (h : FreemapInv s) (hs : FreemapStep s a s') : FreemapInv s' := by
  obtain rfl := hs
  cases a with
  | modify y => exact h.modify y
  | write y => exact h.write y
  | complete => exact ⟨h.placed, h.written, h.written, h.header⟩
  | writeHeader => exact ⟨h.placed, h.written, h.synced, h.synced⟩
  | mount =>
    have hp : ∀ x, Placed x (s.header x) := fun x => (h.header x).placed
    have hr : ∀ x, Since x ⟨s.header x, false, s.header x⟩ (s.header x) 0 := fun x =>
      Since.refl (c := ⟨s.header x, false, s.header x⟩) (hp x)
    exact ⟨hp, hr, hr, hr⟩

end

/-- **The freemap of a header that a crash could select is not overwritten**, in every run of flush
cycles whose steps meet the condition `FreemapOk`: whenever a step picks a block for a freemap
chain, the block is a fresh one. -/
theorem freemapReserve_fresh {s₀ s : FreemapSys} {as : List FreemapAct} (h₀ : FreemapMounted s₀)
    (hr : RunMeets FreemapStep FreemapOk s₀ as s) {a : FreemapAct} (hok : FreemapOk s a)
    {x : FreemapChain} (hx : s.Picks a x) :
    ∃ off, x.reserve (s.node x).dataOff = some off ∧ FreshBlock s x off := by
  have h := hr.invariant (fun h _ hs => FreemapInv.step h hs) h₀.inv
  have hlt := hok x hx
  rcases FreemapNode.modify_cases (h.placed x) with ⟨hm, -⟩ | ⟨hm, i, hi, hres, -, hj⟩
  · rw [hx.1] at hm; cases hm
  · refine ⟨x.blockref i, hres, fun y hy => ⟨(h.placed y).ne_of_ne hy hi,
      (h.synced y).placed.ne_of_ne hy hi,
        fun j hj heq => hy (FreemapChain.blockref_inj hi hj heq).1.symm⟩, ⟨x.key, x.key_zone, ?_⟩,
      fun hmp key count hkey hc hlo hhi => ?_, fun y => ?_⟩
    · rw [x.rounddown2_blockref]
      exact FreemapChain.block_reserved hi
    · rw [x.rounddown2_blockref] at hlo hhi
      exact FreemapChain.freemapInit_block hi hkey hc hlo hhi
    · by_cases hxy : y = x
      · subst hxy
        -- Fewer than eight steps around the ring do not lead back.
        rcases h.header y with h0 | ⟨j, hjlt, k, hr, hd, hk⟩
        · rw [h0]; exact y.blockref_ne_zero i
        · rw [hr]
          intro heq
          obtain ⟨-, rfl⟩ := FreemapChain.blockref_inj hi hjlt heq
          rcases hj with h0 | ⟨j₂, hj₂, hd₂, hi₂⟩
          · exact y.blockref_ne_zero _ (hd.symm.trans h0)
          · obtain ⟨-, hjk⟩ := FreemapChain.blockref_inj (Nat.mod_lt _ nfreemaps_pos) hj₂
              (hd.symm.trans hd₂)
            rw [hm] at hk
            simp only [nfreemaps, Bool.toNat_false] at *
            omega
      · exact (h.header y).placed.ne_of_ne hxy hi

section
local instance fiveLevels : NeZero 5 := ⟨by decide⟩

/-- The leaf of the first 1GB. -/
def firstLeaf : FreemapChain := ⟨0, 0, ⟨0, rfl⟩⟩

end

/-- A freemap just mounted, whose only chain is the first leaf in its block 0. -/
def leafMounted : FreemapSys where
  node x :=
    ⟨if x = firstLeaf then firstLeaf.blockref 0 else 0, false,
      if x = firstLeaf then firstLeaf.blockref 0 else 0⟩
  synced x := if x = firstLeaf then firstLeaf.blockref 0 else 0
  header x := if x = firstLeaf then firstLeaf.blockref 0 else 0
  sinceSync _ := 0
  sinceHeader _ := 0

/-- The example is a freemap just mounted. -/
theorem leafMounted_mounted : FreemapMounted leafMounted where
  placed x := by
    unfold leafMounted
    dsimp only
    split
    · next h => exact Or.inr ⟨0, nfreemaps_pos, by rw [h]⟩
    · exact Or.inl rfl
  node _ := rfl
  synced := rfl
  since _ := ⟨rfl, rfl⟩

/-- A cycle whose header is not written: the leaf is modified and the flush is complete. -/
def failedCycle : List FreemapAct := [.modify firstLeaf, .write firstLeaf, .complete]

/-- The freemap after some cycles without a header. -/
def afterFailed : Nat → FreemapSys
  | 0 => leafMounted
  | n + 1 => failedCycle.foldl FreemapSys.next (afterFailed n)

/-- One cycle fails to write its header and the leaf is modified again. -/
theorem freemapReserve_fresh_retry : ∃ off,
    firstLeaf.reserve ((afterFailed 1).node firstLeaf).dataOff = some off ∧
      FreshBlock (afterFailed 1) firstLeaf off := by
  have hok : FreemapOk leafMounted (.modify firstLeaf) := fun _ _ => Nat.zero_lt_succ _
  have hrun : RunMeets FreemapStep FreemapOk leafMounted failedCycle (afterFailed 1) :=
    .cons hok rfl (.cons (fun _ h => by cases h.2) rfl
      (.cons (fun _ h => by cases h.2) rfl (.nil _)))
  refine freemapReserve_fresh leafMounted_mounted hrun (a := .modify firstLeaf) ?_ ⟨rfl, rfl⟩
  rintro x ⟨-, hx⟩
  cases hx
  decide +kernel

/-- The eighth modification after seven writes of the leaf without a header takes the block that the
last header refers to. -/
theorem freemapReserve_wraps :
    (afterFailed 7).Picks (.modify firstLeaf) firstLeaf ∧
      firstLeaf.reserve ((afterFailed 7).node firstLeaf).dataOff =
        some ((afterFailed 7).header firstLeaf) := by
  refine ⟨⟨rfl, rfl⟩, ?_⟩
  decide +kernel

end Hammer2
