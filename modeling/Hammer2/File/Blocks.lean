import Hammer2.Chain.Iterate
import Hammer2.Disk

/-!
# The blocks of a file

A file's data is in the blocks that its tree has and in the folios that are tagged dirty or under
writeback. A folio is a block. Writeback puts the block into the tree and clears the tag after that,
so that it moves no block out of the two together (`Later.data_iff`), and a block that a read of the
tags missed is in the tree at every later read of it (`Later.mem_tree`).

A scan of the tree loses its last block when it ends with the first byte of the block and an
indirect block before it is a blind end of the lookup (`FileChains.iterate_eq_keysIn`).

Reference: `hammer2_vnops.c:1555-1640`, `hammer2_vnops.c:1677-1695`.
-/

namespace Hammer2

/-- The blocks of a set from `lo` to `hi`, in ascending order. -/
def blocksIn (s : Finset Nat) (lo hi : Nat) : List Nat :=
  (List.range (hi + 1)).filter fun b => lo ≤ b ∧ b ∈ s

section
variable {s : Finset Nat} {lo hi b : Nat}

theorem mem_blocksIn : b ∈ blocksIn s lo hi ↔ b ∈ s ∧ lo ≤ b ∧ b ≤ hi := by
  simp only [blocksIn, List.mem_filter, List.mem_range, decide_eq_true_eq, Nat.lt_succ_iff]
  exact ⟨fun ⟨h1, h2, h3⟩ => ⟨h3, h2, h1⟩, fun ⟨h1, h2, h3⟩ => ⟨h3, h2, h1⟩⟩

theorem blocksIn_sorted : (blocksIn s lo hi).Pairwise (· < ·) :=
  List.pairwise_lt_range.filter _

theorem blocksIn_head (h : (blocksIn s lo hi).head? = some b) :
    (b ∈ s ∧ lo ≤ b ∧ b ≤ hi) ∧ ∀ x ∈ s, lo ≤ x → b ≤ x := by
  have hmem := mem_blocksIn.1 (List.mem_of_mem_head? h)
  refine ⟨hmem, fun x hx hlo => ?_⟩
  rcases Nat.lt_or_ge hi x with hxhi | hxhi
  · omega
  · have hxl := mem_blocksIn.2 ⟨hx, hlo, hxhi⟩
    have hsorted := @blocksIn_sorted s lo hi
    cases hl : blocksIn s lo hi with
    | nil => simp [hl] at h
    | cons y l =>
      rw [hl] at h hxl hsorted
      obtain rfl : y = b := by simpa using h
      rcases List.mem_cons.1 hxl with rfl | hxl
      · exact le_rfl
      · exact (List.rel_of_pairwise_cons hsorted hxl).le

theorem blocksIn_head_none (h : (blocksIn s lo hi).head? = none) : ∀ x ∈ s, lo ≤ x → hi < x := by
  intro x hx hlo
  by_contra hhi
  have := mem_blocksIn.2 ⟨hx, hlo, Nat.le_of_not_lt hhi⟩
  rw [List.head?_eq_none_iff.1 h] at this
  cases this

end

/-- The blocks in the tree, those whose folio is tagged, and those right behind a blind end of the
lookup. -/
structure FileMap where
  tree : Finset Nat
  tag : Finset Nat
  blind : Finset Nat
  deriving DecidableEq

namespace FileMap

/-- A scan from `keyBeg` to `keyEnd` does not come to the block. -/
def Lost (f : FileMap) (keyBeg keyEnd b : Nat) : Prop :=
  keyBeg < keyEnd ∧ b * pbufSize = keyEnd ∧ b ∈ f.blind

instance (f : FileMap) (keyBeg keyEnd b : Nat) : Decidable (f.Lost keyBeg keyEnd b) :=
  inferInstanceAs (Decidable (_ ∧ _))

/-- The blocks that a scan from `keyBeg` to `keyEnd` can come to. -/
def seen (f : FileMap) (keyBeg keyEnd : Nat) : Finset Nat :=
  f.tree.filter fun b => ¬ f.Lost keyBeg keyEnd b

/-- The keys of the tree from `keyBeg` to `keyEnd`, as `hammer2_xop_scanall` feeds them. -/
def keysIn (f : FileMap) (keyBeg keyEnd : Nat) : List Nat :=
  (blocksIn (f.seen keyBeg keyEnd) (keyBeg / pbufSize) (keyEnd / pbufSize)).map (· * pbufSize)

/-- `hammer2_seek_tagged`: the first byte from `first` to `last` in a tagged folio. -/
def seekTagged (f : FileMap) (first last : Nat) : Option Nat :=
  (blocksIn f.tag (first / pbufSize) (last / pbufSize)).head?.map fun b => max (b * pbufSize) first

/-- `mapping_tagged`, for either tag. -/
def tagged (f : FileMap) : Bool := f.tag ≠ ∅

/-- A step of the writeback: a tagged block enters the tree, or the tag of one that is there is
cleared. The indirect blocks change with the tree. -/
inductive Writeback (f : FileMap) : FileMap → Prop
  | enter {b : Nat} (blind : Finset Nat) : b ∈ f.tag → Writeback f ⟨insert b f.tree, f.tag, blind⟩
  | clear {b : Nat} (blind : Finset Nat) : b ∈ f.tree → Writeback f ⟨f.tree, f.tag.erase b, blind⟩

/-- The block has data. -/
def Data (f : FileMap) (b : Nat) : Prop := b ∈ f.tree ∨ b ∈ f.tag

/-- Any number of steps of the writeback. -/
def Later : FileMap → FileMap → Prop := Relation.ReflTransGen Writeback

variable {f g : FileMap} {b : Nat}

/-- A scan sees the blocks of the tree that no blind end takes from it. -/
theorem mem_seen {keyBeg keyEnd : Nat} :
    b ∈ f.seen keyBeg keyEnd ↔ b ∈ f.tree ∧ ¬ f.Lost keyBeg keyEnd b := Finset.mem_filter

/-- Writeback moves no block out of the tree and the tags together. -/
theorem Later.data_iff (h : Later f g) : g.Data b ↔ f.Data b := by
  induction h with
  | refl => rfl
  | tail _ hstep ih =>
    rw [← ih]
    cases hstep with
    | @enter c _ hc =>
      simp only [Data, Finset.mem_insert]
      exact ⟨fun h => by rcases h with (rfl | h) | h <;> simp [*], fun h => h.imp_left Or.inr⟩
    | @clear c _ hc =>
      simp only [Data, Finset.mem_erase]
      refine ⟨fun h => h.imp_right And.right, fun h => ?_⟩
      rcases eq_or_ne b c with rfl | hne
      · exact Or.inl hc
      · exact h.imp_right fun h => ⟨hne, h⟩

theorem Later.tree_subset (h : Later f g) : f.tree ⊆ g.tree := by
  induction h with
  | refl => exact Finset.Subset.refl _
  | tail _ hstep ih =>
    cases hstep with
    | enter => exact ih.trans (Finset.subset_insert _ _)
    | clear => exact ih

theorem Later.tag_subset (h : Later f g) : g.tag ⊆ f.tag := by
  induction h with
  | refl => exact Finset.Subset.refl _
  | tail _ hstep ih =>
    cases hstep with
    | enter => exact ih
    | clear => exact (Finset.erase_subset _ _).trans ih

/-- A block with data that has no tag is in the tree from then on. -/
theorem Later.mem_tree (h : Later f g) (hd : f.Data b) (ht : b ∉ f.tag) : b ∈ g.tree :=
  h.tree_subset (hd.resolve_right ht)

end FileMap

/-! ## The chains of a file -/

/-- A file on its chains: the live elements below its inode are the blocks in its tree. -/
structure FileChains (ι : Type*) [DecidableEq ι] extends ChainTree ι where
  map : FileMap
  last_eq : ∀ c, toChainTree.Elem c → toChainTree.last c + 1 = key c + pbufSize
  tree_iff : ∀ c, toChainTree.Elem c → ∃ b ∈ map.tree, key c = b * pbufSize
  elem : ∀ b ∈ map.tree, ∃ c, toChainTree.Elem c ∧ key c = b * pbufSize
  blind_iff : ∀ b, b ∈ map.blind ↔ ∃ x, toChainTree.BlindEnd (b * pbufSize) x

/-- **The scan of the chains gives the keys**: from every start, the calls over a range that begins
with a block return the keys of the blocks in it, but for one that is lost. -/
theorem FileChains.iterate_eq_keysIn {ι : Type*} [DecidableEq ι] (F : FileChains ι) {p : ι}
    (hp : F.Start p) {c keyEnd : Nat} (hbeg : c * pbufSize ≤ keyEnd) (hend : keyEnd < keySpace)
    {maxloops n : Nat} {l : List ι} (h : F.iterate maxloops n p (c * pbufSize) keyEnd = some l) :
    l.map F.key = F.map.keysIn (c * pbufSize) keyEnd := by
  have hpos : 0 < pbufSize := by decide
  obtain ⟨r, hr, hl⟩ := Option.bind_eq_some_iff.1 h
  have hspec := ChainTree.chainLookup_spec hp hbeg hend hr
  obtain ⟨hsort, hmem, hall⟩ := ChainTree.collect_spec hend n hspec hl
  have hlost : ∀ e ∈ l, ∀ b, F.key e = b * pbufSize → ¬ F.map.Lost (c * pbufSize) keyEnd b := by
    rintro e he b hkey ⟨hlt, hb, hblind⟩
    obtain ⟨x, hx⟩ := (F.blind_iff b).1 hblind
    rw [hb] at hx
    exact ChainTree.collect_ne hend hx n hspec (ChainTree.chainLookup_ne hp hend hx hlt hr) hl e he
      (hkey.trans hb)
  have : Std.Irrefl fun a b : Nat => a < b := ⟨lt_irrefl⟩
  have : Std.Antisymm fun a b : Nat => a < b := ⟨fun a b hab hba => absurd hab hba.asymm⟩
  refine List.Pairwise.eq_of_mem_iff (r := fun a b : Nat => a < b) ?_ ?_ fun k => ?_
  · exact List.pairwise_map.2 (hsort.imp fun {a b} hab => (F.key_le_last a).trans_lt hab)
  · exact List.pairwise_map.2 (blocksIn_sorted.imp fun hab => Nat.mul_lt_mul_of_pos_right hab hpos)
  · rw [FileMap.keysIn, List.mem_map, List.mem_map, Nat.mul_div_cancel _ hpos]
    constructor
    · rintro ⟨e, he, rfl⟩
      obtain ⟨helem, hle, hke⟩ := hmem e he
      obtain ⟨b, hb, hkey⟩ := F.tree_iff e helem
      have hlast := F.last_eq e helem
      refine ⟨b, mem_blocksIn.2 ⟨FileMap.mem_seen.2 ⟨hb, hlost e he b hkey⟩, ?_, ?_⟩, hkey.symm⟩
      · have hlt : c * pbufSize < (b + 1) * pbufSize := by
          rw [Nat.succ_mul]
          omega
        exact Nat.lt_succ_iff.1 ((Nat.mul_lt_mul_right hpos).1 hlt)
      · exact (Nat.le_div_iff_mul_le hpos).2 (hkey ▸ hke)
    · rintro ⟨b, hb, rfl⟩
      obtain ⟨hseen, hcb, hbe⟩ := mem_blocksIn.1 hb
      obtain ⟨htree, hnot⟩ := FileMap.mem_seen.1 hseen
      obtain ⟨e, helem, hkey⟩ := F.elem b htree
      have hlast := F.key_le_last e
      have hcb := Nat.mul_le_mul_right pbufSize hcb
      refine ⟨e, (hall e helem (by omega) (hkey ▸ (Nat.le_div_iff_mul_le hpos).1 hbe)).resolve_right
        fun ⟨hke, hlt, x, hx⟩ => hnot ⟨hlt, hkey.symm.trans hke, (F.blind_iff b).2 ⟨x, ?_⟩⟩, hkey⟩
      rw [← hkey, hke]
      exact hx

local instance fileChains : NeZero 5 := ⟨by decide⟩

/-- A block below a gigabyte, under two indirect blocks that end there, and one right behind
them. -/
def punchedTree : ChainTree (Fin 5) where
  root := 0
  key := ![0, 0, 2 ^ 29, 2 ^ 30 - 2 ^ 17, 2 ^ 30]
  keybits := ![0, 30, 29, 16, 16]
  indirect := ![false, true, true, false, false]
  deleted := fun _ => false
  parent := ![0, 0, 1, 2, 0]
  base := ![[some 1, some 4], [some 2], [some 3], [], []]
  rbtree := fun _ => []
  cacheIndex := fun _ => 0
  root_indirect := rfl
  root_top := by decide
  base_fits := by decide +kernel
  rbtree_fits := by simp
  base_sorted := by decide +kernel
  rbtree_sorted := by simp
  shadow := by simp
  base_live := by simp
  parent_eq := by decide
  inside := by decide +kernel

/-- The blocks of these chains. -/
def punchedFile : FileMap := ⟨{16382, 16384}, ∅, {16384}⟩

/-- The tree of the example has two data blocks. -/
theorem punchedTree_elem (c : Fin 5) : punchedTree.Elem c ↔ c = 3 ∨ c = 4 := by
  have hblock : punchedTree.Live 1 := ChainTree.Live.root.child (.inl rfl) (by decide) rfl
  have hnested : punchedTree.Live 2 := hblock.child (.inr rfl) (by decide) rfl
  constructor
  · rintro ⟨-, hnode⟩
    have hcases : ∀ c : Fin 5, c = 3 ∨ c = 4 ∨ c = 0 ∨ punchedTree.indirect c = true := by decide
    rcases hcases c with h | h | h | h
    · exact .inl h
    · exact .inr h
    · exact absurd (.inl h) hnode
    · exact absurd (.inr h) hnode
  · rintro (rfl | rfl)
    · refine ⟨hnested.child (.inr rfl) (by decide) rfl, ?_⟩
      rintro (h | h) <;> exact absurd h (by decide)
    · refine ⟨ChainTree.Live.root.child (.inl rfl) (by decide) rfl, ?_⟩
      rintro (h | h) <;> exact absurd h (by decide)

/-- The outer one of the indirect blocks is a blind end at the gigabyte. -/
theorem punchedTree_blindEnd (b : Nat) :
    b ∈ punchedFile.blind ↔ ∃ x, punchedTree.BlindEnd (b * pbufSize) x := by
  constructor
  · intro hb
    obtain rfl : b = 16384 := Finset.mem_singleton.1 hb
    refine ⟨1, ChainTree.Live.root.child (.inl rfl) (by decide) rfl, rfl, by decide +kernel,
      ⟨2, by decide, by decide +kernel⟩, fun e he => ?_⟩
    rcases (punchedTree_elem e).1 he with rfl | rfl <;> decide +kernel
  · rintro ⟨x, hx⟩
    have hend : ∀ x : Fin 5, punchedTree.indirect x = true → punchedTree.last x + 1 = 2 ^ 30 := by
      decide +kernel
    have hlast := (hend x hx.indirect).symm.trans hx.last_succ
    unfold pbufSize at hlast
    exact Finset.mem_singleton.2 (by omega)

/-- The file on these chains. -/
def punchedChains : FileChains (Fin 5) where
  toChainTree := punchedTree
  map := punchedFile
  last_eq c hc := by
    rcases (punchedTree_elem c).1 hc with rfl | rfl <;> decide +kernel
  tree_iff c hc := by
    rcases (punchedTree_elem c).1 hc with rfl | rfl
    · exact ⟨16382, by decide, by decide +kernel⟩
    · exact ⟨16384, by decide, by decide +kernel⟩
  elem b hb := by
    rcases Finset.mem_insert.1 hb with rfl | hb
    · exact ⟨3, (punchedTree_elem 3).2 (.inl rfl), by decide +kernel⟩
    · obtain rfl := Finset.mem_singleton.1 hb
      exact ⟨4, (punchedTree_elem 4).2 (.inr rfl), by decide +kernel⟩
  blind_iff := punchedTree_blindEnd

example : punchedChains.iterate 300000 8 0 (16383 * pbufSize) (2 ^ 30) = some
    [] := by decide +kernel

/-! ## Chunks -/

/-- `HAMMER2_SEEK_CHUNK`. -/
def seekChunk : Nat := 16 * pbufSize

/-- `HAMMER2_SEEK_DATA_MAX`. -/
def seekDataMax : Nat := 1024 * pbufSize

/-- `HAMMER2_SEEK_HOLE_MAX`. -/
def seekHoleMax : Nat := 2 ^ 30

/-- `hammer2_seek_next_chunk`. -/
def seekNextChunk (chunk : Nat) (empty : Bool) : Nat :=
  if (if empty then seekHoleMax else seekDataMax) ≤ chunk then
    if empty then seekHoleMax else seekDataMax
  else chunk * 2

/-- A chunk is a number of whole blocks. -/
def Chunk (chunk : Nat) : Prop := ∃ m, 0 < m ∧ chunk = m * pbufSize

theorem chunk_seekChunk : Chunk seekChunk := ⟨16, by decide, rfl⟩

theorem Chunk.next {chunk : Nat} (h : Chunk chunk) (empty : Bool) :
    Chunk (seekNextChunk chunk empty) := by
  obtain ⟨m, hm, rfl⟩ := h
  have hmax : Chunk (if empty then seekHoleMax else seekDataMax) := by
    cases empty
    · exact ⟨1024, by decide, rfl⟩
    · exact ⟨16384, by decide, rfl⟩
  unfold seekNextChunk
  generalize (if empty then seekHoleMax else seekDataMax) = c at hmax
  split
  · exact hmax
  · exact ⟨m * 2, by omega, by rw [Nat.mul_right_comm]⟩

end Hammer2
