import Hammer2.Chain.Iterate
import Hammer2.Namespace.Xop

/-!
# The scan of a collision space on the chains

The backends read the entries with the hash of a name by `hammer2_chain_lookup` over the keys
`[lhc, lhc + HAMMER2_DIRHASH_LOMASK]` and `hammer2_chain_next` until it returns nothing. On the
chains of a directory these calls give the list `collisions` (`iterate_eq_collisions`). The last key
of the range is odd and an indirect block ends at an odd key, so that no block is a blind end of
this range.

Reference: `hammer2_xops.c:264-292`, `hammer2_chain.c:2392-2619`, `hammer2_disk.h:640-670`.
-/

namespace Hammer2

/-- `HAMMER2_DIRHASH_VISIBLE`: the keys from here on are those of entries. -/
def dirhashVisible : Nat := 2 ^ 63

/-- Every name hashes to a visible key. -/
theorem dirhashVisible_le (icrc32 : Name → BitVec 32) (name : Name) :
    dirhashVisible ≤ (dirhash icrc32 name).toNat := by
  have hbit : (dirhash icrc32 name).toNat.testBit 63 = true := by
    have h31 : (0x80000000#32).getLsbD 31 = true := by decide
    have hdir : (dirhash icrc32 name).getLsbD 63 = true := by
      simp only [dirhash, BitVec.getLsbD_or, BitVec.getLsbD_shiftLeft, BitVec.getLsbD_setWidth, h31]
      simp
    exact hdir
  exact Nat.ge_two_pow_of_testBit hbit

/-- A directory on its chains: the live elements below its inode are its entries, which are well
kept, and inodes under invisible keys. -/
structure DirChains (icrc32 : Name → BitVec 32) (ι : Type*) [DecidableEq ι] extends
    ChainTree ι where
  entry : ι → Dirent
  es : List Dirent
  dir : Nat
  kept : WellKept icrc32 es
  aligned : ∀ b, indirect b = true → 2 ^ keybits b ∣ key b
  one_key : ∀ c, toChainTree.Elem c → keybits c = 0
  entry_key : ∀ c, toChainTree.Elem c → dirhashVisible ≤ key c → (entry c).key.toNat = key c
  mem_iff : ∀ e, e ∈ es ∧ e.dir = dir ↔
    ∃ c, toChainTree.Elem c ∧ dirhashVisible ≤ key c ∧ entry c = e

variable {icrc32 : Name → BitVec 32} {ι : Type*} [DecidableEq ι]

namespace DirChains
variable (D : DirChains icrc32 ι)

/-- An entry covers one key. -/
theorem last_eq {c : ι} (hc : D.Elem c) : D.last c = D.key c := by
  simp [Topology.last, D.one_key c hc]

/-- A block with a child covers an even number of keys, from a multiple of that number on. -/
theorem not_blindEnd {keyEnd : Nat} (hodd : keyEnd % 2 = 1) (b : ι) : ¬ D.BlindEnd keyEnd b := by
  intro hb
  obtain ⟨c, hc, -⟩ := hb.child
  obtain ⟨k, hk⟩ : ∃ k, D.keybits b = k + 1 :=
    Nat.exists_eq_succ_of_ne_zero (by have := (D.inside b c hb.indirect hc).2.2; omega)
  obtain ⟨m, hm⟩ := D.aligned b hb.indirect
  have hlast := hb.last_succ
  rw [Topology.last, hm, hk, pow_succ] at hlast
  have hpos : 0 < 2 ^ k := Nat.two_pow_pos k
  have heven : 2 ^ k * 2 * m + 2 ^ k * 2 = 2 * (2 ^ k * (m + 1)) := by ring
  omega

/-- The entries of a collision space are in strict order of their keys. -/
theorem collisions_sorted (lhc : DirKey) :
    (collisions D.es D.dir lhc).Pairwise fun a b => a.key < b.key := by
  have hboth := (D.kept.sorted.and D.kept.keys).sublist
    (List.filter_sublist (p := Dirent.inRange D.dir lhc (lhc + dirhashLomask)))
  refine hboth.imp_of_mem fun {a b} ha hb hab => ?_
  have hdir : ∀ e ∈ collisions D.es D.dir lhc, e.dir = D.dir := by
    intro e he
    have := (List.mem_filter.1 he).2
    simp only [Dirent.inRange, Bool.and_eq_true, beq_iff_eq] at this
    exact this.1.1
  exact BitVec.lt_of_le_ne hab.1 (hab.2 ((hdir a ha).trans (hdir b hb).symm))

end DirChains

/-- From every start in the tree the calls come to an end. -/
theorem ChainTree.iterate_isSome {T : ChainTree ι} {p : ι} {keyBeg keyEnd : Nat} (hp : T.Start p)
    (hbeg : keyBeg ≤ keyEnd) (hend : keyEnd < keySpace) :
    ∃ m, ∀ maxloops ≥ m, ∀ n ≥ m, (T.iterate maxloops n p keyBeg keyEnd).isSome := by
  refine ⟨keySpace * 256 + 256, fun maxloops hm n hn => ?_⟩
  obtain ⟨r, hr⟩ := Option.isSome_iff_exists.1 (chainLookup_isSome hp hbeg hend hm)
  have hall := collect_isSome hend n hm (chainLookup_spec hp hbeg hend hr) (by linarith)
  simpa [Topology.iterate, hr] using hall

/-- **The scan of the chains gives the collision space**: from every start, the calls for the hash
of a name come to an end, and return the entries with that hash, each once and in the order of their
keys. -/
theorem iterate_eq_collisions (D : DirChains icrc32 ι) (p : {p // D.Start p}) (name : Name) :
    let lhc := dirhash icrc32 name
    (∃ m, ∀ maxloops ≥ m, ∀ n ≥ m,
      (D.iterate maxloops n p lhc.toNat (lhc + dirhashLomask).toNat).isSome) ∧
    ∀ maxloops n l, D.iterate maxloops n p lhc.toNat (lhc + dirhashLomask).toNat = some l →
      l.map D.entry = collisions D.es D.dir lhc := by
  intro lhc
  have hvis : dirhashVisible ≤ lhc.toNat := dirhashVisible_le icrc32 name
  have hmod : lhc.toNat % collisionSpace = 0 := toNat_mod_of_lomask (dirhash_lomask icrc32 name)
  clear_value lhc
  have hend : (lhc + dirhashLomask).toNat = lhc.toNat + 32767 := by
    have hlo : dirhashLomask.toNat = 32767 := rfl
    have hlt := lhc.isLt
    rw [BitVec.toNat_add, hlo]
    unfold collisionSpace at hmod
    omega
  have hle : lhc.toNat ≤ (lhc + dirhashLomask).toNat := by omega
  have hlt := (lhc + dirhashLomask).isLt
  refine ⟨ChainTree.iterate_isSome p.2 hle hlt, fun maxloops n l hl => ?_⟩
  have hexact : D.Exact lhc.toNat (lhc + dirhashLomask).toNat l := by
    refine ChainTree.exact_of_not_skipsEnd p.2 hle hlt hl ?_
    rintro ⟨-, -, b, hb⟩
    unfold collisionSpace at hmod
    exact D.not_blindEnd (by omega) b hb
  -- An element covers one key, so the range is one of first keys.
  have hmem : ∀ c, c ∈ l ↔ D.Elem c ∧ lhc.toNat ≤ D.key c ∧ D.key c ≤ (lhc + dirhashLomask).toNat :=
    fun c => (hexact.mem c).trans (and_congr_right fun he => by rw [D.last_eq he])
  have hkey : ∀ c ∈ l, (D.entry c).key.toNat = D.key c := fun c hc =>
    D.entry_key c ((hmem c).1 hc).1 (hvis.trans ((hmem c).1 hc).2.1)
  have : Std.Irrefl fun a b : Dirent => a.key < b.key := ⟨fun a => BitVec.lt_irrefl a.key⟩
  have : Std.Antisymm fun a b : Dirent => a.key < b.key :=
    ⟨fun a b hab hba => absurd (BitVec.lt_trans hab hba) (BitVec.lt_irrefl a.key)⟩
  refine List.Pairwise.eq_of_mem_iff ?_ (D.collisions_sorted lhc) fun e => ?_
  · refine List.pairwise_map.2 (hexact.sorted.imp_of_mem fun {a b} ha hb hab => ?_)
    rw [D.last_eq ((hmem a).1 ha).1, ← hkey a ha, ← hkey b hb] at hab
    exact BitVec.lt_def.2 hab
  · rw [List.mem_map, collisions, List.mem_filter]
    simp only [Dirent.inRange, Bool.and_eq_true, beq_iff_eq, decide_eq_true_eq, BitVec.le_def]
    constructor
    · rintro ⟨c, hc, rfl⟩
      obtain ⟨he, hbeg, hle⟩ := (hmem c).1 hc
      obtain ⟨hes, hdir⟩ := (D.mem_iff _).2 ⟨c, he, hvis.trans hbeg, rfl⟩
      rw [hkey c hc]
      exact ⟨hes, ⟨hdir, hbeg⟩, hle⟩
    · rintro ⟨hes, ⟨hdir, hbeg⟩, hle⟩
      obtain ⟨c, hc, hv, rfl⟩ := (D.mem_iff e).1 ⟨hes, hdir⟩
      rw [D.entry_key c hc hv] at hbeg hle
      exact ⟨c, (hmem c).2 ⟨hc, hbeg, hle⟩, rfl⟩

/-! ## Two names of one hash -/

local instance dirChains : NeZero 5 := ⟨by decide⟩

/-- An inode with an invisible inode at 5 and an indirect block over one collision space, with the
keys of two entries. -/
def collisionBlock : ChainTree (Fin 5) where
  root := 0
  key := ![0, 2 ^ 63 + 2 ^ 15, 5, 2 ^ 63 + 2 ^ 15, 2 ^ 63 + 2 ^ 15 + 1]
  keybits := ![0, 15, 0, 0, 0]
  indirect := ![false, true, false, false, false]
  deleted := fun _ => false
  parent := ![0, 0, 0, 1, 1]
  base := ![[some 2, some 1], [some 3, none, some 4], [], [], []]
  rbtree := fun _ => []
  cacheIndex := fun _ => 0
  root_indirect := rfl
  root_top := by decide
  base_fits := by decide +kernel
  rbtree_fits := by simp
  base_sorted := by decide +kernel
  rbtree_sorted := by simp
  shadow := by simp
  base_live := by simp
  parent_eq := by decide
  inside := by decide +kernel

/-- An entry of the directory 1 for a name of one byte. -/
def byteEntry (key : DirKey) (byte : UInt8) : Dirent :=
  ⟨1, key, 5, .regfile, false, 1, nameBuffer checkBufBytes [byte], none⟩

/-- The names `a` and `b`, under a CRC that tells no names apart. -/
def collidingEntries : List Dirent :=
  [byteEntry 0x8000000000008000#64 97, byteEntry 0x8000000000008001#64 98]

/-- The entries of the example are well kept. -/
theorem collidingEntries_kept : WellKept (fun _ => 0#32) collidingEntries where
  sorted := by decide +kernel
  keys := List.pairwise_pair.2 fun _ => by decide
  names := List.pairwise_pair.2 fun _ => by decide
  stored := by
    intro e he
    rcases List.mem_pair.1 he with rfl | rfl <;> exact ⟨by decide, by decide⟩
  hashed := by decide +kernel

/-- The elements below the inode are the chains other than the inode and the block. -/
theorem collisionBlock_elem (c : Fin 5) : collisionBlock.Elem c ↔ c ≠ 0 ∧ c ≠ 1 := by
  constructor
  · rintro ⟨-, hnode⟩
    refine ⟨fun h => hnode (.inl h), fun h => hnode (.inr ?_)⟩
    rw [h]
    rfl
  · rintro ⟨h₀, h₁⟩
    have hnode : ¬ collisionBlock.Node c := by
      rintro (h | h)
      · exact h₀ h
      · revert h h₁ c
        decide
    have hblock : collisionBlock.Live 1 :=
      ChainTree.Live.root.child (.inl rfl) (by decide) rfl
    have hchild : ∀ c : Fin 5, c ≠ 0 → c ≠ 1 →
        collisionBlock.Child 0 c ∨ collisionBlock.Child 1 c := by decide
    refine ⟨?_, hnode⟩
    rcases hchild c h₀ h₁ with h | h
    · exact ChainTree.Live.root.child (.inl rfl) h rfl
    · exact hblock.child (.inr rfl) h rfl

/-- They cover one key each. -/
theorem collisionBlock_keybits (c : Fin 5) (hc : collisionBlock.Elem c) :
    collisionBlock.keybits c = 0 := by
  rw [collisionBlock_elem] at hc
  revert hc c
  decide

/-- The entries are those of the visible elements. -/
theorem collidingEntries_mem_iff (e : Dirent) : e ∈ collidingEntries ∧ e.dir = 1 ↔
    ∃ c, collisionBlock.Elem c ∧ dirhashVisible ≤ collisionBlock.key c ∧
      byteEntry (BitVec.ofNat 64 (collisionBlock.key c)) (if c = 4 then 98 else 97) = e := by
  simp only [collisionBlock_elem]
  constructor
  · rintro ⟨he, -⟩
    rcases List.mem_pair.1 he with rfl | rfl
    · exact ⟨3, by decide, by decide +kernel, by decide +kernel⟩
    · exact ⟨4, by decide, by decide +kernel, by decide +kernel⟩
  · rintro ⟨c, hc, hv, rfl⟩
    revert hc hv c
    decide +kernel

theorem collisionBlock_key_lt : ∀ c, collisionBlock.key c < 2 ^ 64 := by decide +kernel

/-- The directory on these chains. -/
def collidingDir : DirChains (fun _ => 0#32) (Fin 5) where
  toChainTree := collisionBlock
  entry c := byteEntry (BitVec.ofNat 64 (collisionBlock.key c)) (if c = 4 then 98 else 97)
  es := collidingEntries
  dir := 1
  kept := collidingEntries_kept
  aligned := by decide +kernel
  one_key := collisionBlock_keybits
  entry_key c _ _ := Nat.mod_eq_of_lt (collisionBlock_key_lt c)
  mem_iff := collidingEntries_mem_iff

/-- The scan for the hash of `b` goes through the block and returns the entries of both names. -/
theorem iterate_eq_collisions_pair :
    collidingDir.iterate 300000 8 0 (2 ^ 63 + 2 ^ 15) (2 ^ 63 + 2 ^ 16 - 1) = some [3, 4] ∧
      [3, 4].map collidingDir.entry =
        collisions collidingEntries 1 (dirhash (fun _ => 0#32) [98]) := by
  have hrun : collidingDir.iterate 300000 8 0 (2 ^ 63 + 2 ^ 15) (2 ^ 63 + 2 ^ 16 - 1) =
      some [3, 4] := by decide +kernel
  have hbeg : (dirhash (fun _ => 0#32) [98]).toNat = 2 ^ 63 + 2 ^ 15 := by decide +kernel
  have hend : (dirhash (fun _ => 0#32) [98] + dirhashLomask).toNat = 2 ^ 63 + 2 ^ 16 - 1 := by
    decide +kernel
  refine ⟨hrun, (iterate_eq_collisions collidingDir ⟨0, .inl rfl⟩ [98]).2 300000 8 _ ?_⟩
  rw [hbeg, hend]
  exact hrun

end Hammer2
