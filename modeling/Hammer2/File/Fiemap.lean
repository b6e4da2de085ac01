import Hammer2.File.Seek

/-!
# The extent map

`hammer2_fiemap` reads the tags and the tree of a file in chunks, at most 1024 blocks of each, and
merges the two lists into extents. An extent that is being built is carried over the ends of the
chunks, so that the extents are those of one list of blocks: the blocks with data of the whole
range, in order (`fiemapLoop_blocks`). The last extent is flagged if it reaches the size of the
file.

The scan of the last chunk loses a block that begins with the last byte of the range behind a blind
end of the lookup (`FiemapFile.LosesLast`): the block is left out, or taken for one that only its
tag has.

A data chain covers a block of 64KB, the radix it is created with. `FIEMAP_EXTENT_MERGED` is set on
every extent and left out.

Reference: `hammer2_vnops.c:1474-1503`, `hammer2_vnops.c:2597-2868`.
-/

namespace Hammer2

/-- The flags of an extent that depend on the block. -/
structure ExtentFlags where
  unknown : Bool
  delalloc : Bool
  encoded : Bool
  deriving DecidableEq, Repr

/-- An extent as `fiemap_fill_next_extent` is given it; `last` is `FIEMAP_EXTENT_LAST`. -/
structure FileExtent where
  logical : Nat
  phys : Nat
  len : Nat
  flags : ExtentFlags
  last : Bool
  deriving DecidableEq, Repr

/-- A file with what its data chains say: `hammer2_bmap_offset`, and whether the methods name a
compression. -/
structure FiemapFile extends FileMap where
  poff : Nat → Nat
  compressed : Nat → Bool

/-- The extents emitted, and `struct hammer2_fiemap_run`. -/
structure FiemapRun where
  out : List FileExtent
  logical : Nat
  phys : Nat
  len : Nat
  flags : ExtentFlags

/-- `HAMMER2_FIEMAP_REFS`. -/
def fiemapRefs : Nat := 1024

/-- `HAMMER2_BMAP_UNKNOWN`. -/
def bmapUnknown : Nat := 2 ^ 64 - 1

namespace FiemapRun

/-- `hammer2_fiemap_flush`: the extents with the one being built. -/
def flush (r : FiemapRun) (last : Bool) : List FileExtent :=
  if r.len ≠ 0 then r.out ++ [⟨r.logical, r.phys, r.len, r.flags, last⟩] else r.out

/-- `hammer2_fiemap_add` of one block. -/
def add (r : FiemapRun) (logical phys : Nat) (flags : ExtentFlags) : FiemapRun :=
  if r.len ≠ 0 ∧ logical = r.logical + r.len ∧ flags = r.flags ∧ flags.encoded = false ∧
      (flags.unknown = true ∨ flags.delalloc = true ∨ phys = r.phys + r.len) then
    { r with len := r.len + pbufSize }
  else ⟨r.flush false, logical, phys, pbufSize, flags⟩

/-- Nothing emitted. -/
def start : FiemapRun := ⟨[], 0, 0, 0, ⟨false, false, false⟩⟩

end FiemapRun

namespace FiemapFile
variable (f : FiemapFile)

/-- The flags of a data chain. -/
def refFlags (key : Nat) : ExtentFlags :=
  let poff := f.poff key
  let unknown := decide (poff = bmapUnknown ∨ poff / 64 * 64 = 0)
  let plen := if poff % 64 ≠ 0 then 2 ^ (poff % 64) else 0
  ⟨unknown, false, !unknown && (f.compressed key || plen != pbufSize)⟩

/-- The address of a data chain. -/
def refPhys (key : Nat) : Nat := if (f.refFlags key).unknown then 0 else f.poff key / 64 * 64

/-- `hammer2_fiemap_tags` with `rem` entries left: the tagged blocks, and the end they are read
to. -/
def fiemapTags (top : Nat) : Nat → Nat → List Nat × Nat
  | 0, first =>
    if first ≤ top then
      ([], (f.seekTagged first top).elim top fun pos => pos / pbufSize * pbufSize - 1)
    else ([], top)
  | rem + 1, first =>
    if first ≤ top then
      (f.seekTagged first top).elim ([], top) fun pos =>
        let r := fiemapTags top rem (pos / pbufSize * pbufSize + pbufSize)
        (pos / pbufSize * pbufSize :: r.1, r.2)
    else ([], top)

/-- The loop over the tagged blocks before `bound`, and those left. -/
def addTags (bound cur : Nat) : List Nat → FiemapRun → FiemapRun × List Nat
  | [], r => (r, [])
  | pos :: t, r =>
    if pos < bound then
      addTags bound cur t (if cur ≤ pos then r.add pos 0 ⟨false, true, false⟩ else r)
    else (r, pos :: t)

/-- The loop that merges the chains and the tagged blocks of a chunk. -/
def mergeRefs (next : Nat) : List Nat → Nat → List Nat → FiemapRun → FiemapRun
  | [], cur, t, r => (addTags next cur t r).1
  | key :: v, cur, t, r =>
    mergeRefs next v (key + pbufSize) (addTags key cur t r).2
      ((addTags key cur t r).1.add key (f.refPhys key) (f.refFlags key))

/-- The chunks from `cur` to `fin`. -/
def fiemapLoop (fin : Nat) : Nat → Nat → Nat → FiemapRun → Option FiemapRun
  | 0, _, _, _ => none
  | n + 1, cur, chunk, r =>
    if cur < fin then
      let tags := if f.tagged then f.fiemapTags (chunkEnd fin cur chunk) fiemapRefs cur
        else ([], chunkEnd fin cur chunk)
      let v := (f.keysIn cur tags.2).take fiemapRefs
      let next := if v.length = fiemapRefs then v.getLastD 0 + pbufSize else tags.2 + 1
      fiemapLoop fin n next (seekNextChunk chunk v.isEmpty) (f.mergeRefs next v cur tags.1 r)
    else some r

/-- `hammer2_fiemap` of a file that is not stored in its inode, with an unlimited array. -/
def fiemap (isize start len n : Nat) : Option (List FileExtent) :=
  let stop := (start + len) % 2 ^ 64
  let fin := if isize < stop ∨ stop < start then isize else stop
  (f.fiemapLoop fin n (start / pbufSize * pbufSize) seekChunk .start).map fun r =>
    r.flush (decide (isize ≤ r.logical + r.len))

/-- What an extent says of the block at a key. -/
def flagsAt (key : Nat) : ExtentFlags :=
  if key / pbufSize ∈ f.tree then f.refFlags key else ⟨false, true, false⟩

/-- The address of the block at a key; a tagged block that the tree does not have has none. -/
def physAt (key : Nat) : Nat := if key / pbufSize ∈ f.tree then f.refPhys key else 0

/-- One block more, as the tree or else its tag has it. -/
def addBlock (r : FiemapRun) (key : Nat) : FiemapRun := r.add key (f.physAt key) (f.flagsAt key)

end FiemapFile

/-! ## Building extents -/

/-- The keys of the blocks of an extent. -/
def FileExtent.keys (e : FileExtent) : List Nat :=
  (List.range (e.len / pbufSize)).map fun i => e.logical + i * pbufSize

/-- The extent is right: it is a run of whole blocks of one kind, each at its place of the run on
the media unless it has no address; a block stored in another size is an extent of its own. -/
structure FileExtent.Right (f : FiemapFile) (e : FileExtent) : Prop where
  blocks : ∃ m, 0 < m ∧ e.len = m * pbufSize
  flags : ∀ key ∈ e.keys, f.flagsAt key = e.flags
  phys : e.flags.unknown = false → e.flags.delalloc = false → ∀ i < e.len / pbufSize,
    f.physAt (e.logical + i * pbufSize) = e.phys + i * pbufSize
  none : e.flags.unknown = true ∨ e.flags.delalloc = true → e.phys = 0
  alone : e.flags.encoded = true → e.len = pbufSize

/-- The extents with the one being built are right, and describe the blocks at the keys `l`. -/
structure FiemapRun.Built (f : FiemapFile) (r : FiemapRun) (l : List Nat) : Prop where
  right : ∀ e ∈ r.flush false, e.Right f
  keys : (r.flush false).flatMap FileExtent.keys = l
  unlast : ∀ e ∈ r.flush false, e.last = false

section
variable {f : FiemapFile} {r : FiemapRun} {l : List Nat} {key : Nat}

/-- A block without a known place is reported at 0. -/
theorem flagsAt_cases (f : FiemapFile) (key : Nat) :
    (f.flagsAt key).unknown = true ∨ (f.flagsAt key).delalloc = true → f.physAt key = 0 := by
  unfold FiemapFile.flagsAt FiemapFile.physAt
  split
  · rintro (h | h)
    · rw [FiemapFile.refPhys, if_pos h]
    · cases h
  · exact fun _ => rfl

theorem keys_succ (e : FileExtent) {m : Nat} (hlen : e.len = m * pbufSize) :
    ({ e with len := e.len + pbufSize } : FileExtent).keys = e.keys ++ [e.logical + e.len] := by
  unfold FileExtent.keys
  dsimp only
  rw [hlen, ← Nat.succ_mul, Nat.mul_div_cancel _ pbufSize_pos, Nat.mul_div_cancel _ pbufSize_pos,
    List.range_succ, List.map_append, List.map_singleton]

theorem keys_one (logical phys : Nat) (flags : ExtentFlags) (last : Bool) :
    (⟨logical, phys, pbufSize, flags, last⟩ : FileExtent).keys = [logical] := by
  unfold FileExtent.keys
  rw [Nat.div_self pbufSize_pos]
  simp

/-- An extent of one block. -/
theorem right_one (f : FiemapFile) (key : Nat) :
    FileExtent.Right f ⟨key, f.physAt key, pbufSize, f.flagsAt key, false⟩ := by
  refine ⟨⟨1, by decide, (Nat.one_mul _).symm⟩, fun k hk => ?_, fun _ _ i hi => ?_,
    fun h => flagsAt_cases f key h, fun _ => rfl⟩
  · rw [keys_one, List.mem_singleton] at hk
    rw [hk]
  · rw [Nat.div_self pbufSize_pos] at hi
    obtain rfl : i = 0 := by omega
    simp

/-- An extent that the next block continues. -/
theorem FileExtent.Right.grow {e : FileExtent} (h : e.Right f)
    (hflags : f.flagsAt (e.logical + e.len) = e.flags)
    (henc : e.flags.encoded = false)
    (hphys : e.flags.unknown = true ∨ e.flags.delalloc = true ∨
      f.physAt (e.logical + e.len) = e.phys + e.len) :
    FileExtent.Right f { e with len := e.len + pbufSize } := by
  obtain ⟨m, hm, hlen⟩ := h.blocks
  refine ⟨⟨m + 1, by omega, by rw [Nat.succ_mul, ← hlen]⟩, fun k hk =>
    ?_, fun hu hd i hi => ?_, h.none, fun hc => absurd (henc.symm.trans hc) (by decide)⟩
  · rw [keys_succ e hlen, List.mem_append, List.mem_singleton] at hk
    rcases hk with hk | rfl
    · exact h.flags k hk
    · exact hflags
  · dsimp only at hi hu hd ⊢
    rw [hlen, ← Nat.succ_mul, Nat.mul_div_cancel _ pbufSize_pos] at hi
    rcases Nat.lt_succ_iff_lt_or_eq.1 hi with hlt | rfl
    · exact h.phys hu hd i (by rw [hlen, Nat.mul_div_cancel _ pbufSize_pos]; exact hlt)
    · rw [← hlen]
      rcases hphys with hc | hc | hc
      · simp [hu] at hc
      · simp [hd] at hc
      · exact hc

/-- **A block more is described by the extents**, merged into the last one or not. -/
theorem FiemapRun.Built.addBlock (h : r.Built f l) (key : Nat) :
    (f.addBlock r key).Built f (l ++ [key]) := by
  unfold FiemapFile.addBlock FiemapRun.add
  split
  · rename_i hmerge
    obtain ⟨hlen, hkey, hflags, henc, hphys⟩ := hmerge
    have hold : r.flush false = r.out ++ [⟨r.logical, r.phys, r.len, r.flags, false⟩] := if_pos hlen
    have hright := h.right ⟨r.logical, r.phys, r.len, r.flags, false⟩ (by simp [hold])
    have hkeys := h.keys
    rw [hold, List.flatMap_append, List.flatMap_singleton] at hkeys
    have hflush : FiemapRun.flush { r with len := r.len + pbufSize } false =
        r.out ++ [⟨r.logical, r.phys, r.len + pbufSize, r.flags, false⟩] :=
      if_pos (by have := pbufSize_pos; dsimp only; omega)
    subst hkey
    refine ⟨fun e he => ?_, ?_, fun e he => ?_⟩
    · rw [hflush, List.mem_append, List.mem_singleton] at he
      rcases he with he | rfl
      · exact h.right e (by simp [hold, he])
      · rw [hflags] at henc hphys
        exact hright.grow hflags henc hphys
    · obtain ⟨m, -, hm⟩ := hright.blocks
      rw [hflush, List.flatMap_append, List.flatMap_singleton,
        keys_succ ⟨r.logical, r.phys, r.len, r.flags, false⟩ hm, ← List.append_assoc, hkeys]
    · rw [hflush, List.mem_append, List.mem_singleton] at he
      rcases he with he | rfl
      · exact h.unlast e (by simp [hold, he])
      · rfl
  · have hflush : FiemapRun.flush ⟨r.flush false, key, f.physAt key, pbufSize, f.flagsAt key⟩
      false =
        r.flush false ++ [⟨key, f.physAt key, pbufSize, f.flagsAt key, false⟩] :=
      if_pos pbufSize_pos.ne'
    refine ⟨fun e he => ?_, ?_, fun e he => ?_⟩
    · rw [hflush, List.mem_append, List.mem_singleton] at he
      rcases he with he | rfl
      · exact h.right e he
      · exact right_one f key
    · rw [hflush, List.flatMap_append, h.keys, List.flatMap_singleton, keys_one]
    · rw [hflush, List.mem_append, List.mem_singleton] at he
      rcases he with he | rfl
      · exact h.unlast e he
      · rfl

/-- The run keeps the description of the blocks added to it. -/
theorem FiemapRun.Built.foldl (h : r.Built f l) (ks : List Nat) :
    (ks.foldl f.addBlock r).Built f (l ++ ks) := by
  induction ks generalizing r l with
  | nil => simpa using h
  | cons k ks ih => simpa using ih (h.addBlock k)

end

/-! ## Merging a chunk -/

section
variable {f : FiemapFile} {r : FiemapRun} {t v : List Nat} {bound cur next : Nat}

theorem addBlock_tag {pos : Nat} (h : pos / pbufSize ∉ f.tree) :
    f.addBlock r pos = r.add pos 0 ⟨false, true, false⟩ := by
  rw [FiemapFile.addBlock, FiemapFile.physAt, FiemapFile.flagsAt, if_neg h, if_neg h]

theorem addBlock_tree {key : Nat} (h : key / pbufSize ∈ f.tree) :
    f.addBlock r key = r.add key (f.refPhys key) (f.refFlags key) := by
  rw [FiemapFile.addBlock, FiemapFile.physAt, FiemapFile.flagsAt, if_pos h, if_pos h]

/-- The tagged blocks before `bound` are added, and those behind it are left. -/
theorem addTags_spec (r : FiemapRun) (hsort : t.Pairwise (· < ·))
    (hno : ∀ x ∈ t, cur ≤ x → x < bound → x / pbufSize ∉ f.tree) :
    ∃ g t' : List Nat, FiemapFile.addTags bound cur t r = (g.foldl f.addBlock r, t') ∧
      g.Pairwise (· < ·) ∧ t'.Pairwise (· < ·) ∧ (∀ x, x ∈ g ↔ x ∈ t ∧ cur ≤ x ∧ x < bound) ∧
      ∀ x, x ∈ t' ↔ x ∈ t ∧ bound ≤ x := by
  induction t generalizing r with
  | nil => exact ⟨[], [], rfl, .nil, .nil, by simp, by simp⟩
  | cons p t ih =>
    obtain ⟨hrel, hsort'⟩ := List.pairwise_cons.1 hsort
    rw [FiemapFile.addTags]
    by_cases hp : p < bound
    · rw [if_pos hp]
      obtain ⟨g, t', heq, hg, ht', hmem, hleft⟩ :=
        ih (if cur ≤ p then r.add p 0 ⟨false, true, false⟩ else r) hsort'
          fun x hx => hno x (List.mem_cons_of_mem _ hx)
      have hleft' : ∀ x, x ∈ t' ↔ x ∈ p :: t ∧ bound ≤ x := fun x => by
        rw [hleft, List.mem_cons]
        constructor
        · exact fun h => ⟨Or.inr h.1, h.2⟩
        · rintro ⟨rfl | h, hb⟩
          · omega
          · exact ⟨h, hb⟩
      by_cases hcur : cur ≤ p
      · rw [if_pos hcur] at heq
        refine ⟨p :: g, t', ?_, ?_, ht', fun x => ?_, hleft'⟩
        · rw [if_pos hcur, heq, List.foldl_cons, addBlock_tag (hno p List.mem_cons_self hcur hp)]
        · exact List.pairwise_cons.2 ⟨fun x hx => hrel x ((hmem x).1 hx).1, hg⟩
        · rw [List.mem_cons, hmem, List.mem_cons]
          constructor
          · rintro (rfl | h)
            · exact ⟨Or.inl rfl, hcur, hp⟩
            · exact ⟨Or.inr h.1, h.2⟩
          · rintro ⟨h | h, h2⟩
            · exact Or.inl h
            · exact Or.inr ⟨h, h2⟩
      · rw [if_neg hcur] at heq
        refine ⟨g, t', by rw [if_neg hcur, heq], hg, ht', fun x => ?_, hleft'⟩
        rw [hmem, List.mem_cons]
        constructor
        · exact fun h => ⟨Or.inr h.1, h.2⟩
        · rintro ⟨rfl | h, h2⟩
          · omega
          · exact ⟨h, h2⟩
    · rw [if_neg hp]
      have hall : ∀ x ∈ p :: t, bound ≤ x := fun x hx => by
        rcases List.mem_cons.1 hx with rfl | hx
        · omega
        · have := hrel x hx
          omega
      refine ⟨[], p :: t, rfl, .nil, hsort, fun x => ?_, fun x =>
        ⟨fun h => ⟨h, hall x h⟩, And.left⟩⟩
      simp only [List.not_mem_nil, false_iff]
      rintro ⟨h1, -, h2⟩
      have := hall x h1
      omega

/-- Two lists of blocks, one of them of those in the tree, are added as one ascending list. -/
theorem mergeRefs_spec (hv : v.Pairwise (· < ·)) (ht : t.Pairwise (· < ·))
    (hmul : ∀ x, x ∈ v ∨ x ∈ t → pbufSize ∣ x) (hin : ∀ x ∈ v, cur ≤ x ∧ x < next)
    (htree : ∀ x ∈ v, x / pbufSize ∈ f.tree)
    (hall : ∀ x ∈ t, cur ≤ x → x < next → x / pbufSize ∈ f.tree → x ∈ v) :
    ∃ ks : List Nat, f.mergeRefs next v cur t r = ks.foldl f.addBlock r ∧ ks.Pairwise (· < ·) ∧
      ∀ x, x ∈ ks ↔ x ∈ v ∨ x ∈ t ∧ cur ≤ x ∧ x < next := by
  induction v generalizing cur t r with
  | nil =>
    have hno : ∀ x ∈ t, cur ≤ x → x < next → x / pbufSize ∉ f.tree := fun x hx h1 h2 h3 =>
      absurd (hall x hx h1 h2 h3) List.not_mem_nil
    obtain ⟨g, t', heq, hg, -, hmem, -⟩ := addTags_spec r ht hno
    refine ⟨g, ?_, hg, fun x => by simp [hmem]⟩
    rw [FiemapFile.mergeRefs, heq]
  | cons key v ih =>
    obtain ⟨hrel, hv'⟩ := List.pairwise_cons.1 hv
    obtain ⟨hck, hkn⟩ := hin key List.mem_cons_self
    have hafter : ∀ x ∈ key :: v, key ≤ x := fun x hx => by
      rcases List.mem_cons.1 hx with rfl | hx
      · exact le_rfl
      · exact (hrel x hx).le
    -- A block behind the key is a whole block behind it.
    have hstep : ∀ x, x ∈ key :: v ∨ x ∈ t → key < x → key + pbufSize ≤ x := fun x hx hlt => by
      obtain ⟨a, ha⟩ := hmul x hx
      obtain ⟨k, hk⟩ := hmul key (Or.inl List.mem_cons_self)
      have : k < a := Nat.lt_of_mul_lt_mul_left (a := pbufSize) (by omega)
      have := Nat.mul_le_mul_left pbufSize this
      rw [Nat.mul_succ] at this
      omega
    have hno : ∀ x ∈ t, cur ≤ x → x < key → x / pbufSize ∉ f.tree := fun x hx h1 h2 h3 => by
      have := hafter x (hall x hx h1 (by omega) h3)
      omega
    obtain ⟨g, t', heq, hg, ht', hmem, hleft⟩ := addTags_spec r ht hno
    have hall' : ∀ x ∈ t', key + pbufSize ≤ x → x < next → x / pbufSize ∈ f.tree → x ∈ v := by
      intro x hx h1 h2 h3
      have := pbufSize_pos
      refine (List.mem_cons.1 (hall x ((hleft x).1 hx).1 (by omega) h2 h3)).resolve_left fun h => ?_
      omega
    obtain ⟨ks, hks, hsort, hmem'⟩ := ih (r := f.addBlock (g.foldl f.addBlock r) key) hv' ht'
      (fun x hx => hmul x (hx.imp (List.mem_cons_of_mem _) fun h => ((hleft x).1 h).1))
      (fun x hx => ⟨hstep x (Or.inl (List.mem_cons_of_mem _ hx)) (hrel x hx),
        (hin x (List.mem_cons_of_mem _ hx)).2⟩)
      (fun x hx => htree x (List.mem_cons_of_mem _ hx)) hall'
    have hbehind : ∀ x ∈ ks, key < x := fun x hx => by
      have := pbufSize_pos
      rcases (hmem' x).1 hx with h | h
      · exact hrel x h
      · omega
    refine ⟨g ++ key :: ks, ?_, ?_, fun x => ?_⟩
    · rw [FiemapFile.mergeRefs, heq, List.foldl_append, List.foldl_cons, ← hks,
        addBlock_tree (htree key List.mem_cons_self)]
    · refine List.pairwise_append.2 ⟨hg, List.pairwise_cons.2 ⟨hbehind, hsort⟩, fun a ha b hb => ?_⟩
      have h1 := ((hmem a).1 ha).2.2
      rcases List.mem_cons.1 hb with rfl | hb
      · exact h1
      · exact h1.trans (hbehind b hb)
    · rw [List.mem_append, List.mem_cons, hmem, hmem', hleft, List.mem_cons]
      constructor
      · rintro (⟨h1, h2, h3⟩ | rfl | h | ⟨⟨h1, h2⟩, h3, h4⟩)
        · exact Or.inr ⟨h1, h2, by omega⟩
        · exact Or.inl (Or.inl rfl)
        · exact Or.inl (Or.inr h)
        · exact Or.inr ⟨h1, by omega, h4⟩
      · rintro ((rfl | h) | ⟨h1, h2, h3⟩)
        · exact Or.inr (Or.inl rfl)
        · exact Or.inr (Or.inr (Or.inl h))
        · rcases lt_trichotomy x key with hlt | rfl | hgt
          · exact Or.inl ⟨h1, h2, hlt⟩
          · exact Or.inr (Or.inl rfl)
          · exact Or.inr (Or.inr (Or.inr ⟨⟨h1, hgt.le⟩, hstep x (Or.inr h1) hgt, h3⟩))

end

/-! ## The chunks -/

/-- The keys `ks` are those of the blocks with data from block `c` on that begin before `lim`, in
order. -/
structure Covers (f : FileMap) (c lim : Nat) (ks : List Nat) : Prop where
  sorted : ks.Pairwise (· < ·)
  mem : ∀ x, x ∈ ks ↔ ∃ b, x = b * pbufSize ∧ c ≤ b ∧ b * pbufSize < lim ∧ f.Data b

section
variable {f : FiemapFile} {c top fin : Nat}

/-- `hammer2_fiemap_tags` finds no tagged block, or goes on behind the first one, or stops before
it. -/
theorem fiemapTags_cases (f : FiemapFile) (top rem c : Nat) :
    (f.fiemapTags top rem (c * pbufSize) = ([], top) ∧
        ∀ x ∈ f.tag, c ≤ x → top < x * pbufSize) ∨
      ∃ p ∈ f.tag, c ≤ p ∧ p * pbufSize ≤ top ∧ (∀ x ∈ f.tag, c ≤ x → p ≤ x) ∧
        f.fiemapTags top rem (c * pbufSize) = match rem with
          | 0 => ([], p * pbufSize - 1)
          | rem + 1 => (p * pbufSize :: (f.fiemapTags top rem ((p + 1) * pbufSize)).1,
              (f.fiemapTags top rem ((p + 1) * pbufSize)).2) := by
  by_cases hc : c * pbufSize ≤ top
  · cases hp : f.seekTagged (c * pbufSize) top with
    | none =>
      refine Or.inl ⟨?_, seekTagged_none hp⟩
      cases rem <;> rw [FiemapFile.fiemapTags, if_pos hc, hp, Option.elim_none]
    | some pos =>
      obtain ⟨p, rfl, hmem, hcp, hle, hmin⟩ := seekTagged_some hp
      refine Or.inr ⟨p, hmem, hcp, hle, hmin, ?_⟩
      cases rem <;> rw [FiemapFile.fiemapTags, if_pos hc, hp, Option.elim_some] <;>
        simp only [Nat.mul_div_cancel _ pbufSize_pos, Nat.succ_mul]
  · refine Or.inl ⟨?_, fun x _ hcx => ?_⟩
    · cases rem <;> rw [FiemapFile.fiemapTags, if_neg hc]
    · have := Nat.mul_le_mul_right pbufSize hcx
      omega

/-- What is read of the tags from block `c` on: the tagged blocks up to the end returned, which is
the one given or the end of a block. -/
structure TagsRead (f : FileMap) (c top : Nat) (t : List Nat) (top' : Nat) : Prop where
  sorted : t.Pairwise (· < ·)
  mem : ∀ x, x ∈ t ↔ ∃ b ∈ f.tag, x = b * pbufSize ∧ c ≤ b ∧ x ≤ top'
  stop : top' = top ∨ ∃ d, top' + 1 = d * pbufSize ∧ d * pbufSize ≤ top ∧ c ≤ d

/-- Without a tag in the range no tag is read. -/
theorem tagsRead_nil {f : FileMap} (h : ∀ x ∈ f.tag, c ≤ x → top < x * pbufSize) :
    TagsRead f c top [] top := by
  refine ⟨.nil, fun x => iff_of_false List.not_mem_nil ?_, Or.inl rfl⟩
  rintro ⟨b, hb, rfl, hcb, hle⟩
  exact absurd (h b hb hcb) (by omega)

/-- A tagged block before those that are read behind it. -/
theorem TagsRead.cons {f : FileMap} {p top' : Nat} {t : List Nat}
    (h : TagsRead f (p + 1) top t top')
    (hp : p ∈ f.tag) (hcp : c ≤ p) (hle : p * pbufSize ≤ top) (hmin : ∀ x ∈ f.tag, c ≤ x → p ≤ x) :
    TagsRead f c top (p * pbufSize :: t) top' := by
  have hpt : p * pbufSize ≤ top' := by
    rcases h.stop with rfl | ⟨d, hd, -, hpd⟩
    · exact hle
    · have hpos := pbufSize_pos
      have := Nat.mul_le_mul_right pbufSize hpd
      rw [Nat.succ_mul] at this
      omega
  refine ⟨List.pairwise_cons.2 ⟨fun x hx => ?_, h.sorted⟩, fun x => ?_,
    h.stop.imp_right fun ⟨d, h1, h2, h3⟩ => ⟨d, h1, h2, by omega⟩⟩
  · obtain ⟨b, -, rfl, hpb, -⟩ := (h.mem x).1 hx
    exact Nat.mul_lt_mul_of_pos_right hpb pbufSize_pos
  · rw [List.mem_cons, h.mem]
    constructor
    · rintro (rfl | ⟨b, hb, rfl, hpb, hle⟩)
      · exact ⟨p, hp, rfl, hcp, hpt⟩
      · exact ⟨b, hb, rfl, by omega, hle⟩
    · rintro ⟨b, hb, rfl, hcb, hle⟩
      rcases (hmin b hb hcb).lt_or_eq with hlt | rfl
      · exact Or.inr ⟨b, hb, rfl, hlt, hle⟩
      · exact Or.inl rfl

/-- One call of the tag scan reads the next tags in order. -/
theorem fiemapTags_spec (f : FiemapFile) (top : Nat) {rem : Nat} (h0 : rem = 0 → 0 < c) :
    TagsRead f.toFileMap c top (f.fiemapTags top rem (c * pbufSize)).1
      (f.fiemapTags top rem (c * pbufSize)).2 := by
  induction rem generalizing c with
  | zero =>
    rcases fiemapTags_cases f top 0 c with ⟨heq, h⟩ | ⟨p, hp, hcp, hle, hmin, heq⟩
    · rw [heq]
      exact tagsRead_nil h
    · have hpos := Nat.mul_pos (hcp.trans_lt' (h0 rfl)) pbufSize_pos
      rw [heq]
      refine ⟨.nil, fun x => iff_of_false List.not_mem_nil ?_,
        Or.inr ⟨p, by dsimp only; omega, hle, hcp⟩⟩
      rintro ⟨b, hb, rfl, hcb, hbp⟩
      have := Nat.mul_le_mul_right pbufSize (hmin b hb hcb)
      dsimp only at hbp
      omega
  | succ rem ih =>
    rcases fiemapTags_cases f top (rem + 1) c with ⟨heq, h⟩ | ⟨p, hp, hcp, hle, hmin, heq⟩
    · rw [heq]
      exact tagsRead_nil h
    · rw [heq]
      exact (ih fun _ => Nat.succ_pos p).cons hp hcp hle hmin

/-- With entries to fill, more than the first block is read. -/
theorem fiemapTags_advance (f : FiemapFile) {rem : Nat} (hc : c * pbufSize ≤ top) :
    c * pbufSize ≤ (f.fiemapTags top (rem + 1) (c * pbufSize)).2 := by
  rcases fiemapTags_cases f top (rem + 1) c with ⟨heq, -⟩ | ⟨p, -, hcp, hle, -, heq⟩
  · rwa [heq]
  · rw [heq]
    dsimp only
    have hpos := pbufSize_pos
    have hcp' := Nat.mul_le_mul_right pbufSize hcp
    rcases (@fiemapTags_spec (p + 1) f top rem fun _ => Nat.succ_pos p).stop with
      h | ⟨d, hd, -, hpd⟩
    · omega
    · have := Nat.mul_le_mul_right pbufSize hpd
      rw [Nat.succ_mul] at this
      omega

/-- What is read of the tree: the blocks that begin before the next chunk, which is behind the last
one of a full list, or where the tags were read to. -/
theorem treeRead_spec (f : FiemapFile) {top' : Nat}
    (hlost : ∀ b ∈ f.tree, ¬ f.Lost (c * pbufSize) top' b) (v : List Nat)
    (hv : v = (f.keysIn (c * pbufSize) top').take fiemapRefs) (next : Nat)
    (hnext : next = if v.length = fiemapRefs then v.getLastD 0 + pbufSize else top' + 1) :
    v.Pairwise (· < ·) ∧
      (∀ x, x ∈ v ↔ ∃ b ∈ f.tree, x = b * pbufSize ∧ c ≤ b ∧ b * pbufSize < next) ∧
      (next = top' + 1 ∨ ∃ d, next = d * pbufSize ∧ c < d ∧ (d - 1) * pbufSize ≤ top') := by
  have hkeys : f.keysIn (c * pbufSize) top' =
      (blocksIn f.tree c (top' / pbufSize)).map (· * pbufSize) := by
    rw [FileMap.keysIn, Nat.mul_div_cancel _ pbufSize_pos, FileMap.seen,
      Finset.filter_true_of_mem hlost]
  have hsort : (f.keysIn (c * pbufSize) top').Pairwise (· < ·) := by
    rw [hkeys, List.pairwise_map]
    exact blocksIn_sorted.imp fun hab => Nat.mul_lt_mul_of_pos_right hab pbufSize_pos
  have hmem : ∀ x, x ∈ f.keysIn (c * pbufSize) top' ↔
      ∃ b ∈ f.tree, x = b * pbufSize ∧ c ≤ b ∧ b * pbufSize ≤ top' := fun x => by
    rw [hkeys, List.mem_map]
    constructor
    · rintro ⟨b, hb, rfl⟩
      obtain ⟨h1, h2, h3⟩ := mem_blocksIn.1 hb
      exact ⟨b, h1, rfl, h2, (le_div_iff b top').1 h3⟩
    · rintro ⟨b, h1, rfl, h2, h3⟩
      exact ⟨b, mem_blocksIn.2 ⟨h1, h2, (le_div_iff b top').2 h3⟩, rfl⟩
  have hvsort : v.Pairwise (· < ·) := hv ▸ hsort.sublist (List.take_sublist _ _)
  refine ⟨hvsort, ?_⟩
  by_cases hlen : v.length = fiemapRefs
  · -- The list is full: `l` is its last block, and nothing is left out before it.
    rw [if_pos hlen] at hnext
    have hne : v ≠ [] := fun h => by simp [h, fiemapRefs] at hlen
    obtain ⟨v', l, hl⟩ : ∃ v' l, v = v' ++ [l] :=
      ⟨v.dropLast, v.getLast hne, (List.dropLast_append_getLast hne).symm⟩
    have hlast : v.getLastD 0 = l := by rw [hl, List.getLastD_concat]
    have hlv : l ∈ v := by simp [hl]
    have hle : ∀ x ∈ v, x ≤ l := fun x hx => by
      rw [hl] at hx hvsort
      rcases List.mem_append.1 hx with hx | hx
      · exact ((List.pairwise_append.1 hvsort).2.2 x hx l (by simp)).le
      · exact (List.mem_singleton.1 hx).le
    have hsub : ∀ x ∈ v, x ∈ f.keysIn (c * pbufSize) top' := fun x hx =>
      List.mem_of_mem_take (hv ▸ hx)
    obtain ⟨bl, hbl, rfl, hcl, hltop⟩ := (hmem l).1 (hsub l hlv)
    rw [hlast, ← Nat.succ_mul] at hnext
    refine ⟨fun x => ⟨fun hx => ?_, ?_⟩, Or.inr ⟨bl + 1, hnext, by omega, hltop⟩⟩
    · obtain ⟨b, hb, rfl, hcb, -⟩ := (hmem x).1 (hsub x hx)
      refine ⟨b, hb, rfl, hcb, ?_⟩
      have := hle _ hx
      have := pbufSize_pos
      rw [hnext, Nat.succ_mul]
      omega
    · rintro ⟨b, hb, rfl, hcb, hlt⟩
      have hbl' : b ≤ bl := Nat.lt_succ_iff.1 ((Nat.mul_lt_mul_right pbufSize_pos).1
        (hlt.trans_eq hnext))
      have hin := (hmem (b * pbufSize)).2
        ⟨b, hb, rfl, hcb, (Nat.mul_le_mul_right _ hbl').trans hltop⟩
      rw [← List.take_append_drop fiemapRefs (f.keysIn (c * pbufSize) top'), ← hv] at hin hsort
      rcases List.mem_append.1 hin with hin | hin
      · exact hin
      · have := (List.pairwise_append.1 hsort).2.2 _ hlv _ hin
        have := Nat.mul_le_mul_right pbufSize hbl'
        omega
  · rw [if_neg hlen] at hnext
    have hall : v = f.keysIn (c * pbufSize) top' := by
      rw [hv, List.take_of_length_le]
      rw [hv, List.length_take] at hlen
      omega
    refine ⟨fun x => ?_, Or.inl hnext⟩
    rw [hall, hmem, hnext]
    simp only [Nat.lt_succ_iff]

/-- **A chunk adds its blocks in order**, and the next one begins with a block or at the end. -/
theorem fiemapChunk (f : FiemapFile) (r : FiemapRun) {t : List Nat} {top' : Nat}
    (ht : TagsRead f.toFileMap c top t top') (htop : c * pbufSize ≤ top')
    (hlost : ∀ b ∈ f.tree, ¬ f.Lost (c * pbufSize) top' b) (v : List Nat)
    (hv : v = (f.keysIn (c * pbufSize) top').take fiemapRefs) (next : Nat)
    (hnext : next = if v.length = fiemapRefs then v.getLastD 0 + pbufSize else top' + 1) :
    (∃ ks, f.mergeRefs next v (c * pbufSize) t r = ks.foldl f.addBlock r ∧
      Covers f.toFileMap c next ks) ∧
      (next = top + 1 ∨ ∃ d, next = d * pbufSize ∧ c < d ∧ (d - 1) * pbufSize ≤ top) := by
  obtain ⟨hvsort, hvmem, hend⟩ := treeRead_spec f hlost v hv next hnext
  have hpos := pbufSize_pos
  have hdiv : ∀ b, b * pbufSize / pbufSize = b := fun b => Nat.mul_div_cancel b hpos
  have htop' : top' ≤ top := by
    rcases ht.stop with h | ⟨d, h1, h2, -⟩
    · exact h.le
    · omega
  -- A block that begins before the next chunk begins where the tags were read.
  have hread : ∀ b, b * pbufSize < next → b * pbufSize ≤ top' := fun b hb => by
    rcases hend with h | ⟨d, h1, h2, h3⟩
    · omega
    · have : b < d := (Nat.mul_lt_mul_right hpos).1 (hb.trans_eq h1)
      exact (Nat.mul_le_mul_right _ (by omega)).trans h3
  refine ⟨?_, ?_⟩
  · obtain ⟨ks, heq, hsort, hmem⟩ := mergeRefs_spec (f := f) (r := r)
      (t := t) (v := v) hvsort ht.sorted
      (fun x hx => by
        rcases hx with hx | hx
        · obtain ⟨b, -, rfl, -⟩ := (hvmem x).1 hx
          exact dvd_mul_left _ _
        · obtain ⟨b, -, rfl, -⟩ := (ht.mem x).1 hx
          exact dvd_mul_left _ _)
      (fun x hx => by
        obtain ⟨b, -, rfl, hcb, hlt⟩ := (hvmem x).1 hx
        exact ⟨Nat.mul_le_mul_right _ hcb, hlt⟩)
      (fun x hx => by
        obtain ⟨b, hb, rfl, -⟩ := (hvmem x).1 hx
        rwa [hdiv])
      (fun x hx h1 h2 h3 => by
        obtain ⟨b, -, rfl, hcb, -⟩ := (ht.mem x).1 hx
        rw [hdiv] at h3
        exact (hvmem _).2 ⟨b, h3, rfl, hcb, h2⟩)
    refine ⟨ks, heq, hsort, fun x => ?_⟩
    rw [hmem, hvmem, ht.mem]
    constructor
    · rintro (⟨b, hb, rfl, hcb, hlt⟩ | ⟨⟨b, hb, rfl, hcb, -⟩, -, hlt⟩)
      · exact ⟨b, rfl, hcb, hlt, Or.inl hb⟩
      · exact ⟨b, rfl, hcb, hlt, Or.inr hb⟩
    · rintro ⟨b, rfl, hcb, hlt, hb | hb⟩
      · exact Or.inl ⟨b, hb, rfl, hcb, hlt⟩
      · exact Or.inr ⟨⟨b, hb, rfl, hcb, hread b hlt⟩, Nat.mul_le_mul_right _ hcb, hlt⟩
  · rcases hend with h | ⟨d, h1, h2, h3⟩
    · rcases ht.stop with h' | ⟨d, h1, h2, h3⟩
      · exact Or.inl (by omega)
      · refine Or.inr ⟨d, by omega, ?_, ?_⟩
        · exact (Nat.mul_lt_mul_right hpos).1 (by omega)
        · exact (Nat.mul_le_mul_right _ (Nat.sub_le d 1)).trans h2
    · exact Or.inr ⟨d, h1, h2, h3.trans htop'⟩

/-- Nothing has to be covered past the end. -/
theorem Covers.nil {f : FileMap} (h : fin ≤ c * pbufSize) : Covers f c fin [] := by
  refine ⟨.nil, fun x => iff_of_false List.not_mem_nil ?_⟩
  rintro ⟨b, rfl, hcb, hlt, -⟩
  have := Nat.mul_le_mul_right pbufSize hcb
  omega

/-- The blocks of a chunk and those of the chunks behind it. -/
theorem Covers.append {f : FileMap} {d : Nat} {ks ks' : List Nat} (h : Covers f c (d * pbufSize) ks)
    (h' : Covers f d fin ks') (hcd : c < d) (hfin : (d - 1) * pbufSize < fin) :
    Covers f c fin (ks ++ ks') := by
  refine ⟨List.pairwise_append.2 ⟨h.sorted, h'.sorted, fun a ha b hb => ?_⟩, fun x => ?_⟩
  · obtain ⟨i, rfl, -, hi, -⟩ := (h.mem a).1 ha
    obtain ⟨j, rfl, hj, -⟩ := (h'.mem b).1 hb
    exact hi.trans_le (Nat.mul_le_mul_right _ hj)
  · rw [List.mem_append, h.mem, h'.mem]
    constructor
    · rintro (⟨b, rfl, hcb, hlt, hb⟩ | ⟨b, rfl, hdb, hlt, hb⟩)
      · have hbd : b < d := (Nat.mul_lt_mul_right pbufSize_pos).1 hlt
        exact ⟨b, rfl, hcb, (Nat.mul_le_mul_right _ (by omega)).trans_lt hfin, hb⟩
      · exact ⟨b, rfl, by omega, hlt, hb⟩
    · rintro ⟨b, rfl, hcb, hlt, hb⟩
      rcases Nat.lt_or_ge b d with hbd | hdb
      · exact Or.inl ⟨b, rfl, hcb, Nat.mul_lt_mul_of_pos_right hbd pbufSize_pos, hb⟩
      · exact Or.inr ⟨b, rfl, hdb, hlt, hb⟩

/-- **The chunks together add the blocks with data of the range**, once each and in order. -/
theorem fiemapLoop_blocks (f : FiemapFile) (r : FiemapRun) {n chunk : Nat} (hchunk : Chunk chunk)
    (hends : ∀ b ∈ f.tree, b ∈ f.blind → c < b → b * pbufSize + 1 ≠ fin) (hn : 0 < n)
    (hfuel : fin + pbufSize ≤ (n + c) * pbufSize) :
    ∃ ks, f.fiemapLoop fin n (c * pbufSize) chunk r = some (ks.foldl f.addBlock r) ∧
      Covers f.toFileMap c fin ks := by
  induction n generalizing c chunk r with
  | zero => omega
  | succ n ih =>
    rw [FiemapFile.fiemapLoop]
    by_cases hc : c * pbufSize < fin
    · rw [if_pos hc]
      have hpos := pbufSize_pos
      obtain ⟨hle, hend⟩ := chunkEnd_cases hc hchunk
      have htop : chunkEnd fin (c * pbufSize) chunk < fin := by
        rcases hend with h | ⟨d, -, h, h'⟩ <;> omega
      -- The tags are read, or there are none.
      obtain ⟨tags, htags, hread, hadv⟩ : ∃ tags : List Nat × Nat,
          tags = (if f.tagged then f.fiemapTags (chunkEnd fin (c * pbufSize) chunk) fiemapRefs
            (c * pbufSize) else ([], chunkEnd fin (c * pbufSize) chunk)) ∧
          TagsRead f.toFileMap c (chunkEnd fin (c * pbufSize) chunk) tags.1 tags.2 ∧
          c * pbufSize ≤ tags.2 := by
        refine ⟨_, rfl, ?_⟩
        split
        · exact ⟨fiemapTags_spec f _ fun h => absurd h (by decide), fiemapTags_advance f hle⟩
        · rename_i hno
          refine ⟨tagsRead_nil fun x hx => ?_, hle⟩
          simp [FileMap.tagged] at hno
          simp [hno] at hx
      obtain ⟨v, hv⟩ : ∃ v, v = (f.keysIn (c * pbufSize) tags.2).take fiemapRefs := ⟨_, rfl⟩
      obtain ⟨next, hnext⟩ : ∃ next, next =
          if v.length = fiemapRefs then v.getLastD 0 + pbufSize else tags.2 + 1 := ⟨_, rfl⟩
      rw [← htags]
      dsimp only
      rw [← hv, ← hnext]
      -- Only a chunk that ends with the range can end with the first byte of a block.
      have hlost : ∀ b ∈ f.tree, ¬ f.Lost (c * pbufSize) tags.2 b := by
        rintro b hb ⟨hlt, hbe, hblind⟩
        have hcb : c < b := (Nat.mul_lt_mul_right hpos).1 (hlt.trans_eq hbe.symm)
        refine hends b hb hblind hcb ?_
        rcases hread.stop with h | ⟨d, hd, -⟩
        · rcases hend with h' | ⟨d, -, hd, -⟩
          · omega
          · unfold pbufSize at hbe hd h
            omega
        · unfold pbufSize at hbe hd
          omega
      obtain ⟨⟨ks, hks, hcov⟩, hwhere⟩ := fiemapChunk f r hread hadv hlost v hv next hnext
      rw [hks]
      have hn' : 0 < n := by
        have : fin + pbufSize ≤ (n + 1) * pbufSize + c * pbufSize := by rwa [← Nat.add_mul]
        rcases Nat.eq_zero_or_pos n with rfl | h
        · omega
        · exact h
      have hcases : next = fin ∨ ∃ d, next = d * pbufSize ∧ c < d ∧ (d - 1) * pbufSize < fin := by
        rcases hwhere with h | ⟨d, h1, h2, h3⟩
        · rcases hend with h' | ⟨d, h1, h2, h3⟩
          · exact Or.inl (by omega)
          · exact Or.inr ⟨d, by omega, h1, (Nat.mul_le_mul_right _ (Nat.sub_le d 1)).trans_lt h3⟩
        · exact Or.inr ⟨d, h1, h2, by omega⟩
      rcases hcases with rfl | ⟨d, rfl, hcd, hd⟩
      · refine ⟨ks, ?_, hcov⟩
        obtain ⟨m, rfl⟩ := Nat.exists_eq_succ_of_ne_zero hn'.ne'
        rw [FiemapFile.fiemapLoop, if_neg (lt_irrefl _)]
      · have hnd : n + 1 + c ≤ n + d := by omega
        obtain ⟨ks', hks', hcov'⟩ := ih (ks.foldl f.addBlock r) (hchunk.next v.isEmpty)
          (fun b hb hblind hdb => hends b hb hblind (hcd.trans hdb)) hn'
          (hfuel.trans (Nat.mul_le_mul_right _ hnd))
        exact ⟨ks ++ ks', by rw [hks', List.foldl_append], hcov.append hcov' hcd hd⟩
    · rw [if_neg hc]
      exact ⟨[], rfl, Covers.nil (Nat.le_of_not_lt hc)⟩

end

/-! ## The map -/

/-- The extents describe the blocks with data from `start` to `fin`: they are right, in order
without overlap, and cover these blocks and nothing else. -/
structure Describes (f : FiemapFile) (start fin : Nat) (out : List FileExtent) : Prop where
  right : ∀ e ∈ out, e.Right f
  ordered : out.Pairwise fun e e' => e.logical + e.len ≤ e'.logical
  covers : Covers f.toFileMap (start / pbufSize) fin (out.flatMap FileExtent.keys)

/-- The flag is on the extents behind which the file has no block. -/
def LastExact (f : FiemapFile) (isize : Nat) (out : List FileExtent) : Prop :=
  ∀ e ∈ out, e.last = true ↔ ∀ b, f.Data b → b * pbufSize < isize → b * pbufSize < e.logical + e.len

/-- If the last block with data of the file begins before `fin` and is not before `start`, it holds
the last byte of the file. -/
def EndsInData (f : FiemapFile) (isize start fin : Nat) : Prop :=
  ∀ b, f.Data b → start / pbufSize ≤ b → b * pbufSize < fin →
    (∀ x, f.Data x → x * pbufSize < isize → x ≤ b) → isize ≤ (b + 1) * pbufSize

section
variable {f : FiemapFile} {r : FiemapRun} {ks : List Nat} {e : FileExtent}

theorem FileExtent.mem_keys {m : Nat} (hm : e.len = m * pbufSize) {i : Nat}
    (hi : i < m) : e.logical + i * pbufSize ∈ e.keys := by
  rw [FileExtent.keys, hm, Nat.mul_div_cancel _ pbufSize_pos]
  exact List.mem_map.2 ⟨i, List.mem_range.2 hi, rfl⟩

/-- Extents whose blocks are in order do not overlap. -/
theorem ordered_of_covers {c lim : Nat} {out : List FileExtent} (hright : ∀ e ∈ out, e.Right f)
    (h : Covers f.toFileMap c lim (out.flatMap FileExtent.keys)) :
    out.Pairwise fun e e' => e.logical + e.len ≤ e'.logical := by
  have hpair := (List.pairwise_flatMap.1 h.sorted).2
  refine hpair.imp_of_mem fun {e e'} he he' hlt => ?_
  obtain ⟨m, hm, hlen⟩ := (hright e he).blocks
  obtain ⟨m', hm', hlen'⟩ := (hright e' he').blocks
  have hlast := FileExtent.mem_keys hlen (by omega : m - 1 < m)
  have hfirst := FileExtent.mem_keys hlen' hm'
  have hless := hlt _ hlast _ hfirst
  obtain ⟨b, hb, -⟩ := (h.mem _).1 (List.mem_flatMap.2 ⟨e, he, hlast⟩)
  obtain ⟨b', hb', -⟩ := (h.mem _).1 (List.mem_flatMap.2 ⟨e', he', hfirst⟩)
  rw [Nat.zero_mul, Nat.add_zero] at hless hb'
  rw [hb, hb'] at hless
  have hbb := Nat.mul_le_mul_right pbufSize ((Nat.mul_lt_mul_right pbufSize_pos).1 hless)
  have hsplit : m * pbufSize = (m - 1) * pbufSize + pbufSize := by
    rw [← Nat.succ_mul, Nat.succ_eq_add_one, Nat.sub_add_cancel hm]
  rw [Nat.succ_mul] at hbb
  omega

theorem len_addBlock (r : FiemapRun) (key : Nat) : (f.addBlock r key).len ≠ 0 := by
  have := pbufSize_pos
  unfold FiemapFile.addBlock FiemapRun.add
  split <;> dsimp only <;> omega

theorem built_start (f : FiemapFile) : FiemapRun.start.Built f [] := by
  have hflush : FiemapRun.start.flush false = [] := rfl
  exact ⟨by simp [hflush], rfl, by simp [hflush]⟩

/-- The extents with the one being built, under either flag. -/
theorem FiemapRun.Built.describes {start fin : Nat} {last : Bool} (h : r.Built f ks)
    (hcov : Covers f.toFileMap (start / pbufSize) fin ks) :
    Describes f start fin (r.flush last) := by
  have hright : ∀ e ∈ r.flush last, e.Right f := by
    intro e he
    by_cases hlen : r.len ≠ 0
    · have hold := h.right ⟨r.logical, r.phys, r.len, r.flags, false⟩
        (by simp [FiemapRun.flush, hlen])
      rw [FiemapRun.flush, if_pos hlen, List.mem_append, List.mem_singleton] at he
      rcases he with he | rfl
      · exact h.right e (by simp [FiemapRun.flush, hlen, he])
      · exact ⟨hold.blocks, hold.flags, hold.phys, hold.none, hold.alone⟩
    · rw [FiemapRun.flush, if_neg hlen] at he
      exact h.right e (by simpa [FiemapRun.flush, hlen] using he)
  have hkeys : (r.flush last).flatMap FileExtent.keys = ks := by
    rw [← h.keys]
    unfold FiemapRun.flush
    split
    · rw [List.flatMap_append, List.flatMap_append]
      rfl
    · rfl
  have hcov' : Covers f.toFileMap (start / pbufSize) fin ((r.flush last).flatMap FileExtent.keys) :=
    hkeys ▸ hcov
  exact ⟨hright, ordered_of_covers hright hcov', hcov'⟩

/-- The last block of the last extent is the last one covered. -/
theorem Describes.last_block {start fin : Nat} {pre : List FileExtent}
    (h : Describes f start fin (pre ++ [e])) :
    ∃ b, f.Data b ∧ start / pbufSize ≤ b ∧ b * pbufSize < fin ∧
      e.logical ≤ b * pbufSize ∧ (b + 1) * pbufSize = e.logical + e.len ∧
      ∀ x, f.Data x → start / pbufSize ≤ x → x * pbufSize < fin → x ≤ b := by
  obtain ⟨m, hm, hlen⟩ := (h.right e (by simp)).blocks
  have hsplit : m * pbufSize = (m - 1) * pbufSize + pbufSize := by
    rw [← Nat.succ_mul, Nat.succ_eq_add_one, Nat.sub_add_cancel hm]
  have hmem : e.logical + (m - 1) * pbufSize ∈ (pre ++ [e]).flatMap FileExtent.keys :=
    List.mem_flatMap.2 ⟨e, by simp, FileExtent.mem_keys hlen (by omega)⟩
  obtain ⟨b, hb, hsb, hbf, hdata⟩ := (h.covers.mem _).1 hmem
  refine ⟨b, hdata, hsb, hbf, by omega, by rw [Nat.succ_mul]; omega, fun x hx hsx hxf => ?_⟩
  obtain ⟨e', he', hx'⟩ := List.mem_flatMap.1 ((h.covers.mem _).2 ⟨x, rfl, hsx, hxf, hx⟩)
  obtain ⟨m', -, hlen'⟩ := (h.right e' he').blocks
  rw [FileExtent.keys, hlen', Nat.mul_div_cancel _ pbufSize_pos, List.mem_map] at hx'
  obtain ⟨i, hi, hxi⟩ := hx'
  have hi' := Nat.mul_le_mul_right pbufSize (List.mem_range.1 hi)
  rw [Nat.succ_mul] at hi'
  have hlt : x * pbufSize < (b + 1) * pbufSize := by
    have hpos := pbufSize_pos
    rw [Nat.succ_mul]
    rcases List.mem_append.1 he' with hpre | hlast
    · have := (List.pairwise_append.1 h.ordered).2.2 e' hpre e (by simp)
      omega
    · obtain rfl := List.mem_singleton.1 hlast
      omega
  exact Nat.lt_succ_iff.1 ((Nat.mul_lt_mul_right pbufSize_pos).1 hlt)

/-- The flag of the last extent, set if the extent reaches the size. -/
theorem Describes.lastExact_iff {isize start fin : Nat} {pre : List FileExtent}
    (h : Describes f start fin (pre ++ [e])) (hfin : fin ≤ isize) (hpre : ∀ x ∈ pre, x.last = false)
    (he : e.last = decide (isize ≤ e.logical + e.len)) :
    LastExact f isize (pre ++ [e]) ↔ EndsInData f isize start fin := by
  obtain ⟨b, hb, hsb, hbf, hlog, hend, hmax⟩ := h.last_block
  constructor
  · intro hexact x hx hsx hxf hlast
    obtain rfl : x = b := le_antisymm (hmax x hx hsx hxf) (hlast b hb (by omega))
    have htrue := (hexact e (by simp)).2 fun y hy hyi => by
      have := Nat.mul_le_mul_right pbufSize (hlast y hy hyi)
      have := pbufSize_pos
      rw [← hend, Nat.succ_mul]
      omega
    rw [he, decide_eq_true_eq] at htrue
    omega
  · intro hends x hx
    rcases List.mem_append.1 hx with hx | hx
    · -- The last block lies behind every other extent.
      have := (List.pairwise_append.1 h.ordered).2.2 x hx e (by simp)
      rw [hpre x hx]
      refine iff_of_false (by decide) fun hno => ?_
      have := hno b hb (by omega)
      omega
    · obtain rfl := List.mem_singleton.1 hx
      rw [he, decide_eq_true_eq]
      refine ⟨fun hle y _ hyi => by omega, fun hno => ?_⟩
      rw [← hend]
      refine hends b hb hsb hbf fun y hy hyi => ?_
      have := hno y hy hyi
      rw [← hend] at this
      exact Nat.lt_succ_iff.1 ((Nat.mul_lt_mul_right pbufSize_pos).1 this)

end

/-- The end of the range, by the comparisons of 64-bit numbers. -/
theorem range_end {isize start len : Nat} (hisize : isize < 2 ^ 63) (hstart : start < 2 ^ 64)
    (hlen : len < 2 ^ 64) :
    (if isize < (start + len) % 2 ^ 64 ∨ (start + len) % 2 ^ 64 < start then isize
      else (start + len) % 2 ^ 64) = min (start + len) isize := by
  split <;> omega

/-! ## A block that is lost -/

/-- The range ends with the first byte of a block behind a blind end. -/
def FiemapFile.LosesLast (f : FiemapFile) (start fin : Nat) : Prop :=
  ∃ b ∈ f.tree, b ∈ f.blind ∧ start / pbufSize < b ∧ b * pbufSize + 1 = fin

/-- The extents, with the one being built, are of whole blocks; each has keys in `S` or is
`DELALLOC`. -/
def FiemapRun.Within (S : Nat → Prop) (r : FiemapRun) : Prop :=
  ∀ e ∈ r.flush false,
    (∃ m, e.len = m * pbufSize) ∧ (e.flags.delalloc = true ∨ ∀ key ∈ e.keys, S key)

section
variable {S : Nat → Prop} {f : FiemapFile} {r : FiemapRun}

/-- Adding a block keeps the extents within the blocks looked at. -/
theorem FiemapRun.Within.add (h : r.Within S) {key phys : Nat} {flags : ExtentFlags}
    (hkey : flags.delalloc = true ∨ S key) : (r.add key phys flags).Within S := by
  unfold FiemapRun.add
  split
  · rename_i hmerge
    obtain ⟨hlen, hlog, hflags, -⟩ := hmerge
    have hflush : FiemapRun.flush { r with len := r.len + pbufSize } false =
        r.out ++ [⟨r.logical, r.phys, r.len + pbufSize, r.flags, false⟩] :=
      if_pos (by have := pbufSize_pos; dsimp only; omega)
    have hold : r.flush false = r.out ++ [⟨r.logical, r.phys, r.len, r.flags, false⟩] := if_pos hlen
    obtain ⟨⟨m, hm⟩, hkeys⟩ := h ⟨r.logical, r.phys, r.len, r.flags, false⟩ (by simp [hold])
    intro e he
    rw [hflush, List.mem_append, List.mem_singleton] at he
    rcases he with he | rfl
    · exact h e (by simp [hold, he])
    · refine ⟨⟨m + 1, by rw [Nat.succ_mul]; dsimp only at hm ⊢; rw [hm]⟩, ?_⟩
      rcases hkeys with hd | hkeys
      · exact .inl hd
      · rcases hkey with hd | hkey
        · exact .inl (hflags ▸ hd)
        · refine .inr fun k hk => ?_
          rw [keys_succ ⟨r.logical, r.phys, r.len, r.flags, false⟩ hm, List.mem_append,
            List.mem_singleton] at hk
          rcases hk with hk | rfl
          · exact hkeys k hk
          · exact hlog ▸ hkey
  · have hflush : FiemapRun.flush ⟨r.flush false, key, phys, pbufSize, flags⟩ false =
        r.flush false ++ [⟨key, phys, pbufSize, flags, false⟩] := if_pos pbufSize_pos.ne'
    intro e he
    rw [hflush, List.mem_append, List.mem_singleton] at he
    rcases he with he | rfl
    · exact h e he
    · refine ⟨⟨1, (Nat.one_mul _).symm⟩, hkey.imp_right fun hS k hk => ?_⟩
      rw [keys_one, List.mem_singleton] at hk
      exact hk ▸ hS

/-- Adding delayed blocks keeps them as well. -/
theorem FiemapRun.Within.addTags (h : r.Within S) (bound cur : Nat) (t : List Nat) :
    (FiemapFile.addTags bound cur t r).1.Within S := by
  induction t generalizing r with
  | nil => exact h
  | cons pos t ih =>
    rw [FiemapFile.addTags]
    split
    · refine ih ?_
      split
      · exact h.add (.inl rfl)
      · exact h
    · exact h

/-- The blocks that are merged are those read of the tree, but for those that only a tag has. -/
theorem FiemapRun.Within.mergeRefs (h : r.Within S) {next cur : Nat} {v t : List Nat}
    (hv : ∀ key ∈ v, S key) : (f.mergeRefs next v cur t r).Within S := by
  induction v generalizing r cur t with
  | nil => exact h.addTags next cur t
  | cons key v ih =>
    exact ih ((h.addTags key cur t).add (.inr (hv key List.mem_cons_self))) fun k hk =>
      hv k (List.mem_cons_of_mem _ hk)

/-- With an entry for each block the tags are read to the end. -/
theorem fiemapTags_top {top rem c : Nat} (h : top / pbufSize + 1 ≤ c + rem) :
    (f.fiemapTags top rem (c * pbufSize)).2 = top := by
  induction rem generalizing c with
  | zero =>
    rw [FiemapFile.fiemapTags, if_neg fun hle => absurd ((le_div_iff c top).2 hle) (by omega)]
  | succ rem ih =>
    rcases fiemapTags_cases f top (rem + 1) c with ⟨heq, -⟩ | ⟨p, -, hcp, -, -, heq⟩
    · rw [heq]
    · rw [heq]
      exact ih (by omega)

/-- The flag of the last extent has no part in its flags and keys. -/
theorem FiemapRun.mem_flush_unflagged {r : FiemapRun} {last : Bool} {e : FileExtent}
    (he : e ∈ r.flush last) : ∃ e' ∈ r.flush false, e'.flags = e.flags ∧ e'.keys = e.keys := by
  unfold FiemapRun.flush at he ⊢
  split at he
  · rename_i hne
    rw [if_pos hne]
    rcases List.mem_append.1 he with he | he
    · exact ⟨e, List.mem_append_left _ he, rfl, rfl⟩
    · obtain rfl := List.mem_singleton.1 he
      exact ⟨_, List.mem_append_right _ List.mem_cons_self, rfl, rfl⟩
  · rename_i hne
    rw [if_neg hne]
    exact ⟨e, he, rfl, rfl⟩

/-- A scan up to a blind end comes to the block before it only. -/
theorem keysIn_before_blind {b key : Nat} (hblind : b + 1 ∈ f.blind)
    (hkey : key ∈ f.keysIn (b * pbufSize) ((b + 1) * pbufSize)) : key = b * pbufSize := by
  have hpos := pbufSize_pos
  obtain ⟨x, hx, rfl⟩ := List.mem_map.1 hkey
  obtain ⟨hseen, hbx, hxe⟩ := mem_blocksIn.1 hx
  rw [Nat.mul_div_cancel _ hpos] at hbx hxe
  have hne : x ≠ b + 1 := by
    rintro rfl
    refine (FileMap.mem_seen.1 hseen).2 ⟨?_, rfl, hblind⟩
    exact Nat.mul_lt_mul_of_pos_right (Nat.lt_succ_self b) hpos
  rw [show x = b by omega]

/-- The query of a block behind a blind end with the block before it does not describe it. -/
theorem not_describes_of_blind {isize b n : Nat} (hisize : isize < 2 ^ 63) (hb : b + 1 ∈ f.tree)
    (hblind : b + 1 ∈ f.blind) (hlt : (b + 1) * pbufSize < isize) {out : List FileExtent}
    (hout : f.fiemap isize (b * pbufSize) (pbufSize + 1) (n + 2) = some out) :
    ¬ Describes f (b * pbufSize) (min (b * pbufSize + (pbufSize + 1)) isize) out := by
  have hpos := pbufSize_pos
  have hmul : (b + 1) * pbufSize = b * pbufSize + pbufSize := Nat.succ_mul b pbufSize
  have hfin : min (b * pbufSize + (pbufSize + 1)) isize = (b + 1) * pbufSize + 1 := by omega
  have hpb : pbufSize < 2 ^ 63 := by decide
  have hend : chunkEnd ((b + 1) * pbufSize + 1) (b * pbufSize) seekChunk = (b + 1) * pbufSize := by
    rw [chunkEnd, if_pos]
    · rfl
    · unfold seekChunk
      omega
  rw [FiemapFile.fiemap, range_end hisize (by omega) (by omega), hfin,
    Nat.mul_div_cancel _ hpos, FiemapFile.fiemapLoop, if_pos (by omega), hend] at hout
  obtain ⟨tags, htags⟩ : ∃ tags : List Nat × Nat, tags = (if f.tagged then
    f.fiemapTags ((b + 1) * pbufSize) fiemapRefs (b * pbufSize) else ([], (b + 1) * pbufSize)) :=
      ⟨_, rfl⟩
  have htop : tags.2 = (b + 1) * pbufSize := by
    rw [htags]
    split
    · refine fiemapTags_top ?_
      rw [Nat.mul_div_cancel _ hpos]
      unfold fiemapRefs
      omega
    · rfl
  obtain ⟨v, hv⟩ : ∃ v, v = (f.keysIn (b * pbufSize) tags.2).take fiemapRefs := ⟨_, rfl⟩
  have hmem : ∀ key ∈ v, key = b * pbufSize := by
    intro key hkey
    rw [hv, htop] at hkey
    exact keysIn_before_blind hblind (List.mem_of_mem_take hkey)
  have hsort : v.Pairwise (· < ·) := by
    rw [hv]
    refine List.Pairwise.sublist (List.take_sublist _ _) (List.pairwise_map.2 ?_)
    exact blocksIn_sorted.imp fun hab => Nat.mul_lt_mul_of_pos_right hab hpos
  have hlen : v.length ≠ fiemapRefs := by
    rcases v with _ | ⟨x, _ | ⟨y, v⟩⟩
    · exact (by decide : 0 ≠ fiemapRefs)
    · exact (by decide : 1 ≠ fiemapRefs)
    · have hxy := List.rel_of_pairwise_cons hsort List.mem_cons_self
      rw [hmem x (by simp), hmem y (by simp)] at hxy
      exact absurd hxy (lt_irrefl _)
  rw [← htags] at hout
  dsimp only at hout
  rw [← hv, if_neg hlen, htop, FiemapFile.fiemapLoop, if_neg (lt_irrefl _), Option.map_some] at hout
  have hwithin : (f.mergeRefs ((b + 1) * pbufSize + 1) v (b * pbufSize) tags.1 .start).Within
      (· = b * pbufSize) :=
    FiemapRun.Within.mergeRefs (fun e he => by cases he) hmem
  intro hdesc
  rw [hfin] at hdesc
  obtain ⟨e, he, hkey⟩ := List.mem_flatMap.1 ((hdesc.covers.mem ((b + 1) * pbufSize)).2
    ⟨b + 1, rfl, by rw [Nat.mul_div_cancel _ hpos]; omega, by omega, Or.inl hb⟩)
  have hflag := (hdesc.right e he).flags _ hkey
  rw [FiemapFile.flagsAt, Nat.mul_div_cancel _ hpos, if_pos hb] at hflag
  rw [← Option.some.inj hout] at he
  obtain ⟨e', he', hsame⟩ := FiemapRun.mem_flush_unflagged he
  rcases (hwithin e' he').2 with hd | hS
  · rw [hsame.1, ← hflag] at hd
    cases hd
  · have := hS _ (hsame.2 ▸ hkey)
    omega

end

/-- **The extent map describes the file**: the extents are in order, do not overlap, cover the
blocks with data of the range and describe each as it is, however the range is cut into chunks,
unless the range loses its last block. The flag of the last extent is right exactly if the file, as
far as its last block is in the range, ends in data. Every range of the file is described exactly if
no block of it is behind a blind end. -/
theorem fiemap_describes (f : FiemapFile) {isize : Nat} (hisize : isize < 2 ^ 63) :
    (∀ start < 2 ^ 64, ∀ len < 2 ^ 64, ∀ n ≥ isize + 2 * pbufSize,
      ¬ f.LosesLast start (min (start + len) isize) →
      ∃ out, f.fiemap isize start len n = some out ∧
        Describes f start (min (start + len) isize) out ∧
        (LastExact f isize out ↔ EndsInData f isize start (min (start + len) isize))) ∧
    ((∀ start < 2 ^ 64, ∀ len < 2 ^ 64, ∀ n ≥ isize + 2 * pbufSize,
      ∃ out, f.fiemap isize start len n = some out ∧
        Describes f start (min (start + len) isize) out) ↔
      ∀ b ∈ f.tree, b ∈ f.blind → 0 < b → isize ≤ b * pbufSize) := by
  have hall : ∀ start < 2 ^ 64, ∀ len < 2 ^ 64, ∀ n ≥ isize + 2 * pbufSize,
      ¬ f.LosesLast start (min (start + len) isize) →
      ∃ out, f.fiemap isize start len n = some out ∧
        Describes f start (min (start + len) isize) out ∧
        (LastExact f isize out ↔ EndsInData f isize start (min (start + len) isize)) := by
    intro start hstart len hlen n hn hlast
    have hpos := pbufSize_pos
    have hfuel : min (start + len) isize + pbufSize ≤ (n + start / pbufSize) * pbufSize := by
      have h1 : n ≤ (n + start / pbufSize) * pbufSize :=
        (Nat.le_add_right n _).trans (Nat.le_mul_of_pos_right _ hpos)
      omega
    obtain ⟨ks, heq, hcov⟩ := fiemapLoop_blocks f .start chunk_seekChunk
      (fun b hb hblind hlt heq => hlast ⟨b, hb, hblind, hlt, heq⟩) (by omega) hfuel
    have hbuilt := (built_start f).foldl ks
    rw [List.nil_append] at hbuilt
    have hdesc : ∀ last, Describes f start (min (start + len) isize)
        ((ks.foldl f.addBlock .start).flush last) := fun last => hbuilt.describes hcov
    refine ⟨_, by rw [FiemapFile.fiemap, range_end hisize hstart hlen, heq, Option.map_some],
      hdesc _, ?_⟩
    rcases List.eq_nil_or_concat ks with rfl | ⟨ks', k, hks⟩
    · refine iff_of_true (by simp [LastExact, FiemapRun.start, FiemapRun.flush]) ?_
      intro b hb hsb hbf
      cases (hcov.mem (b * pbufSize)).2 ⟨b, rfl, hsb, hbf, hb⟩
    · have hne : (ks.foldl f.addBlock .start).len ≠ 0 := by
        rw [hks, List.concat_eq_append, List.foldl_append]
        exact len_addBlock _ _
      have hflush : ∀ last, (ks.foldl f.addBlock .start).flush last = _ := fun last => if_pos hne
      have hd := hdesc
      simp only [hflush] at hd ⊢
      exact (hd _).lastExact_iff (min_le_right _ _)
        (fun x hx => hbuilt.unlast x (by rw [hflush]; simp [hx])) rfl
  refine ⟨hall, fun hdesc b hb hblind h0 => ?_, fun hno start hstart len hlen n hn => ?_⟩
  · by_contra hlt
    obtain ⟨c, rfl⟩ : ∃ c, b = c + 1 := ⟨b - 1, by omega⟩
    have hmul : (c + 1) * pbufSize = c * pbufSize + pbufSize := Nat.succ_mul c pbufSize
    have hpb : pbufSize + 1 < 2 ^ 63 := by decide
    obtain ⟨out, hout, hd⟩ := hdesc (c * pbufSize) (by omega) (pbufSize + 1) (by omega)
      (isize + 2 * pbufSize + 2) (by omega)
    exact not_describes_of_blind hisize hb hblind (by omega) hout hd
  · have hlast : ¬ f.LosesLast start (min (start + len) isize) := by
      rintro ⟨b, hb, hblind, hlt, heq⟩
      have := hno b hb hblind (Nat.zero_lt_of_lt hlt)
      omega
    obtain ⟨out, hout, hd, -⟩ := hall start hstart len hlen n hn hlast
    exact ⟨out, hout, hd⟩

/-- A file with one block of data, stored in its own size, and a second block without. -/
def holeAtEnd : FiemapFile where
  tree := {0}
  tag := ∅
  blind := ∅
  poff := fun _ => 2 ^ 22 + 16
  compressed := fun _ => false

/-- The description of a file that ends in a hole. -/
theorem fiemap_describes_holeAtEnd :
    ∃ out, holeAtEnd.fiemap (2 * pbufSize) 5 pbufSize (4 * pbufSize) = some out ∧
      Describes holeAtEnd 5 (min (5 + pbufSize) (2 * pbufSize)) out ∧
      (LastExact holeAtEnd (2 * pbufSize) out ↔
        EndsInData holeAtEnd (2 * pbufSize) 5 (min (5 + pbufSize) (2 * pbufSize))) :=
  (fiemap_describes holeAtEnd (by decide)).1 5 (by decide) pbufSize (by decide) (4 * pbufSize)
    (by decide) fun ⟨_, _, hblind, _⟩ => absurd hblind (Finset.notMem_empty _)

/-- **The last extent of a file that ends in a hole is not flagged.** -/
theorem fiemap_last_unset :
    holeAtEnd.fiemap (2 * pbufSize) 0 (2 * pbufSize) 3 =
        some [⟨0, 2 ^ 22, pbufSize, ⟨false, false, false⟩, false⟩] ∧
      ∀ b, holeAtEnd.Data b → b * pbufSize < 2 * pbufSize → b * pbufSize < 0 + pbufSize := by
  refine ⟨by decide +kernel, fun b hb _ => ?_⟩
  obtain rfl : b = 0 := by simpa [FileMap.Data, holeAtEnd] using hb
  decide

/-- The file of a gigabyte and more whose block at the gigabyte is behind a blind end. -/
def punchedExtents : FiemapFile := { punchedFile with
  poff := fun key => key + 2 ^ 22 + 16
  compressed := fun _ => false }

/-- **A query that ends with the first byte of the block loses it.** -/
theorem fiemap_loses_last :
    punchedExtents.fiemap (2 ^ 30 + pbufSize) (2 ^ 30 - 2 * pbufSize) (2 * pbufSize + 1) 3 =
        some [⟨2 ^ 30 - 2 * pbufSize, 2 ^ 30 - 2 * pbufSize + 2 ^ 22, pbufSize,
          ⟨false, false, false⟩, false⟩] ∧
      punchedExtents.Data 16384 ∧ 16384 * pbufSize < 2 ^ 30 - 2 * pbufSize + (2 * pbufSize + 1) :=
  ⟨by decide +kernel, Or.inl (by decide), by decide⟩

end Hammer2
