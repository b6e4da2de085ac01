import Hammer2.File.Blocks

/-!
# `SEEK_DATA` and `SEEK_HOLE`

`hammer2_seek_data_hole` scans a file in chunks. `SEEK_DATA` reads the tags of a chunk and then the
tree up to the first tagged block; `SEEK_HOLE` takes a hole from the tree, passes over the tagged
blocks from there, and accepts the block it comes to if the tree, read again, still has none there.

The file changes between the reads: `w k` is what the `k`-th read sees, with any steps of the
writeback between two of them. The blocks with data are the same all along, and both whences answer
by them unless the file ends with the first byte of a block that the scan loses
(`FileMap.LosesEnd`).

Reference: `hammer2_vnops.c:1569-1640`, `hammer2_vnops.c:1745-1935`.
-/

namespace Hammer2

namespace FileMap

/-- `hammer2_bmap_next_key` with step 0: the first key, or `ENOENT`. -/
def bmapFirst (f : FileMap) (keyBeg keyEnd : Nat) : Option Nat := (f.keysIn keyBeg keyEnd).head?

/-- The loop of `hammer2_bmap_next_key` over the keys collected, with the block size as the step. -/
def nextHole (keyEnd : Nat) : Nat → List Nat → Nat
  | want, [] => want
  | want, key :: keys =>
    if want < key then want
    else if keyEnd < key + pbufSize then key + pbufSize
    else nextHole keyEnd (key + pbufSize) keys

/-- `hammer2_bmap_next_key` with the block size as the step. -/
def bmapHole (f : FileMap) (keyBeg keyEnd : Nat) : Nat :=
  nextHole keyEnd keyBeg (f.keysIn keyBeg keyEnd)

end FileMap

section
variable (w : Nat → FileMap) (isize offset : Nat)

/-- The last byte of a chunk. -/
def chunkEnd (cur chunk : Nat) : Nat :=
  if isize - 1 - cur < chunk then isize - 1 else cur + chunk - 1

/-- One chunk of `SEEK_DATA`, with the reads from `k` on. -/
def dataChunk (k cur last : Nat) : Option Nat :=
  let base := offset / pbufSize * pbufSize
  let pos := if (w k).tagged then
      ((w (k + 1)).seekTagged cur last).map fun pos => pos / pbufSize * pbufSize
    else none
  match pos with
  | some pos =>
    if pos ≤ cur then some (if cur = base then offset else cur)
    else match (w (k + 2)).bmapFirst cur (pos - 1) with
      | some got => some (if got ≤ base then offset else got)
      | none => some pos
  | none => ((w (k + 2)).bmapFirst cur last).map fun got => if got ≤ base then offset else got

/-- The chunks of `SEEK_DATA`; the answer `none` is `-ENXIO`. -/
def seekData : Nat → Nat → Nat → Nat → Option (Option Nat)
  | 0, _, _, _ => none
  | n + 1, k, cur, chunk =>
    match dataChunk w offset k cur (chunkEnd isize cur chunk) with
    | some pos => some (some pos)
    | none =>
      if chunkEnd isize cur chunk = isize - 1 then some none
      else seekData n (k + 3) (chunkEnd isize cur chunk + 1) (seekNextChunk chunk true)

/-- `while (pos <= end && hammer2_seek_tagged(..) >= 0) pos += bsize`, with the next read. -/
def skipTagged (last : Nat) : Nat → Nat → Nat → Option (Nat × Nat)
  | 0, _, _ => none
  | n + 1, k, pos =>
    if pos ≤ last ∧ ((w k).seekTagged pos (pos + pbufSize - 1)).isSome then
      skipTagged last n (k + 1) (pos + pbufSize)
    else some (pos, k + 1)

/-- The candidates in one chunk of `SEEK_HOLE`, and the next read; `none` goes on with the next
chunk. `clean` is the block that the tags cleared last. -/
def holeChunk (tagged : Bool) (last : Nat) : Nat → Nat → Nat →
    Option Nat → Option (Option Nat × Nat)
  | 0, _, _, _ => none
  | n + 1, k, cur, clean =>
    let pos := (w k).bmapHole cur last
    if last < pos then some (none, k + 1)
    else if tagged = false ∨ clean = some pos then some (some (max pos offset), k + 1)
    else
      (skipTagged w last (last + 2) (k + 1) pos).bind fun (pos, k) =>
        if last < pos then some (none, k) else holeChunk tagged last n k pos (some pos)

/-- The chunks of `SEEK_HOLE`. -/
def seekHole : Nat → Nat → Nat → Nat → Option (Option Nat)
  | 0, _, _, _ => none
  | n + 1, k, cur, chunk =>
    let last := chunkEnd isize cur chunk
    (holeChunk w offset (w k).tagged last (last + 2) (k + 1) cur none).bind fun (r, k) =>
      match r with
      | some pos => some (some pos)
      | none =>
        if last = isize - 1 then some (some isize)
        else seekHole n k (last + 1) (seekNextChunk chunk false)

/-- `hammer2_seek_data_hole` of a file that is not stored in its inode, in at most `n` chunks. -/
def seekDataHole (data : Bool) (n : Nat) : Option (Option Nat) :=
  if isize ≤ offset then some none
  else if data then seekData w isize offset n 0 (offset / pbufSize * pbufSize) seekChunk
  else seekHole w isize offset n 0 (offset / pbufSize * pbufSize) seekChunk

end

/-! ## The reads -/

section
variable {f : FileMap} {c hi b last : Nat}

theorem pbufSize_pos : 0 < pbufSize := by decide

theorem block_of_mul (c : Nat) : (c * pbufSize + pbufSize - 1) / pbufSize = c := by
  unfold pbufSize
  omega

theorem le_div_iff (b last : Nat) : b ≤ last / pbufSize ↔ b * pbufSize ≤ last :=
  Nat.le_div_iff_mul_le pbufSize_pos

/-- A search of the tree finds its first block in the range: one that is lost begins with the last
byte. -/
theorem bmapFirst_some {got : Nat} (h : f.bmapFirst (c * pbufSize) last = some got) :
    ∃ b, got = b * pbufSize ∧ b ∈ f.tree ∧ c ≤ b ∧ b * pbufSize ≤ last ∧
      ∀ x ∈ f.tree, c ≤ x → b ≤ x := by
  rw [FileMap.bmapFirst, FileMap.keysIn, Nat.mul_div_cancel _ pbufSize_pos, List.head?_map,
    Option.map_eq_some_iff] at h
  obtain ⟨b, hb, rfl⟩ := h
  obtain ⟨⟨h1, h2, h3⟩, h4⟩ := blocksIn_head hb
  have hle := (le_div_iff b last).1 h3
  refine ⟨b, rfl, (FileMap.mem_seen.1 h1).1, h2, hle, fun x hx hcx => ?_⟩
  by_cases hlost : f.Lost (c * pbufSize) last x
  · rw [← hlost.2.1] at hle
    exact (Nat.mul_le_mul_right_iff pbufSize_pos).1 hle
  · exact h4 x (FileMap.mem_seen.2 ⟨hx, hlost⟩) hcx

/-- If no block is found, those of the tree are lost to the scan. -/
theorem bmapFirst_none (h : f.bmapFirst (c * pbufSize) last = none) :
    ∀ x ∈ f.tree, c ≤ x → x * pbufSize ≤ last → f.Lost (c * pbufSize) last x := by
  rw [FileMap.bmapFirst, FileMap.keysIn, Nat.mul_div_cancel _ pbufSize_pos, List.head?_map,
    Option.map_eq_none_iff] at h
  intro x hx hcx hle
  by_contra hlost
  have := blocksIn_head_none h x (FileMap.mem_seen.2 ⟨hx, hlost⟩) hcx
  exact absurd ((le_div_iff x last).2 hle) (by omega)

/-- A search of the tags finds the first tagged block in the range. -/
theorem seekTagged_some {pos : Nat} (h : f.seekTagged (c * pbufSize) last = some pos) :
    ∃ b, pos = b * pbufSize ∧ b ∈ f.tag ∧ c ≤ b ∧ b * pbufSize ≤ last ∧
      ∀ x ∈ f.tag, c ≤ x → b ≤ x := by
  rw [FileMap.seekTagged, Nat.mul_div_cancel _ pbufSize_pos, Option.map_eq_some_iff] at h
  obtain ⟨b, hb, rfl⟩ := h
  obtain ⟨⟨h1, h2, h3⟩, h4⟩ := blocksIn_head hb
  exact ⟨b, max_eq_left (Nat.mul_le_mul_right _ h2), h1, h2, (le_div_iff b last).1 h3, h4⟩

/-- If no tag is found, the range has none. -/
theorem seekTagged_none (h : f.seekTagged (c * pbufSize) last = none) :
    ∀ x ∈ f.tag, c ≤ x → last < x * pbufSize := by
  rw [FileMap.seekTagged, Nat.mul_div_cancel _ pbufSize_pos, Option.map_eq_none_iff] at h
  intro x hx hcx
  have := blocksIn_head_none h x hx hcx
  exact Nat.lt_of_not_le fun hle => absurd ((le_div_iff x last).2 hle) (by omega)

/-- The loop over the keys stops at the first block that the tree does not have, or behind the
range. -/
theorem nextHole_spec {s : Finset Nat} {l : List Nat} (hl : ∀ x ∈ l, x ∈ s ∧ c ≤ x)
    (hs : ∀ x ∈ s, c ≤ x → x * pbufSize ≤ last → x ∈ l) (hsort : l.Pairwise (· < ·)) :
    ∃ b, FileMap.nextHole last (c * pbufSize) (l.map (· * pbufSize)) = b * pbufSize ∧ c ≤ b ∧
      (∀ x, c ≤ x → x < b → x ∈ s) ∧ (b * pbufSize ≤ last → b ∉ s) := by
  induction l generalizing c with
  | nil =>
    refine ⟨c, rfl, le_rfl, fun x h1 h2 => by omega, fun hle hc => ?_⟩
    exact absurd (hs c hc le_rfl hle) List.not_mem_nil
  | cons k l ih =>
    obtain ⟨hk, hck⟩ := hl k List.mem_cons_self
    obtain ⟨hrel, hsort'⟩ := List.pairwise_cons.1 hsort
    rw [List.map_cons, FileMap.nextHole]
    rcases hck.lt_or_eq with hlt | rfl
    · refine ⟨c, if_pos (Nat.mul_lt_mul_of_pos_right hlt pbufSize_pos), le_rfl,
        fun x h1 h2 => by omega, fun hle hc => ?_⟩
      rcases List.mem_cons.1 (hs c hc le_rfl hle) with rfl | hmem
      · omega
      · have := hrel c hmem
        omega
    · have hone : ∀ x, c ≤ x → x < c + 1 → x ∈ s := fun x h1 h2 => by
        obtain rfl : x = c := by omega
        exact hk
      have hmul : c * pbufSize + pbufSize = (c + 1) * pbufSize := (Nat.succ_mul c pbufSize).symm
      rw [if_neg (lt_irrefl _), hmul]
      split
      · exact ⟨c + 1, rfl, by omega, hone, fun hle => by omega⟩
      · have hrest : ∀ x ∈ s, c + 1 ≤ x → x * pbufSize ≤ last → x ∈ l := fun x hx hcx hle => by
          rcases List.mem_cons.1 (hs x hx (by omega) hle) with rfl | hmem
          · omega
          · exact hmem
        obtain ⟨b, heq, hcb, hall, hnot⟩ :=
          ih (fun x hx => ⟨(hl x (List.mem_cons_of_mem _ hx)).1, hrel x hx⟩) hrest hsort'
        refine ⟨b, heq, by omega, fun x h1 h2 => ?_, hnot⟩
        rcases h1.lt_or_eq with hlt | rfl
        · exact hall x hlt h2
        · exact hk

/-- The scan stops at the first block that it does not come to, or behind the range. -/
theorem bmapHole_spec (f : FileMap) (c last : Nat) :
    ∃ b, f.bmapHole (c * pbufSize) last = b * pbufSize ∧ c ≤ b ∧
      (∀ x, c ≤ x → x < b → x ∈ f.seen (c * pbufSize) last) ∧
      (b * pbufSize ≤ last → b ∉ f.seen (c * pbufSize) last) := by
  rw [FileMap.bmapHole, FileMap.keysIn, Nat.mul_div_cancel _ pbufSize_pos]
  refine nextHole_spec (fun x hx => ?_) (fun x hx hcx hle => ?_) blocksIn_sorted
  · exact ⟨(mem_blocksIn.1 hx).1, (mem_blocksIn.1 hx).2.1⟩
  · exact mem_blocksIn.2 ⟨hx, hcx, (le_div_iff x last).2 hle⟩

end

/-! ## The chunks -/

/-- The file ends with the first byte of a block behind a blind end, and the tags do not make up for
it: the block has no tag, and the one before it no data, or no block has a tag. -/
def FileMap.LosesEnd (f : FileMap) (isize : Nat) : Prop :=
  ∃ x, 0 < x ∧ x * pbufSize = isize - 1 ∧ x ∈ f.blind ∧ x ∈ f.tree ∧ x ∉ f.tag ∧
    (¬ f.Data (x - 1) ∨ f.tag = ∅)

/-- `D` is the blocks with data, at every read of `w`; a block that a read of the tags missed is in
the tree at the reads after it, and has no tag at them. -/
structure Watched (w : Nat → FileMap) (D : Nat → Prop) : Prop where
  data : ∀ k b, (w k).Data b ↔ D b
  later : ∀ {j k b}, j ≤ k → D b → b ∉ (w j).tag → b ∈ (w k).tree
  untagged : ∀ {j k}, j ≤ k → (w k).tag ⊆ (w j).tag

/-- A file that only writes out keeps its data. -/
theorem watched_of_later {w : Nat → FileMap} (hw : ∀ k, FileMap.Later (w k) (w (k + 1))) :
    Watched w (w 0).Data := by
  have hlater : ∀ {j k}, j ≤ k → FileMap.Later (w j) (w k) := fun hjk => by
    induction hjk with
    | refl => exact .refl
    | step _ ih => exact ih.trans (hw _)
  have hdata : ∀ k b, (w k).Data b ↔ (w 0).Data b := fun k b => (hlater (Nat.zero_le k)).data_iff
  exact ⟨hdata, fun hjk hb ht => (hlater hjk).mem_tree ((hdata _ _).2 hb) ht,
    fun hjk => (hlater hjk).tag_subset⟩

section
variable {w : Nat → FileMap} {D : Nat → Prop} {isize offset c k last : Nat}

variable {b q j lim n chunk : Nat} {P : Nat → Prop}

/-- A block of the tree is data. -/
theorem Watched.mem_of_tree (h : Watched w D) (hb : b ∈ (w k).tree) : D b :=
  (h.data k b).1 (Or.inl hb)

/-- A tagged block is data. -/
theorem Watched.mem_of_tag (h : Watched w D) (hb : b ∈ (w k).tag) : D b :=
  (h.data k b).1 (Or.inr hb)

/-- Where the file does not lose its end, a scan of a chunk comes to a block that has no tag, if the
one before it has no data or there is no tag at all. -/
theorem Watched.not_lost (h : Watched w D) (hends : ∀ k, ¬ (w k).LosesEnd isize)
    (hlast : last = isize - 1 ∨ ∃ d, last + 1 = d * pbufSize) {x : Nat} (hx : D x)
    (htag : x ∉ (w k).tag) (hbefore : c < x → ¬ D (x - 1) ∨ (w k).tag = ∅) :
    ¬ (w k).Lost (c * pbufSize) last x := by
  rintro ⟨hlt, hxl, hblind⟩
  have hcx' : c < x := by
    rw [← hxl] at hlt
    exact (Nat.mul_lt_mul_right pbufSize_pos).1 hlt
  rcases hlast with rfl | ⟨d, hd⟩
  · refine hends k ⟨x, by omega, hxl, hblind, h.later le_rfl hx htag, htag, ?_⟩
    rw [h.data]
    exact hbefore hcx'
  · unfold pbufSize at hxl hd
    omega

/-- `b` is the first block from `c` on with the property, and begins at `last` or before. -/
structure FirstBlock (P : Nat → Prop) (c last b : Nat) : Prop where
  mem : P b
  le : c ≤ b
  le_last : b * pbufSize ≤ last
  before : ∀ x, c ≤ x → x < b → ¬ P x

/-- The search may start earlier if there is nothing before. -/
theorem FirstBlock.extend (h : FirstBlock P q last b) (hcq : c ≤ q)
    (hbefore : ∀ x, c ≤ x → x < q → ¬ P x) : FirstBlock P c last b :=
  ⟨h.mem, hcq.trans h.le, h.le_last, fun x h1 h2 =>
    (Nat.lt_or_ge x q).elim (fun hlt => hbefore x h1 hlt) fun hge => h.before x hge h2⟩

theorem FirstBlock.mono {last' : Nat} (h : FirstBlock P c last b) (hle : last ≤ last') :
    FirstBlock P c last' b :=
  ⟨h.mem, h.le, h.le_last.trans hle, h.before⟩

/-- A read of the tree up to a block before which no tag was read finds the first data. -/
theorem Watched.firstData (h : Watched w D) {got : Nat} (hjk : j ≤ k) (hlim : lim ≤ last)
    (htag : ∀ x ∈ (w j).tag, c ≤ x → lim < x * pbufSize)
    (hget : (w k).bmapFirst (c * pbufSize) lim = some got) :
    ∃ b, got = b * pbufSize ∧ FirstBlock D c last b := by
  obtain ⟨b, rfl, hb, hcb, hle, hmin⟩ := bmapFirst_some hget
  refine ⟨b, rfl, h.mem_of_tree hb, hcb, hle.trans hlim, fun x hcx hxb hx => ?_⟩
  have hxlim : x * pbufSize ≤ lim := (Nat.mul_le_mul_right _ hxb.le).trans hle
  have hxt : x ∉ (w j).tag := fun ht => absurd (htag x ht hcx) (by omega)
  have := hmin x (h.later hjk hx hxt) hcx
  omega

/-- A read of the tree that finds nothing there misses only what it loses. -/
theorem Watched.noData (h : Watched w D) (hjk : j ≤ k)
    (htag : ∀ x ∈ (w j).tag, c ≤ x → lim < x * pbufSize)
    (hget : (w k).bmapFirst (c * pbufSize) lim = none) :
    ∀ x, c ≤ x → x * pbufSize ≤ lim → D x → (w k).Lost (c * pbufSize) lim x ∧ x ∉ (w k).tag := by
  intro x hcx hle hx
  have hxt : x ∉ (w j).tag := fun ht => absurd (htag x ht hcx) (by omega)
  exact ⟨bmapFirst_none hget x (h.later hjk hx hxt) hcx hle, fun ht => hxt (h.untagged hjk ht)⟩

/-- **A chunk of `SEEK_DATA`** finds the first block with data in it. -/
theorem Watched.dataChunk (h : Watched w D) (hends : ∀ k, ¬ (w k).LosesEnd isize)
    (hlast : last = isize - 1 ∨ ∃ d, last + 1 = d * pbufSize) (hc : offset / pbufSize ≤ c) :
    (∃ b, Hammer2.dataChunk w offset k (c * pbufSize) last =
        some (if b ≤ offset / pbufSize then offset else b * pbufSize) ∧ FirstBlock D c last b) ∨
      Hammer2.dataChunk w offset k (c * pbufSize) last = none ∧
        ∀ x, c ≤ x → x * pbufSize ≤ last → ¬ D x := by
  have hkey : ∀ b, b * pbufSize ≤ offset / pbufSize * pbufSize ↔ b ≤ offset / pbufSize := fun b =>
    Nat.mul_le_mul_right_iff pbufSize_pos
  cases hpos : if (w k).tagged then
      ((w (k + 1)).seekTagged (c * pbufSize) last).map fun pos => pos / pbufSize * pbufSize
    else none with
  | none =>
    -- No tag is read, in the whole mapping or in the chunk.
    obtain ⟨j, hj, htag⟩ : ∃ j ≤ k + 2, ∀ x ∈ (w j).tag, c ≤ x → last < x * pbufSize := by
      split at hpos
      · exact ⟨k + 1, by omega, seekTagged_none (Option.map_eq_none_iff.1 hpos)⟩
      · rename_i hnot
        refine ⟨k, by omega, fun x hx => ?_⟩
        simp [FileMap.tagged] at hnot
        simp [hnot] at hx
    simp only [Hammer2.dataChunk, hpos]
    cases hget : (w (k + 2)).bmapFirst (c * pbufSize) last with
    | none =>
      have hno := h.noData hj htag hget
      refine Or.inr ⟨rfl, fun x hcx hle hx => ?_⟩
      obtain ⟨hlost, hxt⟩ := hno x hcx hle hx
      refine h.not_lost hends hlast hx hxt (fun hlt => Or.inl fun hprev => ?_) hlost
      -- The block before the one that is lost is not lost as well.
      have hmul := Nat.mul_lt_mul_of_pos_right (Nat.sub_one_lt_of_lt hlt) pbufSize_pos
      have hprev := (hno (x - 1) (by omega) (by omega) hprev).1.2.1
      have := hlost.2.1
      omega
    | some got =>
      obtain ⟨b, rfl, hb⟩ := h.firstData hj le_rfl htag hget
      exact Or.inl ⟨b, by rw [Option.map_some]; simp only [hkey], hb⟩
  | some pos =>
    obtain ⟨p, rfl, hp, hcp, hple, hmin⟩ : ∃ p, pos = p * pbufSize ∧ p ∈ (w (k + 1)).tag ∧ c ≤ p ∧
        p * pbufSize ≤ last ∧ ∀ x ∈ (w (k + 1)).tag, c ≤ x → p ≤ x := by
      split at hpos
      · rw [Option.map_eq_some_iff] at hpos
        obtain ⟨q, hq, rfl⟩ := hpos
        obtain ⟨p, rfl, hp⟩ := seekTagged_some hq
        exact ⟨p, by rw [Nat.mul_div_cancel _ pbufSize_pos], hp⟩
      · cases hpos
    have hpD := h.mem_of_tag hp
    simp only [Hammer2.dataChunk, hpos]
    left
    split
    · rename_i hle
      have hpc : p ≤ c := (Nat.mul_le_mul_right_iff pbufSize_pos).1 hle
      obtain rfl : p = c := le_antisymm hpc hcp
      refine ⟨p, ?_, hpD, le_rfl, hple, fun x h1 h2 => by omega⟩
      congr 1
      refine if_congr ?_ rfl rfl
      rw [Nat.mul_right_cancel_iff pbufSize_pos]
      omega
    · rename_i hlt
      have hto : p * pbufSize - 1 ≤ last := by omega
      have hcp' : c < p := (Nat.mul_lt_mul_right pbufSize_pos).1 (Nat.lt_of_not_le hlt)
      have htag : ∀ x ∈ (w (k + 1)).tag, c ≤ x → p * pbufSize - 1 < x * pbufSize := by
        intro x hx hcx
        have := Nat.mul_le_mul_right pbufSize (hmin x hx hcx)
        omega
      cases hget : (w (k + 2)).bmapFirst (c * pbufSize) (p * pbufSize - 1) with
      | some got =>
        obtain ⟨b, rfl, hb⟩ := h.firstData (by omega) hto htag hget
        exact ⟨b, by simp only [hkey], hb⟩
      | none =>
        refine ⟨p, by rw [if_neg (by omega)], hpD, hcp, hple, fun x hcx hxp => ?_⟩
        have := Nat.mul_lt_mul_of_pos_right hxp pbufSize_pos
        intro hx
        have hxl := (h.noData (by omega) htag hget x hcx (by omega) hx).1.2.1
        unfold pbufSize at hxl this hlt
        omega

/-- A search of one block tells whether it is tagged. -/
theorem seekTagged_block (f : FileMap) (p : Nat) :
    (f.seekTagged (p * pbufSize) (p * pbufSize + pbufSize - 1)).isSome ↔ p ∈ f.tag := by
  cases h : f.seekTagged (p * pbufSize) (p * pbufSize + pbufSize - 1) with
  | some pos =>
    obtain ⟨b, -, hb, hpb, hle, -⟩ := seekTagged_some h
    obtain rfl : b = p := by
      have := (le_div_iff b _).2 hle
      rw [block_of_mul] at this
      omega
    exact iff_of_true rfl hb
  | none =>
    refine iff_of_false (by simp) fun hp => ?_
    have := seekTagged_none h p hp le_rfl
    have := pbufSize_pos
    omega

/-- The tagged blocks from `p` on are passed over, up to one that a read has seen without a tag. -/
theorem Watched.skipTagged (h : Watched w D) {p : Nat} (hn : last / pbufSize + 2 ≤ n + p)
    (hp : p * pbufSize ≤ last) :
    ∃ q k', Hammer2.skipTagged w last n k (p * pbufSize) = some (q * pbufSize, k') ∧ k ≤ k' ∧
    p ≤ q ∧
      (∀ x, p ≤ x → x < q → D x) ∧ (q * pbufSize ≤ last → ∃ j ≤ k', q ∉ (w j).tag) := by
  induction n generalizing p k with
  | zero =>
    have := (le_div_iff p last).2 hp
    omega
  | succ n ih =>
    rw [Hammer2.skipTagged]
    simp only [seekTagged_block]
    by_cases ht : p ∈ (w k).tag
    · have hD := h.mem_of_tag ht
      rw [if_pos ⟨hp, ht⟩, ← Nat.succ_mul]
      have hone : ∀ x, p ≤ x → x < p + 1 → D x := fun x h1 h2 => by
        obtain rfl : x = p := by omega
        exact hD
      by_cases hnext : (p + 1) * pbufSize ≤ last
      · obtain ⟨q, k', heq, hk, hpq, hall, hq⟩ := ih (k := k + 1) (p := p + 1) (by omega) hnext
        refine ⟨q, k', heq, by omega, by omega, fun x h1 h2 => ?_, hq⟩
        rcases h1.lt_or_eq with hlt | rfl
        · exact hall x hlt h2
        · exact hD
      · -- Behind the chunk the tags are not read.
        cases n with
        | zero =>
          have := (le_div_iff p last).2 hp
          omega
        | succ n =>
          refine ⟨p + 1, k + 1 + 1, ?_, by omega, by omega, hone, fun hle => absurd hle hnext⟩
          rw [Hammer2.skipTagged, if_neg fun hc => hnext hc.1]
    · refine ⟨p, k + 1, if_neg fun hc => ht hc.2, by omega, le_rfl, fun x h1 h2 => by omega,
        fun _ => ⟨k, by omega, ht⟩⟩

/-- What a chunk of `SEEK_HOLE` finds: the first block without data, or none. -/
def HoleIn (D : Nat → Prop) (offset c last : Nat) (r : Option Nat) : Prop :=
  (∃ b, r = some (max (b * pbufSize) offset) ∧ FirstBlock (fun b => ¬ D b) c last b) ∨
    r = none ∧ ∀ x, c ≤ x → x * pbufSize ≤ last → D x

/-- The search for a hole may start earlier if there is only data before. -/
theorem HoleIn.extend {r : Option Nat} (h : HoleIn D offset q last r) (hcq : c ≤ q)
    (hbefore : ∀ x, c ≤ x → x < q → D x) : HoleIn D offset c last r := by
  rcases h with ⟨b, hr, hb⟩ | ⟨hr, hd⟩
  · exact Or.inl ⟨b, hr, hb.extend hcq fun x h1 h2 => not_not.2 (hbefore x h1 h2)⟩
  · exact Or.inr ⟨hr, fun x h1 h2 =>
      (Nat.lt_or_ge x q).elim (fun hlt => hbefore x h1 hlt) fun hge => hd x hge h2⟩

/-- **A chunk of `SEEK_HOLE`** finds the first block without data in it. -/
theorem Watched.holeChunk (h : Watched w D) (hends : ∀ k, ¬ (w k).LosesEnd isize)
    (hchunkEnd : last = isize - 1 ∨ ∃ d, last + 1 = d * pbufSize) {tagged : Bool}
    {clean : Option Nat}
    (htagged : tagged = false → ∃ j ≤ k, (w j).tag = ∅)
    (hclean : ∀ p, clean = some p → p = c * pbufSize ∧ ∃ j ≤ k, c ∉ (w j).tag)
    (hn : last / pbufSize + 2 ≤ n + c + if clean = none then 0 else 1) (hc : c * pbufSize ≤ last) :
    ∃ r k', Hammer2.holeChunk w offset tagged last n k (c * pbufSize) clean = some (r, k') ∧
    k ≤ k' ∧
      HoleIn D offset c last r := by
  induction n generalizing c k clean with
  | zero =>
    have := (le_div_iff c last).2 hc
    split at hn <;> omega
  | succ n ih =>
    obtain ⟨b, hb, hcb, hall, hnot⟩ := bmapHole_spec (w k) c last
    have hbefore : ∀ x, c ≤ x → x < b → D x := fun x h1 h2 =>
      h.mem_of_tree (FileMap.mem_seen.1 (hall x h1 h2)).1
    rw [Hammer2.holeChunk]
    simp only [hb]
    by_cases hlast : last < b * pbufSize
    · refine ⟨none, k + 1, if_pos hlast, by omega, Or.inr ⟨rfl, fun x h1 h2 => hbefore x h1 ?_⟩⟩
      exact (Nat.mul_lt_mul_right pbufSize_pos).1 (h2.trans_lt hlast)
    · rw [if_neg hlast]
      have hble := Nat.le_of_not_lt hlast
      -- The scan comes to no block there, and the tags had none before the tree was read.
      have hhole : ∀ j ≤ k, b ∉ (w j).tag → (c < b → (w k).tag = ∅) → ¬ D b := fun j hj ht he hD =>
        hnot hble (FileMap.mem_seen.2 ⟨h.later hj hD ht, h.not_lost hends hchunkEnd hD
          (fun hb => ht (h.untagged hj hb)) fun hlt => Or.inr (he hlt)⟩)
      by_cases hdone : tagged = false ∨ clean = some (b * pbufSize)
      · refine ⟨_, _, if_pos hdone, by omega, Or.inl ⟨b, rfl, ?_, hcb, hble,
          fun x h1 h2 => not_not.2 (hbefore x h1 h2)⟩⟩
        rcases hdone with hfalse | hcl
        · obtain ⟨j, hj, hempty⟩ := htagged hfalse
          exact hhole j hj (by simp [hempty]) fun _ =>
            Finset.subset_empty.1 (hempty ▸ h.untagged hj)
        · obtain ⟨hbc, j, hj, ht⟩ := hclean _ hcl
          obtain rfl : b = c := Nat.eq_of_mul_eq_mul_right pbufSize_pos hbc
          exact hhole j hj ht fun hlt => absurd hlt (lt_irrefl _)
      · rw [if_neg hdone]
        have hfuel : last / pbufSize + 2 ≤ last + 2 + b := by
          have := Nat.div_le_self last pbufSize
          omega
        obtain ⟨q, k', hskip, hk, hbq, hskipped, hq⟩ := h.skipTagged (k := k + 1) hfuel hble
        rw [hskip, Option.bind_some]
        dsimp only
        have hupto : ∀ x, c ≤ x → x < q → D x := fun x h1 h2 => by
          rcases Nat.lt_or_ge x b with hlt | hge
          · exact hbefore x h1 hlt
          · exact hskipped x hge h2
        by_cases hqlast : last < q * pbufSize
        · refine ⟨none, k', if_pos hqlast, by omega, Or.inr ⟨rfl, fun x h1 h2 => hupto x h1 ?_⟩⟩
          exact (Nat.mul_lt_mul_right pbufSize_pos).1 (h2.trans_lt hqlast)
        · rw [if_neg hqlast]
          have hqle := Nat.le_of_not_lt hqlast
          -- From the second candidate on, the tree has got the block that the tags had cleared.
          have hgrow : clean ≠ none → c < q := by
            intro hne
            obtain ⟨p, hp⟩ := Option.ne_none_iff_exists'.1 hne
            obtain ⟨rfl, -⟩ := hclean p hp
            refine (hcb.lt_of_ne fun hcb => ?_).trans_le hbq
            exact hdone (Or.inr (hcb ▸ hp))
          have hleft : last / pbufSize + 2 ≤
              n + q + if some (q * pbufSize) = none then 0 else 1 := by
            rw [if_neg (by simp)]
            by_cases hcl : clean = none
            · rw [if_pos hcl] at hn
              omega
            · rw [if_neg hcl] at hn
              have := hgrow hcl
              omega
          have htagged' : tagged = false → ∃ j ≤ k', (w j).tag = ∅ := fun hf => by
            obtain ⟨j, hj, he⟩ := htagged hf
            exact ⟨j, by omega, he⟩
          obtain ⟨r, k'', heq, hk', hres⟩ := ih htagged'
            (fun p hp => ⟨(Option.some.inj hp).symm, hq hqle⟩) hleft hqle
          exact ⟨r, k'', heq, by omega, hres.extend (by omega) hupto⟩

/-- The chunk at a block below the size ends at the size, or with a block that is still below it. -/
theorem chunkEnd_cases (hc : c * pbufSize < isize) (hchunk : Chunk chunk) :
    c * pbufSize ≤ chunkEnd isize (c * pbufSize) chunk ∧
      (chunkEnd isize (c * pbufSize) chunk = isize - 1 ∨
        ∃ d, c < d ∧ chunkEnd isize (c * pbufSize) chunk + 1 = d * pbufSize ∧
          d * pbufSize < isize) := by
  obtain ⟨m, hm, rfl⟩ := hchunk
  have hpos := Nat.mul_pos hm pbufSize_pos
  unfold chunkEnd
  split
  · exact ⟨by omega, Or.inl rfl⟩
  · exact ⟨by omega, Or.inr ⟨c + m, by omega,
      by rw [Nat.add_mul]; omega, by rw [Nat.add_mul]; omega⟩⟩

/-! ## The answers -/

/-- The answer by the blocks with the property: the least position at or after the offset in one of
them, or none below the size. -/
def Answer (P : Nat → Prop) (isize offset : Nat) : Option Nat → Prop
  | some r => offset ≤ r ∧ r < isize ∧ P (r / pbufSize) ∧
      ∀ p, offset ≤ p → p < r → ¬ P (p / pbufSize)
  | none => ∀ p, offset ≤ p → p < isize → ¬ P (p / pbufSize)

/-- The first block of the file answers the seek. -/
theorem FirstBlock.answer (h : FirstBlock P (offset / pbufSize) (isize - 1) b)
    (ho : offset < isize) :
    Answer P isize offset (some (max (b * pbufSize) offset)) := by
  have hle := h.le
  have hlast := h.le_last
  have hdiv : max (b * pbufSize) offset / pbufSize = b := by
    refine Nat.div_eq_of_lt_le (le_max_left _ _) (max_lt ?_ ?_)
    · exact Nat.mul_lt_mul_of_pos_right (Nat.lt_succ_self b) pbufSize_pos
    · exact (Nat.div_lt_iff_lt_mul pbufSize_pos).1 (by omega)
  refine ⟨le_max_right _ _, by omega, by rw [hdiv]; exact h.mem, fun p h1 h2 => ?_⟩
  refine h.before _ (Nat.div_le_div_right h1) ?_
  exact (Nat.div_lt_iff_lt_mul pbufSize_pos).2 ((lt_max_iff.1 h2).resolve_right (by omega))

/-- Without a block the seek has no answer. -/
theorem answer_none (h : ∀ x, offset / pbufSize ≤ x → x * pbufSize ≤ isize - 1 → ¬ P x) :
    Answer P isize offset none := by
  intro p h1 h2
  refine h _ (Nat.div_le_div_right h1) ?_
  have := Nat.div_mul_le_self p pbufSize
  omega

/-- The chunks of `SEEK_DATA` from a block on before which there is no data. -/
theorem Watched.seekData (h : Watched w D) (hends : ∀ k, ¬ (w k).LosesEnd isize)
    (hchunk : Chunk chunk) (ho : offset < isize)
    (hoc : offset / pbufSize ≤ c) (hc : c * pbufSize < isize)
    (hbefore : ∀ x, offset / pbufSize ≤ x → x < c → ¬ D x) (hn : isize ≤ (n + c) * pbufSize) :
    ∃ r, Hammer2.seekData w isize offset n k (c * pbufSize) chunk = some r ∧
      Answer D isize offset r := by
  induction n generalizing c k chunk with
  | zero =>
    rw [Nat.zero_add] at hn
    omega
  | succ n ih =>
    obtain ⟨hlast, hend⟩ := chunkEnd_cases hc hchunk
    have hblock := hend.imp_right fun ⟨d, _, hd, _⟩ => (⟨d, hd⟩ : ∃ d, _ = d * pbufSize)
    rw [Hammer2.seekData]
    rcases h.dataChunk hends hblock hoc with ⟨b, heq, hb⟩ | ⟨heq, hno⟩
    · rw [heq]
      have hmax : (if b ≤ offset / pbufSize then offset else b * pbufSize) =
          max (b * pbufSize) offset := by
        split
        · rename_i hle
          exact (max_eq_right ((le_div_iff b offset).1 hle)).symm
        · rename_i hgt
          exact (max_eq_left (Nat.le_of_lt (Nat.lt_of_not_le fun hle =>
            hgt ((le_div_iff b offset).2 hle)))).symm
      refine ⟨_, rfl, hmax ▸ ((hb.extend hoc hbefore).mono ?_).answer ho⟩
      rcases hend with hend | ⟨d, -, hend, hd⟩ <;> omega
    · rw [heq]
      have hall : ∀ x, offset / pbufSize ≤ x →
          x * pbufSize ≤ chunkEnd isize (c * pbufSize) chunk → ¬ D x := fun x h1 h2 =>
        (Nat.lt_or_ge x c).elim (fun hlt => hbefore x h1 hlt) fun hge => hno x hge h2
      by_cases hfin : chunkEnd isize (c * pbufSize) chunk = isize - 1
      · exact ⟨none, if_pos hfin, answer_none (hfin ▸ hall)⟩
      · obtain ⟨d, hcd, hd, hlt⟩ := hend.resolve_left hfin
        dsimp only
        rw [if_neg hfin, hd]
        refine ih (hchunk.next true) (by omega) hlt (fun x h1 h2 => hall x h1 ?_) ?_
        · have := Nat.mul_lt_mul_of_pos_right h2 pbufSize_pos
          omega
        · exact hn.trans (Nat.mul_le_mul_right _ (by omega))

/-- The chunks of `SEEK_HOLE` from a block on before which there is no hole. -/
theorem Watched.seekHole (h : Watched w D) (hends : ∀ k, ¬ (w k).LosesEnd isize)
    (hchunk : Chunk chunk) (ho : offset < isize)
    (hoc : offset / pbufSize ≤ c) (hc : c * pbufSize < isize)
    (hbefore : ∀ x, offset / pbufSize ≤ x → x < c → D x) (hn : isize ≤ (n + c) * pbufSize) :
    ∃ r, Hammer2.seekHole w isize offset n k (c * pbufSize) chunk = some (some (r.getD isize)) ∧
      Answer (fun b => ¬ D b) isize offset r := by
  induction n generalizing c k chunk with
  | zero =>
    rw [Nat.zero_add] at hn
    omega
  | succ n ih =>
    obtain ⟨hlast, hend⟩ := chunkEnd_cases hc hchunk
    have hfuel : chunkEnd isize (c * pbufSize) chunk / pbufSize + 2 ≤
        chunkEnd isize (c * pbufSize) chunk + 2 + c +
          if (none : Option Nat) = none then 0 else 1 := by
      have := Nat.div_le_self (chunkEnd isize (c * pbufSize) chunk) pbufSize
      omega
    have htagged : (w k).tagged = false → ∃ j ≤ k + 1, (w j).tag = ∅ := fun hf =>
      ⟨k, by omega, by simpa [FileMap.tagged] using hf⟩
    have hblock := hend.imp_right fun ⟨d, _, hd, _⟩ => (⟨d, hd⟩ : ∃ d, _ = d * pbufSize)
    obtain ⟨r, k', heq, -, hres⟩ := h.holeChunk hends hblock htagged
      (fun _ hp => by cases hp) hfuel hlast
    rw [Hammer2.seekHole]
    dsimp only
    rw [heq, Option.bind_some]
    rcases hres.extend hoc hbefore with ⟨b, rfl, hb⟩ | ⟨rfl, hall⟩
    · refine ⟨_, rfl, (hb.mono ?_).answer ho⟩
      rcases hend with hend | ⟨d, -, hend, hd⟩ <;> omega
    · by_cases hfin : chunkEnd isize (c * pbufSize) chunk = isize - 1
      · exact ⟨none, if_pos hfin, answer_none fun x h1 h2 => not_not.2 (hall x h1 (hfin ▸ h2))⟩
      · obtain ⟨d, hcd, hd, hlt⟩ := hend.resolve_left hfin
        dsimp only
        rw [if_neg hfin, hd]
        refine ih (hchunk.next false) (by omega) hlt (fun x h1 h2 => hall x h1 ?_) ?_
        · have := Nat.mul_lt_mul_of_pos_right h2 pbufSize_pos
          omega
        · exact hn.trans (Nat.mul_le_mul_right _ (by omega))

end

/-- The answers to both whences are those by the blocks with data. -/
def SeekRight (w : Nat → FileMap) (isize offset n : Nat) : Prop :=
  (∃ r, seekDataHole w isize offset true n = some r ∧ Answer (w 0).Data isize offset r) ∧
    ∃ r, seekDataHole w isize offset false n = some (some (r.getD isize)) ∧
      Answer (fun b => ¬ (w 0).Data b) isize offset r

section
variable {f : FileMap} {isize c n : Nat}

/-- The scan from the block before the end is one chunk. -/
theorem chunkEnd_end (hsize : isize = (c + 1) * pbufSize + 1) :
    chunkEnd isize (c * pbufSize) seekChunk = isize - 1 := by
  rw [chunkEnd, if_pos]
  rw [hsize, Nat.succ_mul]
  unfold seekChunk pbufSize
  omega

/-- `SEEK_DATA` from the hole before an end that is lost finds nothing. -/
theorem seekData_end (hsize : isize = (c + 1) * pbufSize + 1) (hblind : c + 1 ∈ f.blind)
    (htag : c + 1 ∉ f.tag) (hprev : ¬ f.Data c) :
    seekDataHole (fun _ => f) isize (c * pbufSize) true (n + 1) = some none := by
  have hpos := pbufSize_pos
  have hend := chunkEnd_end hsize
  have hlast : isize - 1 = (c + 1) * pbufSize := by omega
  have hlt : c * pbufSize < (c + 1) * pbufSize :=
    Nat.mul_lt_mul_of_pos_right (Nat.lt_succ_self c) hpos
  have honly : ∀ y, c ≤ y → y * pbufSize ≤ isize - 1 → y = c ∨ y = c + 1 := fun y h1 h2 => by
    rw [hlast, Nat.mul_le_mul_right_iff hpos] at h2
    omega
  have hfirst : f.bmapFirst (c * pbufSize) (isize - 1) = none := by
    cases hf : f.bmapFirst (c * pbufSize) (isize - 1) with
    | none => rfl
    | some got =>
      rw [FileMap.bmapFirst] at hf
      obtain ⟨b, hb, -⟩ := List.mem_map.1 (List.mem_of_mem_head? hf)
      obtain ⟨hseen, hcb, hle⟩ := mem_blocksIn.1 hb
      rw [Nat.mul_div_cancel _ hpos] at hcb
      obtain ⟨hbt, hbl⟩ := FileMap.mem_seen.1 hseen
      rcases honly b hcb ((le_div_iff b _).1 hle) with rfl | rfl
      · exact absurd (Or.inl hbt) hprev
      · exact absurd ⟨hlt.trans_eq hlast.symm, hlast.symm, hblind⟩ hbl
  have htags : f.seekTagged (c * pbufSize) (isize - 1) = none := by
    cases hs : f.seekTagged (c * pbufSize) (isize - 1) with
    | none => rfl
    | some pos =>
      obtain ⟨b, -, hb, hcb, hle, -⟩ := seekTagged_some hs
      rcases honly b hcb hle with rfl | rfl
      · exact absurd (Or.inr hb) hprev
      · exact absurd hb htag
  rw [seekDataHole, if_neg (by omega), if_pos rfl, Nat.mul_div_cancel _ hpos, seekData]
  simp only [hend, dataChunk, htags, hfirst, Option.map_none, ite_self, if_true]

/-- `SEEK_HOLE` from the block before an end that is lost takes it for a hole, where nothing is
tagged. -/
theorem seekHole_end (hsize : isize = (c + 1) * pbufSize + 1) (hblind : c + 1 ∈ f.blind)
    (htag : f.tag = ∅) (hprev : c ∈ f.tree) :
    seekDataHole (fun _ => f) isize (c * pbufSize) false (n + 1) = some (some (isize - 1)) := by
  have hpos := pbufSize_pos
  have hend := chunkEnd_end hsize
  have hlast : isize - 1 = (c + 1) * pbufSize := by omega
  have hlt : c * pbufSize < (c + 1) * pbufSize :=
    Nat.mul_lt_mul_of_pos_right (Nat.lt_succ_self c) hpos
  obtain ⟨b, hb, hcb, hall, hnot⟩ := bmapHole_spec f c (isize - 1)
  have hbc : b ≠ c := by
    rintro rfl
    exact hnot (by omega) (FileMap.mem_seen.2 ⟨hprev, fun hl => by have := hl.2.1; omega⟩)
  obtain rfl : b = c + 1 := by
    by_contra hne
    exact (FileMap.mem_seen.1 (hall (c + 1) (by omega) (by omega))).2
      ⟨hlt.trans_eq hlast.symm, hlast.symm, hblind⟩
  have htagged : f.tagged = false := by simp [FileMap.tagged, htag]
  rw [seekDataHole, if_neg (by omega), if_neg Bool.false_ne_true,
    Nat.mul_div_cancel _ hpos, seekHole]
  simp only [hend, holeChunk, htagged, hb, ← hlast, lt_irrefl, if_false, true_or, if_true,
    Option.bind_some]
  rw [max_eq_left (by omega)]

/-- The end of a file is lost to `SEEK_DATA` or to `SEEK_HOLE` from the block before it. -/
theorem FileMap.LosesEnd.wrong (h : f.LosesEnd isize) :
    ∃ offset < isize, ∀ n, ¬ SeekRight (fun _ => f) isize offset (n + 1) := by
  obtain ⟨x, hx, hxe, hblind, htree, htag, hcase⟩ := h
  obtain ⟨c, rfl⟩ : ∃ c, x = c + 1 := ⟨x - 1, by omega⟩
  have hmul := Nat.mul_pos hx pbufSize_pos
  have hlast : f.Data ((isize - 1) / pbufSize) := by
    rw [← hxe, Nat.mul_div_cancel _ pbufSize_pos]
    exact Or.inl htree
  have hlt : c * pbufSize < (c + 1) * pbufSize :=
    Nat.mul_lt_mul_of_pos_right (Nat.lt_succ_self c) pbufSize_pos
  refine ⟨c * pbufSize, by omega, fun n hright => ?_⟩
  obtain ⟨⟨r, hr, hans⟩, r', hr', hans'⟩ := hright
  by_cases hprev : f.Data c
  · have hnone : f.tag = ∅ := hcase.resolve_left (not_not.2 hprev)
    rw [seekHole_end (by omega) hblind hnone (hprev.resolve_right (by simp [hnone]))] at hr'
    have hget : isize - 1 = r'.getD isize := Option.some.inj (Option.some.inj hr')
    cases r' with
    | none =>
      rw [Option.getD_none] at hget
      omega
    | some r' =>
      obtain rfl : isize - 1 = r' := hget
      exact hans'.2.2.1 hlast
  · rw [seekData_end (by omega) hblind htag hprev] at hr
    obtain rfl := Option.some.inj hr
    exact hans (isize - 1) (by omega) (by omega) hlast

end

/-- **The seek answers by the block map**, exactly if the file does not lose its end: from an offset
below the size it returns for `SEEK_DATA` the least position at or after the offset in a block that
has data, in the tree or under a tag, or `-ENXIO`; for `SEEK_HOLE` the least position in a block
that has none, or the size; whatever steps the writeback takes between any two reads. -/
theorem seekDataHole_answer (isize : Nat) :
    (∀ w : Nat → FileMap, (∀ k, FileMap.Later (w k) (w (k + 1))) →
      (∀ k, ¬ (w k).LosesEnd isize) → ∀ offset < isize, ∀ n ≥ isize, SeekRight w isize offset n) ∧
    ∀ f : FileMap, (∀ offset < isize, ∀ n ≥ isize, SeekRight (fun _ => f) isize offset n) ↔
      ¬ f.LosesEnd isize := by
  have hright : ∀ w : Nat → FileMap, (∀ k, FileMap.Later (w k) (w (k + 1))) →
      (∀ k, ¬ (w k).LosesEnd isize) → ∀ offset < isize, ∀ n ≥ isize,
        SeekRight w isize offset n := by
    intro w hw hends offset ho n hn
    have h := watched_of_later hw
    have hbase : offset / pbufSize * pbufSize < isize :=
      (Nat.div_mul_le_self offset pbufSize).trans_lt ho
    have hfuel : isize ≤ (n + offset / pbufSize) * pbufSize :=
      hn.trans ((Nat.le_add_right n _).trans (Nat.le_mul_of_pos_right _ pbufSize_pos))
    simp only [SeekRight, seekDataHole, Nat.not_le.2 ho, if_false, if_true, Bool.false_eq_true]
    exact ⟨h.seekData hends chunk_seekChunk ho le_rfl hbase (fun x h1 h2 => by omega) hfuel,
      h.seekHole hends chunk_seekChunk ho le_rfl hbase (fun x h1 h2 => by omega) hfuel⟩
  refine ⟨hright, fun f => ⟨fun hall hloses => ?_, fun hends => ?_⟩⟩
  · obtain ⟨offset, ho, hwrong⟩ := hloses.wrong
    exact hwrong isize (hall offset ho (isize + 1) (Nat.le_succ isize))
  · exact hright _ (fun _ => .refl) fun _ => hends

/-- A block in the tree and one that writeback moves into it before the second read. -/
def movingFile (k : Nat) : FileMap :=
  if k < 1 then ⟨{1}, {2}, ∅⟩ else if k < 2 then ⟨{2, 1}, {2}, ∅⟩ else ⟨{2, 1}, ∅, ∅⟩

/-- The file of the example only writes out. -/
theorem movingFile_later (k : Nat) : FileMap.Later (movingFile k) (movingFile (k + 1)) := by
  match k with
  | 0 =>
    have h : FileMap.Writeback ⟨{1}, {2}, ∅⟩ ⟨{2, 1}, {2}, ∅⟩ := .enter (b := 2) ∅ (by decide)
    exact .single h
  | 1 =>
    have h : FileMap.Writeback ⟨{2, 1}, {2}, ∅⟩ ⟨{2, 1}, ∅, ∅⟩ := .clear (b := 2) ∅ (by decide)
    exact .single h
  | k + 2 => exact .refl

/-- The hole before the two blocks and the data in them. -/
theorem seekDataHole_answer_moving :
    SeekRight movingFile (4 * pbufSize) 5 (4 * pbufSize) := by
  refine (seekDataHole_answer (4 * pbufSize)).1 movingFile movingFile_later (fun k => ?_) 5
    (by decide) _ le_rfl
  rintro ⟨x, -, hx, -⟩
  unfold pbufSize at hx
  omega

/-- The file of a gigabyte and a byte has a block at its end, and `SEEK_DATA` from the hole before
it says that there is no data. -/
theorem seekDataHole_loses_end : punchedFile.Data 16384 ∧
    seekDataHole (fun _ => punchedFile) (2 ^ 30 + 1) (16383 * pbufSize) true (2 ^ 30 + 1) =
      some none :=
  ⟨Or.inl (by decide), seekData_end rfl (by decide) (by decide)
    (by rintro (h | h) <;> exact absurd h (by decide))⟩

end Hammer2
