import Hammer2.Freemap.Adjust

/-!
# The bulkfree scan

A bulkfree pass rebuilds, in memory, the bitmap of the storage the topology still refers to. The
rebuilt bitmap starts as `cbinfoBmapInit` leaves it and `bulkfreeCallback` marks the blocks of each
blockref it is handed. The position of a block is computed from the offset masked to its segment and
to its bitmap element.

Reference: `hammer2_bulkfree.c:645-828`.
-/

namespace Hammer2

open PairWord

/-! ## The source's functions -/

/-- The state of a pass: the device's bounds, the storage range being gathered and one bmap for each
of its segments. -/
structure BulkfreeInfo where
  hmp : FreemapDev
  sbase : Nat
  sstop : Nat
  bmap : Nat → Bmap

/-- The segment at `key` is not open to allocation. The running maximum the source keeps in `lokey`
is the maximum at the segment's own key, since all its terms grow with the key. -/
def segReserved (hmp : FreemapDev) (key : Nat) : Bool :=
  key < freemapLokey hmp key || rounddown2 hmp.totalSize segSize ≤ key

/-- `cbinfo_bmap_init` for the segment at `key`. -/
def cbinfoBmapInit (hmp : FreemapDev) (key : Nat) : Bmap :=
  if segReserved hmp key then Bmap.initReserved else Bmap.initFree

/-- The adjustment of the iterator: a fragment moves it past its end; whole blocks move it out of
their range. -/
def callbackLinear (linear off bytes : Nat) : Nat :=
  if bytes % freemapBlockSize ≠ 0 then
    if linear < off + bytes then off + bytes else linear
  else if off ≤ linear ∧ linear < off + bytes then off + bytes
  else linear

/-- The index of the bitmap element, from the offset in the segment. -/
def callbackElement (off : Nat) : Nat := off / 2 ^ (freemapBlockRadix + 5)

/-- The bit index in the element. -/
def callbackStart (off : Nat) : Nat := off % bmapIndexSize / 2 ^ freemapBlockRadix * 2

/-- The loop that marks the blocks of `[off, off + bytes)`. -/
def callbackLoop : Nat → Nat → Nat → Bmap → Bmap
  | 0, _, _, b => b
  | fuel + 1, off, bytes, b =>
    if bytes = 0 then b
    else
      let bindex := callbackElement off
      let bmask := 3#64 <<< callbackStart off
      let b' :=
        if b.elt bindex &&& bmask = 0#64 then
          { (b.setElt bindex (b.elt bindex ||| bmask)) with
            avail := (b.avail + 2 ^ 32 -
              (if bytes < freemapBlockSize then freemapBlockSize else bytes)) % 2 ^ 32 }
        else b
      callbackLoop fuel (off + freemapBlockSize)
        (if bytes < freemapBlockSize then 0 else bytes - freemapBlockSize) b'

/-- The part of the callback that works on one bmap. -/
def callbackBmap (cls : BitVec 16) (off bytes : Nat) (b : Bmap) : Bmap :=
  let b := if b.cls = 0 then { b with cls, avail := freemapLevel0Size } else b
  callbackLoop (bytes / freemapBlockSize + 1) off bytes
    { b with linear := callbackLinear b.linear off bytes }

/-- The bytes of a blockref the callback marks: cut at the end of the range and of the segment. -/
def callbackBytes (cb : BulkfreeInfo) (bref : Blockref) : Nat :=
  min (min (2 ^ bref.radix) (cb.sstop - bref.off))
    (freemapLevel0Size - (bref.off - cb.sbase) % freemapLevel0Size)

/-- `h2_bulkfree_callback`, less its rate limit and its signal check. -/
def bulkfreeCallback (cb : BulkfreeInfo) (bref : Blockref) : BulkfreeInfo :=
  if bref.off < cb.sbase ∨ cb.sstop ≤ bref.off then cb
  else if bref.off < cb.hmp.allocatorBeg then cb
  else if cb.hmp.totalSize ≤ bref.off then cb
  else
    let rel := bref.off - cb.sbase
    { cb with bmap := fun s =>
        if s = rel / 2 ^ freemapLevel0Radix then
          callbackBmap bref.cls (rel % freemapLevel0Size) (callbackBytes cb bref) (cb.bmap s)
        else cb.bmap s }

/-- The blockrefs the callback does not ignore. -/
def BulkfreeInfo.Accepts (cb : BulkfreeInfo) (bref : Blockref) : Prop :=
  cb.sbase ≤ bref.off ∧ bref.off < cb.sstop ∧ cb.hmp.allocatorBeg ≤ bref.off ∧
    bref.off < cb.hmp.totalSize

instance {cb : BulkfreeInfo} {bref : Blockref} : Decidable (cb.Accepts bref) :=
  inferInstanceAs (Decidable (_ ∧ _))

/-- The callback touches the bmap of the blockref's segment only. -/
theorem bmap_bulkfreeCallback {cb : BulkfreeInfo} {bref : Blockref} {i : Nat} :
    (bulkfreeCallback cb bref).bmap i =
      if cb.Accepts bref ∧ i = (bref.off - cb.sbase) / 2 ^ freemapLevel0Radix then
        callbackBmap bref.cls ((bref.off - cb.sbase) % freemapLevel0Size) (callbackBytes cb bref)
          (cb.bmap i)
      else cb.bmap i := by
  unfold bulkfreeCallback BulkfreeInfo.Accepts
  split
  · rw [if_neg (by omega)]
  · split
    · rw [if_neg (by omega)]
    · split
      · rw [if_neg (by omega)]
      · exact if_congr (by omega) rfl rfl

/-- The range of a pass is fixed. -/
theorem bulkfreeCallback_fields {cb : BulkfreeInfo} {bref : Blockref} :
    (bulkfreeCallback cb bref).hmp = cb.hmp ∧ (bulkfreeCallback cb bref).sbase = cb.sbase ∧
      (bulkfreeCallback cb bref).sstop = cb.sstop := by
  unfold bulkfreeCallback
  split
  · exact ⟨rfl, rfl, rfl⟩
  · split
    · exact ⟨rfl, rfl, rfl⟩
    · split <;> exact ⟨rfl, rfl, rfl⟩

/-! ## What the loop marks -/

section
variable {b : Bmap}

variable {off k bytes : Nat} {cls : BitVec 16}

theorem callbackElement_eq : callbackElement off = off / 16384 / 32 := by
  rw [Nat.div_div_eq_div_mul]; rfl

theorem callbackStart_eq : callbackStart off = 2 * (off / 16384 % 32) := by
  simp only [callbackStart, bmapIndexSize, freemapBlockRadix, Nat.reducePow]
  omega

/-- One round of the loop marks its block when it was `00`. -/
theorem pair_callbackRound {avail : Nat} (hoff : off < segSize) :
    (if b.elt (callbackElement off) &&& (3#64 <<< callbackStart off) = 0#64 then
        { (b.setElt (callbackElement off)
            (b.elt (callbackElement off) ||| (3#64 <<< callbackStart off))) with avail := avail }
      else b).pair k =
      if k = off / 16384 ∧ b.pair k = 0#2 then 3#2 else b.pair k := by
  have hi : off / 16384 / 32 < 8 := by unfold segSize at hoff; omega
  have hmask : 3#64 <<< callbackStart off = runMask 64 (2 * (off / 16384 % 32)) (2 * 1) := by
    rw [three_shiftLeft (by decide), callbackStart_eq]
  have hfree : b.elt (callbackElement off) &&& (3#64 <<< callbackStart off) = 0#64 ↔
      b.pair (off / 16384) = 0#2 := by
    rw [hmask, Bmap.run_free_iff (by omega), callbackElement_eq]
    constructor
    · intro hall
      exact hall _ (by omega) (by omega)
    · intro h0 k h1 h2
      rwa [show k = off / 16384 by omega]
  by_cases h0 : b.pair (off / 16384) = 0#2
  · rw [if_pos (hfree.2 h0)]
    have hset := @Bmap.pair_setElt_run b (callbackElement off) (off / 16384 % 32) 1
      (by rw [callbackElement_eq]; exact hi) (by omega) k
    rw [← hmask] at hset
    refine (Bmap.pair_congr rfl k).trans (hset.trans ?_)
    rw [callbackElement_eq]
    by_cases hk : k = off / 16384
    · rw [if_pos (by omega), if_pos ⟨hk, by rw [hk, h0]⟩]
    · rw [if_neg (by omega), if_neg (fun h => hk h.1)]
  · rw [if_neg (fun h => h0 (hfree.1 h)), if_neg]
    rintro ⟨rfl, hz⟩
    exact h0 hz

/-- The source's guarded subtraction is the truncated one. -/
theorem callback_bytes_left :
    (if bytes < freemapBlockSize then 0 else bytes - freemapBlockSize) = bytes - 16384 := by
  unfold freemapBlockSize
  split <;> omega

/-- The blocks from `off`'s on that the loop passes: one for each started 16KB of `bytes`. -/
theorem pair_callbackLoop : ∀ (fuel off bytes : Nat) (b : Bmap),
    bytes ≤ fuel * 16384 → (bytes = 0 ∨ off + bytes ≤ segSize) →
    (callbackLoop fuel off bytes b).pair k =
      if off / 16384 ≤ k ∧ k < off / 16384 + (bytes + 16383) / 16384 ∧ b.pair k = 0#2 then 3#2
      else b.pair k
  | 0, off, bytes, b, hf, _ => by
    rw [callbackLoop, if_neg (fun h => by omega)]
  | fuel + 1, off, bytes, b, hf, hseg => by
    rw [callbackLoop]
    split
    · next h0 => subst h0; rw [if_neg (by omega)]
    · next hne =>
      simp only [callback_bytes_left]
      rw [pair_callbackLoop fuel _ _ _ (by omega) (by unfold freemapBlockSize; omega),
        pair_callbackRound (by omega), show freemapBlockSize = 16384 from rfl]
      by_cases hk : k = off / 16384 ∧ b.pair k = 0#2
      · have hin : off / 16384 ≤ k ∧ k < off / 16384 + (bytes + 16383) / 16384 := by omega
        rw [if_pos hk, ite_self, if_pos ⟨hin.1, hin.2, hk.2⟩]
      · rw [if_neg hk]
        refine if_congr ?_ rfl rfl
        constructor
        · rintro ⟨h1, h2, h3⟩
          exact ⟨by omega, by omega, h3⟩
        · rintro ⟨h1, h2, h3⟩
          have : k ≠ off / 16384 := fun h => hk ⟨h, h3⟩
          exact ⟨by omega, by omega, h3⟩

/-- **What the callback marks**: the blocks of the range that were `00`. -/
theorem pair_callbackBmap (hseg : off + bytes ≤ segSize) :
    (callbackBmap cls off bytes b).pair k =
      if off / 16384 ≤ k ∧ k < off / 16384 + (bytes + 16383) / 16384 ∧ b.pair k = 0#2 then 3#2
      else b.pair k := by
  have hcongr : ∀ l, ({ (if b.cls = 0 then { b with cls, avail := freemapLevel0Size } else b) with
      linear := l } : Bmap).pair k = b.pair k := by
    intro l
    refine (Bmap.pair_congr ?_ k)
    split <;> rfl
  rw [callbackBmap, pair_callbackLoop _ _ _ _ (by unfold freemapBlockSize; omega) (Or.inr hseg),
    hcongr]

@[simp] theorem linear_callbackLoop : ∀ (fuel off bytes : Nat) (b : Bmap),
    (callbackLoop fuel off bytes b).linear = b.linear
  | 0, _, _, _ => rfl
  | fuel + 1, off, bytes, b => by
    rw [callbackLoop]
    split
    · rfl
    · rw [linear_callbackLoop fuel]
      split <;> rfl

/-- The iterator after the callback. -/
theorem linear_callbackBmap :
    (callbackBmap cls off bytes b).linear = callbackLinear b.linear off bytes := by
  rw [callbackBmap, linear_callbackLoop]
  simp only
  split <;> rfl

end

end Hammer2
