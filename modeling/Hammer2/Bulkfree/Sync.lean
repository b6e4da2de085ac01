import Hammer2.Bulkfree.Callback

/-!
# Merging a bulkfree pass into the live bitmap

`syncAdjust` is `h2_bulkfree_sync_adjust`: where the rebuilt bitmap has `00` the live pair moves one
stage towards free (`11 → 10 → 00`), where it has `11` the live pair becomes `11`; then the linear
iterator is set from the one the scan recorded. `pair_syncAdjust` reduces the merge to `syncPair`,
the rule for one pair, and `mem_deleted_syncAdjust` says which blocks lose their dedup bits.

Reference: `hammer2_bulkfree.c:842-1153`.
-/

namespace Hammer2

open PairWord

/-! ## The source's functions -/

/-- The state of the merge: the live bmap, `cbinfo->adj_free`, and the blocks whose dedup bits
`hammer2_io_dedup_delete` has cleared. -/
structure SyncState where
  live : Bmap
  adjFree : Int
  deleted : List Nat

/-- The body of the merge for the pair at bit `scount`, the low pair of `lmask` and `mmask`. -/
def syncStep (bindex scount : Nat) (lmask mmask : BitVec 64) (s : SyncState) : SyncState :=
  if mmask &&& 3#64 = 0#64 then
    if lmask &&& 3#64 = 2#64 then
      { s with
        live := { (s.live.setElt bindex (s.live.elt bindex &&& ~~~(2#64 <<< scount))) with
          avail := min ((s.live.avail + freemapBlockSize) % 2 ^ 32) freemapLevel0Size }
        adjFree := s.adjFree + freemapBlockSize }
    else if lmask &&& 3#64 = 3#64 then
      { s with
        live := s.live.setElt bindex (s.live.elt bindex &&& ~~~(1#64 <<< scount))
        deleted := (32 * bindex + scount / 2) :: s.deleted }
    else s
  else if mmask &&& 3#64 = 3#64 then
    let zero := lmask &&& 3#64 = 0#64
    let avail := (s.live.avail + 2 ^ 32 - freemapBlockSize) % 2 ^ 32
    { s with
      live := { (s.live.setElt bindex (s.live.elt bindex ||| (3#64 <<< scount))) with
        avail := if zero then (if 2 ^ 31 ≤ avail then 0 else avail) else s.live.avail }
      adjFree := if zero then s.adjFree - freemapBlockSize else s.adjFree }
  else s

/-- The loop over the pairs of an element. -/
def syncLoop (bindex : Nat) : Nat → Nat → BitVec 64 → BitVec 64 → SyncState → SyncState
  | 0, _, _, _, s => s
  | n + 1, scount, lmask, mmask, s =>
    syncLoop bindex n (scount + 2) (lmask >>> 2) (mmask >>> 2)
      (syncStep bindex scount lmask mmask s)

/-- One element: skipped when the live and the rebuilt words are equal. -/
def syncElement (m : Bmap) (s : SyncState) (bindex : Nat) : SyncState :=
  if s.live.elt bindex = m.elt bindex then s
  else syncLoop bindex bmapBlocksPerElement 0 (s.live.elt bindex) (m.elt bindex) s

/-- The loop over the elements. -/
def syncBitmap (live m : Bmap) : SyncState :=
  (List.range bmapElements).foldl (syncElement m) { live, adjFree := 0, deleted := [] }

/-- The highest of the first `n` elements that is not zero. -/
def topElement (b : Bmap) : Nat → Option Nat
  | 0 => none
  | i + 1 => if b.elt i ≠ 0#64 then some i else topElement b i

/-- The test of the branch that moves the live iterator up inside its 16KB block. -/
def linadjust (live m : Nat) : Bool :=
  live < m && live / freemapBlockSize == m / freemapBlockSize

/-- The end of the merge: a free segment is reset, a partly full one gets an iterator from the scan,
a full one has its iterator switched off. -/
def syncFinish (m live : Bmap) : Bmap :=
  match topElement live bmapElements with
  | none => { live with avail := freemapLevel0Size, cls := 0, linear := 0 }
  | some bindex =>
    if bindex < 7 then
      if linadjust live.linear m.linear then { live with linear := m.linear }
      else { live with linear := roundup2 m.linear freemapBlockSize }
    else { live with linear := segSize }

/-- `h2_bulkfree_sync_adjust`. -/
def syncAdjust (live m : Bmap) : SyncState :=
  let s := syncBitmap live m
  { s with live := syncFinish m s.live }

/-- `h2_bulkfree_sync` on the segment at `key`: `hint` is `bigmask_good`, `skip` stands for a leaf
that is missing, unreadable or cannot be modified. -/
def bulkfreeSync (hmp : FreemapDev) (key : Nat) (hint skip : Bool) (live m : Bmap) : SyncState :=
  if key < hmp.allocatorBeg || hmp.totalSize ≤ key || skip then
    { live, adjFree := 0, deleted := [] }
  else if live.bitmapq = m.bitmapq ∧ m.linear ≤ live.linear ∧ hint = true then
    { live, adjFree := 0, deleted := [] }
  else syncAdjust live m

/-- The segment is merged: it is neither skipped nor found to match already. -/
def SyncRuns (hmp : FreemapDev) (key : Nat) (hint skip : Bool) (live m : Bmap) : Prop :=
  (key < hmp.allocatorBeg || hmp.totalSize ≤ key || skip) = false ∧
    ¬ (live.bitmapq = m.bitmapq ∧ m.linear ≤ live.linear ∧ hint = true)

instance {hmp : FreemapDev} {key : Nat} {hint skip : Bool} {live m : Bmap} :
    Decidable (SyncRuns hmp key hint skip live m) := inferInstanceAs (Decidable (_ ∧ _))

/-- A segment is merged or left as it is. -/
theorem bulkfreeSync_cases {hmp : FreemapDev} {key : Nat} {hint skip : Bool} {live m : Bmap} :
    bulkfreeSync hmp key hint skip live m = { live, adjFree := 0, deleted := [] } ∨
      (SyncRuns hmp key hint skip live m ∧
        bulkfreeSync hmp key hint skip live m = syncAdjust live m) := by
  unfold bulkfreeSync SyncRuns
  split
  · exact Or.inl rfl
  · next hskip =>
    split
    · exact Or.inl rfl
    · next hsame => exact Or.inr ⟨⟨by simpa using hskip, hsame⟩, rfl⟩

/-! ## The rule for one pair -/

/-- What the merge makes of a live pair `l` where the rebuilt map has `m`. -/
def syncPair (m l : BitVec 2) : BitVec 2 :=
  if m = 0#2 then
    if l = 2#2 then 0#2 else if l = 3#2 then 2#2 else l
  else if m = 3#2 then 3#2
  else l

/-- Equal pairs are kept: this is why skipping equal elements is sound. -/
theorem syncPair_self {l : BitVec 2} (h : l = 0#2 ∨ l = 3#2) : syncPair l l = l := by
  rcases h with rfl | rfl <;> decide

section
variable {m : Bmap} {s : SyncState} {bindex a k : Nat}

variable {x lmask mmask : BitVec 64} {b live : Bmap} {lo hi : Nat}

/-- The tests on the low pair of a word, as tests on its pair. -/
theorem low_eq_zero_iff : x &&& 3#64 = 0#64 ↔ pairAt x 0 = 0#2 :=
  @and_three_eq_iff 64 x 0#2 (by decide)

theorem low_eq_two_iff : x &&& 3#64 = 2#64 ↔ pairAt x 0 = 2#2 :=
  @and_three_eq_iff 64 x 2#2 (by decide)

theorem low_eq_three_iff : x &&& 3#64 = 3#64 ↔ pairAt x 0 = 3#2 :=
  @and_three_eq_iff 64 x 3#2 (by decide)

/-- Clearing a bit of one pair of the live map. -/
theorem pair_setElt_clear (hb : bindex < 8) {p : BitVec 2} {q : BitVec 64}
    (hq : q = p.setWidth 64) :
    (b.setElt bindex (b.elt bindex &&& ~~~(q <<< (2 * a)))).pair k =
      if k = 32 * bindex + a ∧ a < 32 then b.pair k &&& ~~~p else b.pair k := by
  subst hq
  rw [Bmap.pair, Bmap.elt_setElt hb]
  by_cases hd : k / 32 = bindex
  · rw [if_pos hd, pairAt_and_not (by omega), Bmap.pair, hd]
    exact if_congr (by omega) rfl rfl
  · rw [if_neg hd, if_neg (by omega), Bmap.pair]

/-- The pair of one step, read from the words, is the rule for one pair. -/
theorem pair_syncStep (hb : bindex < 8) (ha : a < 32)
    (hcur : pairAt lmask 0 = s.live.pair (32 * bindex + a)) :
    (syncStep bindex (2 * a) lmask mmask s).live.pair k =
      if k = 32 * bindex + a then syncPair (pairAt mmask 0) (pairAt lmask 0)
      else s.live.pair k := by
  simp only [syncStep, low_eq_zero_iff, low_eq_two_iff, low_eq_three_iff]
  by_cases hm0 : pairAt mmask 0 = 0#2
  · rw [if_pos hm0, hm0]
    by_cases hl2 : pairAt lmask 0 = 2#2
    · rw [if_pos hl2, Bmap.pair_mk, pair_setElt_clear (p := 2#2) (q := 2#64) hb rfl, hl2]
      by_cases hk : k = 32 * bindex + a
      · rw [if_pos ⟨hk, ha⟩, if_pos hk, hk, ← hcur, hl2]; decide
      · rw [if_neg (fun h => hk h.1), if_neg hk]
    · rw [if_neg hl2]
      by_cases hl3 : pairAt lmask 0 = 3#2
      · rw [if_pos hl3]
        simp only
        rw [pair_setElt_clear (p := 1#2) (q := 1#64) hb rfl, hl3]
        by_cases hk : k = 32 * bindex + a
        · rw [if_pos ⟨hk, ha⟩, if_pos hk, hk, ← hcur, hl3]; decide
        · rw [if_neg (fun h => hk h.1), if_neg hk]
      · rw [if_neg hl3]
        split
        · next hk => rw [hk, ← hcur, syncPair, if_pos rfl, if_neg hl2, if_neg hl3]
        · rfl
  · rw [if_neg hm0]
    by_cases hm3 : pairAt mmask 0 = 3#2
    · rw [if_pos hm3, Bmap.pair_mk, three_shiftLeft (by decide), hm3,
        Bmap.pair_setElt_run (m := 1) hb (by omega)]
      exact if_congr (by omega) rfl rfl
    · rw [if_neg hm3]
      split
      · next hk => rw [hk, ← hcur, syncPair, if_neg hm0, if_neg hm3]
      · rfl

/-- A step clears the dedup bits of a block that it stages. -/
theorem deleted_syncStep :
    (syncStep bindex (2 * a) lmask mmask s).deleted =
      if pairAt mmask 0 = 0#2 ∧ pairAt lmask 0 = 3#2 then (32 * bindex + a) :: s.deleted
      else s.deleted := by
  simp only [syncStep, low_eq_zero_iff, low_eq_two_iff, low_eq_three_iff]
  by_cases hm0 : pairAt mmask 0 = 0#2
  · rw [if_pos hm0]
    by_cases hl3 : pairAt lmask 0 = 3#2
    · have hl2 : ¬ pairAt lmask 0 = 2#2 := by rw [hl3]; decide
      rw [if_neg hl2, if_pos hl3, if_pos ⟨hm0, hl3⟩, Nat.mul_div_cancel_left _ (by decide)]
    · have hno : ¬ (pairAt mmask 0 = 0#2 ∧ pairAt lmask 0 = 3#2) := fun h => hl3 h.2
      rw [if_neg hl3, if_neg hno]
      split <;> rfl
  · have hno : ¬ (pairAt mmask 0 = 0#2 ∧ pairAt lmask 0 = 3#2) := fun h => hm0 h.1
    rw [if_neg hm0, if_neg hno]
    split <;> rfl

@[simp] theorem linear_syncStep {scount : Nat} :
    (syncStep bindex scount lmask mmask s).live.linear = s.live.linear := by
  unfold syncStep
  split
  · split
    · rfl
    · split <;> rfl
  · split <;> rfl

/-! ## The loops -/

/-- What the merge has done in the blocks `[lo, hi)`: the pairs there follow the rule, the staged
blocks lost their dedup bits, and everything else is as it was. -/
structure SyncDone (m : Bmap) (lo hi : Nat) (s t : SyncState) : Prop where
  linear : t.live.linear = s.live.linear
  pair : ∀ k, t.live.pair k =
    if lo ≤ k ∧ k < hi then syncPair (m.pair k) (s.live.pair k) else s.live.pair k
  deleted : ∀ k, k ∈ t.deleted ↔
    k ∈ s.deleted ∨ (lo ≤ k ∧ k < hi ∧ m.pair k = 0#2 ∧ s.live.pair k = 3#2)

/-- No pair is left to do in an empty range. -/
theorem SyncDone.refl (h : hi ≤ lo) : SyncDone m lo hi s s where
  linear := rfl
  pair k := by rw [if_neg (by omega)]
  deleted k := by
    refine ⟨Or.inl, fun h' => h'.elim id fun h'' => ?_⟩
    omega

/-- Adjacent ranges compose. -/
theorem SyncDone.trans {mid : Nat} {t u : SyncState} (h₁ : SyncDone m lo mid s t)
    (h₂ : SyncDone m mid hi t u) (hlm : lo ≤ mid) (hmh : mid ≤ hi) : SyncDone m lo hi s u where
  linear := h₂.linear.trans h₁.linear
  pair k := by
    rw [h₂.pair k, h₁.pair k]
    by_cases hlt : k < mid
    · rw [if_neg (by omega)]
      exact if_congr (by omega) rfl rfl
    · have : ¬ (lo ≤ k ∧ k < mid) := by omega
      rw [if_neg this]
      exact if_congr (by omega) rfl rfl
  deleted k := by
    rw [h₂.deleted k, h₁.deleted k, h₁.pair k]
    by_cases hlt : k < mid
    · constructor
      · rintro ((h | ⟨h1, h2, h3⟩) | ⟨h1, -⟩)
        · exact Or.inl h
        · exact Or.inr ⟨h1, by omega, h3⟩
        · omega
      · rintro (h | ⟨h1, h2, h3⟩)
        · exact Or.inl (Or.inl h)
        · exact Or.inl (Or.inr ⟨h1, hlt, h3⟩)
    · have : ¬ (lo ≤ k ∧ k < mid) := by omega
      rw [if_neg this]
      constructor
      · rintro ((h | ⟨h1, h2, h3⟩) | ⟨h1, h2, h3⟩)
        · exact Or.inl h
        · omega
        · exact Or.inr ⟨by omega, h2, h3⟩
      · rintro (h | ⟨h1, h2, h3⟩)
        · exact Or.inl (Or.inl h)
        · exact Or.inr ⟨by omega, h2, h3⟩

/-- One step is the merge of one block. -/
theorem syncStep_done (hb : bindex < 8) (ha : a < 32)
    (hl : pairAt lmask 0 = s.live.pair (32 * bindex + a))
    (hm : pairAt mmask 0 = m.pair (32 * bindex + a)) :
    SyncDone m (32 * bindex + a) (32 * bindex + a + 1) s
      (syncStep bindex (2 * a) lmask mmask s) where
  linear := linear_syncStep
  pair k := by
    rw [pair_syncStep hb ha hl, hm, hl]
    by_cases hk : k = 32 * bindex + a
    · rw [if_pos hk, if_pos (by omega), hk]
    · rw [if_neg hk, if_neg (by omega)]
  deleted k := by
    rw [deleted_syncStep, hm, hl]
    split
    · next h =>
      rw [List.mem_cons]
      constructor
      · rintro (rfl | hk)
        · exact Or.inr ⟨le_refl _, by omega, h⟩
        · exact Or.inl hk
      · rintro (hk | ⟨h1, h2, -⟩)
        · exact Or.inr hk
        · exact Or.inl (by omega)
    · next h =>
      refine ⟨Or.inl, fun h' => h'.elim id ?_⟩
      rintro ⟨h1, h2, h3⟩
      rw [show k = 32 * bindex + a by omega] at h3
      exact absurd h3 h

/-- The loop over the pairs, with both words shifted down to the current pair. -/
theorem syncLoop_done (hb : bindex < 8) : ∀ (n a : Nat) (lmask mmask : BitVec 64) (s : SyncState),
    a + n = 32 →
    (∀ j, a + j < 32 → pairAt lmask j = s.live.pair (32 * bindex + (a + j))) →
    (∀ j, a + j < 32 → pairAt mmask j = m.pair (32 * bindex + (a + j))) →
    SyncDone m (32 * bindex + a) (32 * bindex + 32) s (syncLoop bindex n (2 * a) lmask mmask s)
  | 0, a, lmask, mmask, s, ha, _, _ => SyncDone.refl (by omega)
  | n + 1, a, lmask, mmask, s, ha, hl, hm => by
    have hstep := syncStep_done (m := m) (s := s) (a := a) hb (by omega)
      (hl 0 (by omega)) (hm 0 (by omega))
    have hshift : ∀ (x : BitVec 64) (j : Nat), pairAt (x >>> 2) j = pairAt x (1 + j) :=
      fun x j => pairAt_ushiftRight (a := 1)
    -- The later pairs of the live word are still the ones loaded at the start.
    have hrest := syncLoop_done hb n (a + 1) (lmask >>> 2) (mmask >>> 2)
      (syncStep bindex (2 * a) lmask mmask s) (by omega)
      (fun j hj => by
        rw [hshift, hl (1 + j) (by omega), hstep.pair, if_neg (by omega), Nat.add_assoc])
      (fun j hj => by rw [hshift, hm (1 + j) (by omega), Nat.add_assoc])
    exact hstep.trans hrest (by omega) (by omega)

/-- A pair of the rebuilt map is `00` or `11`. -/
def Bmap.TwoStage (m : Bmap) : Prop := ∀ k < 256, m.pair k = 0#2 ∨ m.pair k = 3#2

/-- The pairs of an element, read from the word. -/
theorem pairAt_elt {j : Nat} (hj : j < 32) :
    pairAt (b.elt bindex) j = b.pair (32 * bindex + j) := by
  rw [Bmap.pair, show (32 * bindex + j) / 32 = bindex by omega,
    show (32 * bindex + j) % 32 = j by omega]

/-- The loop over an element merges its 32 pairs. -/
theorem syncElement_done (hb : bindex < 8) (hts : m.TwoStage) :
    SyncDone m (32 * bindex) (32 * bindex + 32) s (syncElement m s bindex) := by
  unfold syncElement
  split
  · next heq =>
    -- Equal words: the rule keeps each of their pairs.
    have hpair : ∀ k, 32 * bindex ≤ k → k < 32 * bindex + 32 → s.live.pair k = m.pair k := by
      intro k h1 h2
      rw [Bmap.pair, Bmap.pair, show k / 32 = bindex by omega, heq]
    refine ⟨rfl, fun k => ?_, fun k => ⟨Or.inl, fun h => h.elim id ?_⟩⟩
    · split
      · next h => rw [hpair k h.1 h.2, syncPair_self (hts k (by omega))]
      · rfl
    · rintro ⟨h1, h2, h3, h4⟩
      rw [hpair k h1 h2, h3] at h4
      exact absurd h4 (by decide)
  · exact syncLoop_done hb 32 0 _ _ s rfl (fun j hj => by rw [pairAt_elt (by omega), Nat.zero_add])
      (fun j hj => by rw [pairAt_elt (by omega), Nat.zero_add])

/-- **The merge of a segment** is the rule for one pair, at every block. -/
theorem syncBitmap_done (hts : m.TwoStage) :
    SyncDone m 0 256 { live, adjFree := 0, deleted := [] } (syncBitmap live m) := by
  have hfold : ∀ n, n ≤ 8 → SyncDone m 0 (32 * n) { live, adjFree := 0, deleted := [] }
      ((List.range n).foldl (syncElement m) { live, adjFree := 0, deleted := [] }) := by
    intro n
    induction n with
    | zero => exact fun _ => SyncDone.refl (by omega)
    | succ n ih =>
      intro hn
      rw [List.range_succ, List.foldl_append]
      exact (ih (by omega)).trans (syncElement_done (by omega) hts) (by omega) (by omega)
  exact hfold 8 (le_refl _)

theorem linear_syncBitmap (hts : m.TwoStage) :
    (syncBitmap live m).live.linear = live.linear := (syncBitmap_done hts).linear

/-! ## The whole merge -/

theorem pair_syncFinish : (syncFinish m b).pair k = b.pair k := by
  unfold syncFinish
  split
  · rfl
  · split
    · split <;> rfl
    · rfl

/-- **The merge works pair by pair.** -/
theorem pair_syncAdjust (hts : m.TwoStage) (hk : k < 256) :
    (syncAdjust live m).live.pair k = syncPair (m.pair k) (live.pair k) := by
  have h := (@syncBitmap_done m live hts).pair k
  rw [if_pos ⟨Nat.zero_le _, hk⟩] at h
  rw [syncAdjust, pair_syncFinish, h]

/-- The blocks that lose their dedup bits are those staged from `11` to `10`. -/
theorem mem_deleted_syncAdjust (hts : m.TwoStage) :
    k ∈ (syncAdjust live m).deleted ↔ k < 256 ∧ m.pair k = 0#2 ∧ live.pair k = 3#2 := by
  have h := (@syncBitmap_done m live hts).deleted k
  rw [syncAdjust, h]
  simp

/-- A full map keeps its iterator off. -/
theorem linear_syncAdjust_full (h : ∀ k < 256, (syncAdjust live m).live.pair k = 3#2) :
    (syncAdjust live m).live.linear = segSize := by
  have h7 : (syncBitmap live m).live.elt 7 ≠ 0#64 := by
    intro h0
    have hlast := h (32 * 7 + 31) (by omega)
    have hfin : (syncAdjust live m).live.pair (32 * 7 + 31) =
        (syncBitmap live m).live.pair (32 * 7 + 31) := by rw [syncAdjust, pair_syncFinish]
    rw [hfin, ← pairAt_elt (by omega), h0, pairAt_zero] at hlast
    exact absurd hlast (by decide)
  have htop : topElement (syncBitmap live m).live bmapElements = some 7 := by
    rw [show bmapElements = 7 + 1 from rfl, topElement, if_pos h7]
  simp only [syncAdjust, syncFinish, htop, Nat.lt_irrefl, if_false]

end

end Hammer2
