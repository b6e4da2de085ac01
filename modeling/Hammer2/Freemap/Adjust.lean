import Hammer2.Freemap.Init

/-!
# Marking a block allocated

`freemapAdjust` is `hammer2_freemap_adjust` with `HAMMER2_FREEMAP_DORECOVER`, the only request the
port makes: recovery and a dedup hit mark the blocks of a blockref `11` in the leaf that describes
them, creating the leaf when there is none. The loop finds the blocks from `start`, a bit index it
computes from the data offset on its own; `pair_adjustBmap` says which pairs that marks.

Reference: `hammer2_freemap.c:868-1065`.
-/

namespace Hammer2

open PairWord

/-- The part of a blockref the freemap reads: the data offset with the radix in its low six bits,
and the type. -/
structure Blockref where
  dataOff : Nat
  type : BrefType
  deriving DecidableEq, Repr

/-- `bref->data_off & HAMMER2_OFF_MASK_RADIX`. -/
def Blockref.radix (bref : Blockref) : Nat := bref.dataOff % 64

/-- `bref->data_off & ~HAMMER2_OFF_MASK_RADIX`. -/
def Blockref.off (bref : Blockref) : Nat := bref.dataOff - bref.dataOff % 64

/-- The class of a blockref's storage: `(type << 8) | HAMMER2_PBUFRADIX`. -/
def Blockref.cls (bref : Blockref) : BitVec 16 :=
  (BitVec.ofNat 16 bref.type.code <<< 8) ||| BitVec.ofNat 16 pbufRadix

/-- The outcomes of the chain operations: the leaf that is there has an error, or the missing one
cannot be created. `torn` says that `hammer2_chain_modify` of the leaf fails, which for a freemap
chain is an I/O error after `data_off` has moved: the bitmaps are dropped, and the leaf reads as
what its new storage holds from then on. -/
structure AdjustIo where
  leafError : Bool
  createError : Bool
  torn : Option FreemapLeaf
  deriving DecidableEq

/-- No chain operation fails. -/
def AdjustIo.ok : AdjustIo where
  leafError := false
  createError := false
  torn := none

/-! ## The position of a block -/

/-- The index of the bmap in its leaf. -/
def adjustBmapIndex (off : Nat) : Nat := off / 2 ^ freemapLevel0Radix % freemapCount

/-- The index of the bitmap element. -/
def adjustElement (off : Nat) : Nat := off / 2 ^ (freemapLevel0Radix - 3) % 8

/-- `start`, the bit index in the element: `((data_off >> 14) & 15) * 2`. -/
def adjustStart (off : Nat) : Nat := off / 2 ^ freemapBlockRadix % 16 * 2

/-! ## The loop -/

/-- The loop's state: the bmap, the bytes newly marked and whether the leaf was modified. -/
structure AdjustState where
  bmap : Bmap
  bgsize : Nat
  modified : Bool
  deriving DecidableEq

/-- The body for a pair that is not yet `11`. The first such pair modifies the chain and reloads the
bmap with the linear iterator reset, so that the adjustment is not ignored. -/
def AdjustState.mark (s : AdjustState) (cls : BitVec 16) (i : Nat) (bmmask11 : BitVec 64) :
    AdjustState :=
  let b := if s.modified then s.bmap else { s.bmap with linear := 0 }
  let take := if b.elt i &&& bmmask11 = 0#64 then freemapBlockSize else 0
  { bmap := { (b.setElt i (b.elt i ||| bmmask11)) with
      avail := (b.avail + 2 ^ 32 - take) % 2 ^ 32
      cls := if b.cls = 0 then cls else b.cls }
    bgsize := s.bgsize + take
    modified := true }

/-- The loop over the `count` blocks left, the mask moving up one pair at a time. -/
def adjustLoop (cls : BitVec 16) (i : Nat) : Nat → BitVec 64 → AdjustState → AdjustState
  | 0, _, s => s
  | count + 1, bmmask11, s =>
    adjustLoop cls i count (bmmask11 <<< 2)
      (if s.bmap.elt i &&& bmmask11 ≠ bmmask11 then s.mark cls i bmmask11 else s)

/-- `count`: the blocks of an allocation. -/
def adjustCount (radix : Nat) : Nat :=
  if radix < freemapBlockRadix then 1 else 1 <<< (radix - freemapBlockRadix)

/-- The loop on one bmap. -/
def adjustBmap (bref : Blockref) (b : Bmap) : AdjustState :=
  adjustLoop bref.cls (adjustElement bref.off) (adjustCount bref.radix)
    (3#64 <<< adjustStart bref.off) { bmap := b, bgsize := 0, modified := false }

/-- The result of an adjustment: the leaf, if there is one now, and the bytes taken from
`allocator_free`. -/
structure AdjustResult where
  leaf : Option FreemapLeaf
  bgsize : Nat
  deriving DecidableEq

/-- The loop on the bmap of the blockref. -/
def adjustLeaf (bref : Blockref) (leaf : FreemapLeaf) : AdjustState :=
  adjustBmap bref (leaf.bmap (adjustBmapIndex bref.off))

/-- `hammer2_freemap_adjust(hmp, bref, HAMMER2_FREEMAP_DORECOVER)` on the leaf of the blockref,
which is created when missing. A leaf with an error, and one that cannot be created, stay as they
are; one whose modify fails is lost. -/
def freemapAdjust (io : AdjustIo) (hmp : FreemapDev) (bref : Blockref)
    (leaf : Option FreemapLeaf) : AdjustResult :=
  if bref.off < hmp.allocatorBeg then { leaf, bgsize := 0 }
  else
    match leaf with
    | some l =>
      if io.leafError then { leaf, bgsize := 0 } else go (adjustLeaf bref l).modified l
    | none =>
      if io.createError then { leaf, bgsize := 0 }
      -- the leaf that was created is modified before it is filled
      else go true (freemapInit hmp (h2fmBase bref.off freemapLevel1Radix))
where
  /-- The part after the leaf is at hand; `modifies` says that it has to be modified. -/
  go (modifies : Bool) (l : FreemapLeaf) : AdjustResult :=
    match if modifies then io.torn else none with
    | some lost => { leaf := some lost, bgsize := 0 }
    | none =>
      let s := adjustLeaf bref l
      { leaf := some (l.setBmap (adjustBmapIndex bref.off) s.bmap), bgsize := s.bgsize }

/-! ## What the loop marks -/

section
variable {b : Bmap} {bref : Blockref} {cls : BitVec 16}

/-- One pass of the body marks its pair, whatever the pair was. -/
theorem pair_adjustMark {s : AdjustState} {i a k : Nat} (hi : i < 8) (ha : a < 32) :
    (if s.bmap.elt i &&& runMask 64 (2 * a) (2 * 1) ≠ runMask 64 (2 * a) (2 * 1) then
        s.mark cls i (runMask 64 (2 * a) (2 * 1)) else s).bmap.pair k =
      if k = 32 * i + a then 3#2 else s.bmap.pair k := by
  split
  · have hset : ∀ b' : Bmap, b'.bitmapq = s.bmap.bitmapq →
        (b'.setElt i (b'.elt i ||| runMask 64 (2 * a) (2 * 1))).pair k =
          if k = 32 * i + a then 3#2 else s.bmap.pair k := by
      intro b' hb
      rw [Bmap.pair_setElt_run hi (by omega), Bmap.pair_congr hb]
      exact if_congr (by omega) rfl rfl
    rw [← hset (if s.modified then s.bmap else { s.bmap with linear := 0 }) (by split <;> rfl)]
    exact Bmap.pair_congr rfl k
  · next h =>
    rw [not_not, and_runMask_eq_self_iff (by omega)] at h
    split
    · next hk =>
      subst hk
      rw [Bmap.pair, show (32 * i + a) / 32 = i by omega, show (32 * i + a) % 32 = a by omega, h]
    · rfl

/-- The loop marks the run of blocks its mask moves over. -/
theorem pair_adjustLoop {i : Nat} (hi : i < 8) {k : Nat} : ∀ (count a : Nat) (s : AdjustState),
    a + count ≤ 32 →
    (adjustLoop cls i count (runMask 64 (2 * a) (2 * 1)) s).bmap.pair k =
      if 32 * i + a ≤ k ∧ k < 32 * i + a + count then 3#2 else s.bmap.pair k
  | 0, a, s, _ => by
    rw [adjustLoop, if_neg (by omega)]
  | count + 1, a, s, h => by
    rw [adjustLoop, runMask_shiftLeft, show 2 * a + 2 = 2 * (a + 1) by omega,
      pair_adjustLoop hi count (a + 1) _ (by omega), pair_adjustMark hi (by omega)]
    split
    · next h1 => rw [if_pos (by omega)]
    · next h1 =>
      split
      · rw [if_pos (by omega)]
      · rw [if_neg (by omega)]

/-- The first block, in its segment, that the loop on a blockref marks: the block's own index in the
element is taken modulo 16. -/
def adjustFirst (off : Nat) : Nat := 32 * adjustElement off + off / 16384 % 16

/-- At most four pairs are adjusted. -/
theorem adjustCount_le {radix : Nat} (hr : radix ≤ 16) : adjustCount radix ≤ 4 := by
  unfold adjustCount freemapBlockRadix
  split
  · decide
  · obtain rfl | rfl | rfl : radix = 14 ∨ radix = 15 ∨ radix = 16 := by omega
    all_goals decide

/-- **What an adjustment marks**: `adjustCount` blocks from `adjustFirst` on, and nothing else. -/
theorem pair_adjustBmap (hr : bref.radix ≤ 16) {k : Nat} :
    (adjustBmap bref b).bmap.pair k =
      if adjustFirst bref.off ≤ k ∧ k < adjustFirst bref.off + adjustCount bref.radix then 3#2
      else b.pair k := by
  have hcount := adjustCount_le hr
  have hi : adjustElement bref.off < 8 := Nat.mod_lt _ (by decide)
  have hmask : 3#64 <<< adjustStart bref.off = runMask 64
    (2 * (bref.off / 16384 % 16)) (2 * 1) := by
    rw [three_shiftLeft (by decide), adjustStart, Nat.mul_comm]
    rfl
  rw [adjustBmap, hmask, pair_adjustLoop hi _ _ _ (by omega)]
  rfl

/-- The loop keeps the linear iterator or resets it. -/
theorem linear_adjustLoop {i : Nat} : ∀ (count : Nat) (bmmask11 : BitVec 64) (s : AdjustState),
    (adjustLoop cls i count bmmask11 s).bmap.linear = s.bmap.linear ∨
      (adjustLoop cls i count bmmask11 s).bmap.linear = 0
  | 0, _, _ => Or.inl rfl
  | count + 1, bmmask11, s => by
    rw [adjustLoop]
    split
    · have hmark : (s.mark cls i bmmask11).bmap.linear = s.bmap.linear ∨
          (s.mark cls i bmmask11).bmap.linear = 0 := by
        simp only [AdjustState.mark]
        cases s.modified with
        | true => exact Or.inl rfl
        | false => exact Or.inr rfl
      rcases linear_adjustLoop count (bmmask11 <<< 2) (s.mark cls i bmmask11) with h | h
      · rw [h]; exact hmark
      · exact Or.inr h
    · exact linear_adjustLoop count (bmmask11 <<< 2) s

end

end Hammer2
