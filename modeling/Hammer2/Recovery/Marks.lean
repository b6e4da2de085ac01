import Hammer2.Recovery.System

/-!
# What recovery marks

A recovery only adds marks (`Grows`), keeps the freemap consistent (`SegsInv`), and marks the
blockrefs it adjusts whose block has an index below 16 in its bitmap element (`marked_adjustRef`):
the adjustment takes the index modulo 16. So a header whose blockrefs are each newer than its
freemap, with everything above them, or marked in it recovers completely when the ones the freemap
misses stand in the lower half of an element (`HeaderInv.recovers`).

Reference: `hammer2_freemap.c:868-1065`, `hammer2_vfsops.c:1968-2137`.
-/

namespace Hammer2

open Deferral PairWord

/-! ## Marked blocks -/

/-- Every 16KB block that holds a byte of the blockref's storage is marked `11`. -/
def TopoRef.Marked (freemap : Nat → Bmap) (b : TopoRef) : Prop :=
  ∀ g e, b.storage = some (g, e) → ∀ k, BlockCovered e.offset e.radix k → (freemap g).pair k = 3#2

/-- The block of the blockref's storage stands in the lower half of its bitmap element. -/
def TopoRef.LowHalf (b : TopoRef) : Prop :=
  ∀ g e, b.storage = some (g, e) → e.offset / 16384 % 32 < 16

/-- The blockref's storage is a range the allocator returns. -/
def TopoRef.WellFormed (b : TopoRef) : Prop := ∀ r, b.ref? = some r → r.WellFormed

/-- Marks are only added. -/
def Grows (m m' : Nat → Bmap) : Prop := ∀ g, ∀ k < 256, (m g).pair k = 3#2 → (m' g).pair k = 3#2

/-- The freemap is consistent: iterators are in place, and closed segments are full. -/
def SegsInv (hmp : FreemapDev) (m : Nat → Bmap) : Prop := ∀ g, SegInv hmp g (m g) ∅ ∅

/-- The blocks of an extent. -/
theorem blockCovered_iff_le {off radix n : Nat} :
    BlockCovered off radix n ↔ off / 16384 ≤ n ∧ n ≤ (off + 2 ^ radix - 1) / 16384 := by
  have hpos := Nat.two_pow_pos radix
  constructor
  · rintro ⟨x, h1, h2, rfl⟩
    exact ⟨Nat.div_le_div_right h1, Nat.div_le_div_right (by omega)⟩
  · rintro ⟨h1, h2⟩
    -- The first byte of the range in the block.
    refine ⟨max off (16384 * n), le_max_left _ _, ?_, ?_⟩
    · omega
    · omega

instance TopoRef.decidableMarked {freemap : Nat → Bmap} {b : TopoRef} :
    Decidable (b.Marked freemap) :=
  match h : b.storage with
  | none => isTrue fun g e hs => by rw [h] at hs; cases hs
  | some (g, e) =>
    decidable_of_iff (∀ k < (e.offset + 2 ^ e.radix - 1) / 16384 + 1, e.offset / 16384 ≤ k →
        (freemap g).pair k = 3#2) <| by
      constructor
      · intro hall g' e' hs k hk
        rw [h] at hs
        obtain ⟨rfl, rfl⟩ := Prod.mk.inj (Option.some.inj hs)
        obtain ⟨h1, h2⟩ := blockCovered_iff_le.1 hk
        exact hall k (by omega) h1
      · intro hm k hk h1
        exact hm g e h k (blockCovered_iff_le.2 ⟨h1, by omega⟩)

instance TopoRef.decidableLowHalf {b : TopoRef} : Decidable b.LowHalf :=
  match h : b.storage with
  | none => isTrue fun g e hs => by rw [h] at hs; cases hs
  | some (g, e) => decidable_of_iff (e.offset / 16384 % 32 < 16)
      ⟨fun hlt g' e' hs => by
        rw [h] at hs
        obtain ⟨rfl, rfl⟩ := Prod.mk.inj (Option.some.inj hs)
        exact hlt, fun hl => hl g e h⟩

section
variable {hmp : FreemapDev} {m m' m'' : Nat → Bmap} {b x : TopoRef} {r : Ref}

theorem Grows.refl (m : Nat → Bmap) : Grows m m := fun _ _ _ h => h

theorem Grows.trans (h : Grows m m') (h' : Grows m' m'') : Grows m m'' :=
  fun g k hk h3 => h' g k hk (h g k hk h3)

/-- A change of one segment that only adds marks. -/
theorem Grows.update {g : Nat} {c : Bmap} (h : ∀ k < 256, (m g).pair k = 3#2 → c.pair k = 3#2) :
    Grows m (Function.update m g c) := by
  intro g' k hk h3
  by_cases hg : g' = g
  · subst hg
    rw [Function.update_self]
    exact h k hk h3
  · rwa [Function.update_of_ne hg]

/-- The blocks of a well-formed range are blocks of its segment. -/
theorem Ref.WellFormed.covered_lt (h : r.WellFormed) {k : Nat}
    (hk : BlockCovered r.ext.offset r.ext.radix k) : k < 256 := by
  obtain ⟨x, -, hx, rfl⟩ := hk
  have hseg := h.placed.in_segment
  simp only [segSize] at hseg
  omega

/-- A blockref that is marked stays so. -/
theorem TopoRef.Marked.mono (h : b.Marked m) (hwf : b.WellFormed) (hg : Grows m m') :
    b.Marked m' := by
  intro g e hs k hk
  have hr : b.ref? = some ⟨g, e, b.type⟩ := by rw [TopoRef.ref?, hs]; rfl
  exact hg g k ((hwf _ hr).covered_lt hk) (h g e hs k hk)

/-- Without storage there is nothing to mark. -/
theorem TopoRef.marked_of_storage_none (h : b.storage = none) : b.Marked m := by
  intro g e hs
  rw [h] at hs
  cases hs

/-- The storage of a blockref. -/
theorem TopoRef.ref?_eq_some (h : b.ref? = some r) : b.storage = some (r.seg, r.ext) := by
  obtain ⟨s, hs, rfl⟩ := Option.map_eq_some_iff.1 h
  exact hs

theorem SegsInv.full (h : SegsInv hmp m) {g : Nat} (hg : segReserved hmp (g * segSize) = true) :
    (m g).Full :=
  ⟨(h g).full hg, (h g).no_linear hg⟩

/-- A segment may change if it keeps its invariant. -/
theorem SegsInv.update (h : SegsInv hmp m) {g : Nat} {c : Bmap} (hc : SegInv hmp g c ∅ ∅) :
    SegsInv hmp (Function.update m g c) := by
  intro g'
  by_cases hg : g' = g
  · subst hg
    rwa [Function.update_self]
  · rw [Function.update_of_ne hg]
    exact h g'

/-- Storage in a closed segment is marked. -/
theorem SegsInv.marked (h : SegsInv hmp m) (hwf : b.WellFormed)
    (hr : b.ref? = some r) (hres : segReserved hmp (r.seg * segSize) = true) : b.Marked m := by
  intro g e hs k hk
  rw [TopoRef.ref?_eq_some hr] at hs
  obtain ⟨rfl, rfl⟩ := Prod.mk.inj (Option.some.inj hs)
  exact (h.full hres).pair k ((hwf r hr).covered_lt hk)

/-! ## One adjustment -/

/-- The loop changes nothing where everything is marked. -/
theorem adjustLoop_of_full {c : Bmap} (hf : ∀ k < 256, c.pair k = 3#2) {cls : BitVec 16} {i : Nat}
    (hi : i < 8) {bg : Nat} : ∀ (count a : Nat), a + count ≤ 32 →
    (adjustLoop cls i count (runMask 64 (2 * a) (2 * 1)) ⟨c, bg, false⟩).bmap = c
  | 0, _, _ => rfl
  | count + 1, a, h => by
    have hself : c.elt i &&& runMask 64 (2 * a) (2 * 1) = runMask 64 (2 * a) (2 * 1) := by
      rw [and_runMask_eq_self_iff (by omega), pairAt_elt (by omega)]
      exact hf _ (by omega)
    rw [adjustLoop, if_neg (not_not.2 hself), runMask_shiftLeft,
      show 2 * a + 2 = 2 * (a + 1) by omega]
    exact adjustLoop_of_full hf hi count (a + 1) (by omega)

/-- An adjustment leaves a full segment as it is. -/
theorem adjustSegment_of_full (hwf : r.WellFormed) {c : Bmap} (hf : c.Full) :
    adjustSegment hmp r true c = c := by
  unfold adjustSegment
  split
  · rfl
  · have hrad : r.bref.radix ≤ 16 := by
      rw [hwf.off.2]
      exact hwf.radix.2
    have hcount := adjustCount_le hrad
    have hmask : 3#64 <<< adjustStart r.bref.off =
        runMask 64 (2 * (r.bref.off / 16384 % 16)) (2 * 1) := by
      rw [three_shiftLeft (by decide), adjustStart, Nat.mul_comm]
      rfl
    rw [adjustBmap, hmask]
    exact adjustLoop_of_full hf.pair (Nat.mod_lt _ (by decide)) _ _ (by omega)

/-- An adjustment clears no mark. -/
theorem grows_adjustRef (hwf : b.WellFormed) : Grows m (adjustRef hmp m b) := by
  unfold adjustRef
  split
  · exact Grows.refl m
  · next r hr =>
    refine Grows.update fun k hk h3 => ?_
    rcases (remarked_adjustSegment (hwf r hr)).pair k hk with h | h
    · exact h
    · rw [h]; exact h3

/-- An adjustment keeps a segment's invariant. -/
theorem SegsInv.adjustSegment (h : SegsInv hmp m) (hwf : r.WellFormed) :
    SegInv hmp r.seg (adjustSegment hmp r true (m r.seg)) ∅ ∅ := by
  by_cases hres : segReserved hmp (r.seg * segSize) = true
  · rw [adjustSegment_of_full hwf (h.full hres)]
    exact h r.seg
  · exact (h r.seg).remark (remarked_adjustSegment hwf) hres (Set.empty_subset _)

/-- An adjustment keeps the invariant of all segments. -/
theorem SegsInv.adjustRef (h : SegsInv hmp m) (hwf : b.WellFormed) :
    SegsInv hmp (adjustRef hmp m b) := by
  unfold Hammer2.adjustRef
  split
  · exact h
  · next r hr => exact h.update (h.adjustSegment (hwf r hr))

/-- **What an adjustment marks**: the blocks of its blockref, in the lower half of an element of an
open segment. -/
theorem marked_adjustRef (hwf : b.WellFormed) (hlow : b.LowHalf)
    (hopen : ∀ r, b.ref? = some r → segReserved hmp (r.seg * segSize) = false) :
    b.Marked (adjustRef hmp m b) := by
  intro g e hs k hk
  have hr : b.ref? = some ⟨g, e, b.type⟩ := by rw [TopoRef.ref?, hs]; rfl
  have hw := hwf _ hr
  have hbeg := (open_bounds (hopen _ hr)).1
  obtain ⟨hoff, hrad⟩ := hw.off
  have hlt := hw.offset_lt
  have hcov : BlockCovered (0 + e.offset) e.radix k ↔ _ := blockCovered_iff hw.radix hw.placed rfl
  rw [Nat.zero_add] at hcov
  have hk := hcov.1 hk
  have hfirst : adjustFirst (g * segSize + e.offset) = _ :=
    adjustFirst_eq (Nat.mul_mod_left g segSize) hlt
  have hl := hlow g e hs
  rw [adjustRef, hr]
  simp only [Function.update_self, adjustSegment]
  rw [if_neg (by rw [hoff]; simp only [not_or]; exact ⟨by dsimp only at *; omega, by decide⟩),
    pair_adjustBmap (by rw [hrad]; exact hw.radix.2), hrad, adjustCount_eq hw.radix, hoff]
  rw [if_pos (by rw [hfirst]; omega)]

/-! ## A recovery -/

/-- Recovery only adds marks and keeps the freemap consistent. -/
theorem recoveredFreemap_grows : ∀ {bs : List TopoRef} {m : Nat → Bmap},
    (∀ b ∈ bs, b.WellFormed) → SegsInv hmp m →
    Grows m (recoveredFreemap hmp m bs) ∧ SegsInv hmp (recoveredFreemap hmp m bs)
  | [], m, _, hf => ⟨Grows.refl m, hf⟩
  | b :: bs, m, hwf, hf => by
    have hb := hwf b List.mem_cons_self
    obtain ⟨hg, hfull⟩ := recoveredFreemap_grows (fun c hc => hwf c (List.mem_cons_of_mem _ hc))
      (hf.adjustRef hb)
    exact ⟨(grows_adjustRef hb).trans hg, hfull⟩

/-- Recovery marks what it adjusts in the lower half of an element. -/
theorem marked_recoveredFreemap : ∀ {bs : List TopoRef} {m : Nat → Bmap},
    (∀ b ∈ bs, b.WellFormed) → SegsInv hmp m → x ∈ bs → x.LowHalf →
    x.Marked (recoveredFreemap hmp m bs)
  | [], _, _, _, hx, _ => by cases hx
  | b :: bs, m, hwf, hf, hx, hlow => by
    have hb := hwf b List.mem_cons_self
    have hbs : ∀ c ∈ bs, c.WellFormed := fun c hc => hwf c (List.mem_cons_of_mem _ hc)
    have hf' : SegsInv hmp (adjustRef hmp m b) := hf.adjustRef hb
    rcases List.mem_cons.1 hx with rfl | hx
    · refine TopoRef.Marked.mono ?_ hb (recoveredFreemap_grows hbs hf').1
      by_cases hres : ∃ r, x.ref? = some r ∧ segReserved hmp (r.seg * segSize) = true
      · obtain ⟨r, hr, hres⟩ := hres
        exact hf'.marked hb hr hres
      · refine marked_adjustRef hb hlow fun r hr => ?_
        rw [← Bool.not_eq_true]
        exact fun hc => hres ⟨r, hr, hc⟩
    · show x.Marked (recoveredFreemap hmp (adjustRef hmp m b) bs)
      exact marked_recoveredFreemap hbs hf' hx hlow

end

/-! ## Headers -/

section
variable {ι : Type*}

/-- Recovery from the header `h` ends and marks everything reachable: each blockref is marked in the
header's freemap, or it and all blockrefs above it are newer and recovery adjusts it; after the
recovery all are marked. -/
def Recovers (hmp : FreemapDev) (h : VolumeData (VolBody ι)) : Prop :=
  ∃ adjusted, (∀ fuel, Rose.sizeAll h.body.sroot.trees ≤ fuel →
      recovery h.freemapTid fuel h.body.sroot.trees = some adjusted) ∧
    ∀ p x, Path TopoRef.scans h.body.sroot.trees p x →
      (x.Marked h.body.freemap ∨ (∀ y ∈ p, h.freemapTid < y.mirrorTid) ∧ x ∈ adjusted) ∧
        x.Marked (recoveredFreemap hmp h.body.freemap adjusted)

/-- What is kept of a blockref: its storage is one the allocator returns, its `mirror_tid` is at
most the next one, and the freemap reached only through `freemap_tid` has it marked unless it is
newer. -/
structure RefInv (mirrorTid freemapTid : Nat) (freemap : Nat → Bmap) (b : TopoRef) : Prop where
  wf : b.WellFormed
  type : b.type.inTopology = true
  tid : b.mirrorTid ≤ mirrorTid + 1
  covered : freemapTid < b.mirrorTid ∨ b.Marked freemap

/-- What is kept of a header. -/
structure HeaderInv (hmp : FreemapDev) (h : VolumeData (VolBody ι)) : Prop where
  tid : h.freemapTid ≤ h.mirrorTid
  segs : SegsInv hmp h.body.freemap
  ref : ∀ t ∈ h.body.sroot.trees, ∀ b ∈ reach TopoRef.scans t,
    RefInv h.mirrorTid h.freemapTid h.body.freemap b
  ordered : ∀ t ∈ h.body.sroot.trees, t.Ordered TopoRef.mirrorTid

/-- The condition on a header: what its freemap misses stands in the lower half of a bitmap
element. -/
def HeaderOk (h : VolumeData (VolBody ι)) : Prop :=
  ∀ b ∈ reachAll TopoRef.scans h.body.sroot.trees, b.Marked h.body.freemap ∨ b.LowHalf

instance {h : VolumeData (VolBody ι)} : Decidable (HeaderOk h) :=
  inferInstanceAs (Decidable (∀ b ∈ _, _))

variable {hmp : FreemapDev} {h : VolumeData (VolBody ι)}

/-- The invariant holds for every blockref below the header. -/
theorem HeaderInv.ref_reachAll (hi : HeaderInv hmp h) {b : TopoRef}
    (hb : b ∈ reachAll TopoRef.scans h.body.sroot.trees) :
    RefInv h.mirrorTid h.freemapTid h.body.freemap b := by
  obtain ⟨t, ht, hbt⟩ := mem_reachAll.1 hb
  exact hi.ref t ht b hbt

/-- **A header that meets the condition recovers.** -/
theorem HeaderInv.recovers (hi : HeaderInv hmp h) (hok : HeaderOk h) : Recovers hmp h := by
  obtain ⟨adjusted, hadj⟩ := @recovery_terminates h.freemapTid h.body.sroot.trees
  have hrec := hadj _ (le_refl _)
  have hwf : ∀ b ∈ adjusted, b.WellFormed := fun b hb =>
    (hi.ref_reachAll (recovery_subset hrec hb)).wf
  refine ⟨adjusted, hadj, fun p x hp => ?_⟩
  have hx := hp.mem_reachAll
  have hinv := hi.ref_reachAll hx
  by_cases hm : x.Marked h.body.freemap
  · exact ⟨Or.inl hm, hm.mono hinv.wf (recoveredFreemap_grows hwf hi.segs).1⟩
  · have hnew := hinv.covered.resolve_right hm
    have hpath : ∀ y ∈ p, h.freemapTid < y.mirrorTid := fun y hy =>
      lt_of_lt_of_le hnew (hp.le_of_ordered hi.ordered y hy)
    have hne : x.type ≠ .volume := by
      intro hv
      have := hinv.type
      rw [hv] at this
      cases this
    have hmem := recovery_adjusts hrec hp hpath hne
    exact ⟨Or.inr ⟨hpath, hmem⟩,
      marked_recoveredFreemap hwf hi.segs hmem ((hok x hx).resolve_left hm)⟩

end

/-! ## The leaves -/

/-- `adjustRef` on the leaves of the freemap, one for each 1GB; a missing leaf is created. -/
def adjustRefLeaf (hmp : FreemapDev) (leaf : Nat → Option FreemapLeaf) (b : TopoRef) :
    Nat → Option FreemapLeaf :=
  match b.ref? with
  | none => leaf
  | some r =>
    Function.update leaf (r.seg / 256) (freemapAdjust .ok hmp r.bref (leaf (r.seg / 256))).leaf

/-- **Recovery of the leaves is recovery of the segments**: with the leaves there are and those it
creates, `hammer2_freemap_adjust` of the blockrefs in turn gives each segment its recovered bmap. -/
theorem segBmap_recovered {hmp : FreemapDev} {bs : List TopoRef} (hwf : ∀ b ∈ bs, b.WellFormed)
    (leaf : Nat → Option FreemapLeaf) :
    segBmap hmp (bs.foldl (adjustRefLeaf hmp) leaf) = recoveredFreemap
      hmp (segBmap hmp leaf) bs := by
  induction bs generalizing leaf with
  | nil => rfl
  | cons b bs ih =>
    have hstep : segBmap hmp (adjustRefLeaf hmp leaf b) = adjustRef hmp (segBmap hmp leaf) b := by
      unfold adjustRefLeaf adjustRef
      cases hr : b.ref? with
      | none => rfl
      | some r => exact segBmap_freemapAdjust (hwf b List.mem_cons_self r hr) leaf
    rw [List.foldl_cons, ih fun c hc => hwf c (List.mem_cons_of_mem _ hc), hstep]
    rfl

/-- Of two data blocks, one is marked in a leaf that was missing and one in the second leaf, which
was there. -/
theorem segBmap_recovered_missing :
    let hmp : FreemapDev := ⟨0, 2 ^ 31⟩
    let leaf := fun i => if i = 1 then some (freemapInit hmp freemapLevel1Size) else none
    let bs : List TopoRef :=
      [⟨.data, some (1, ⟨98304, 14⟩), 9, false⟩, ⟨.data, some (300, ⟨32768, 14⟩), 9, false⟩]
    (segBmap hmp (bs.foldl (adjustRefLeaf hmp) leaf) 1).pair 6 = 3#2 ∧
      (segBmap hmp (bs.foldl (adjustRefLeaf hmp) leaf) 300).pair 2 = 3#2 := by
  intro hmp leaf bs
  have hwf : ∀ b ∈ bs, b.WellFormed := by
    intro b hb r hr
    rcases List.mem_pair.1 hb with rfl | rfl <;> cases hr <;> decide
  rw [segBmap_recovered hwf]
  decide +kernel

end Hammer2
