import Hammer2.Bulkfree.Safety

/-!
# Every interleaving of allocation, dedup and bulkfree

`BfInv` puts the invariants of the segments together for a state of the system and each kind of step
is shown to keep it, a merge under `MergeOk`. A run that starts from a consistent freemap and whose
merges all meet that condition never frees or hands out referenced storage (`bulkfree_run_safe`). A
run with one merge that does not meet it hands out a referenced fragment
(`bulkfree_merge_overlap`).

Reference: `hammer2_bulkfree.c:842-1153`.
-/

namespace Hammer2

open Transition

/-! ## Bytes in use -/

/-- The referenced bytes of a segment. -/
def BfState.refBytes (s : BfState) (seg : Nat) : Set Nat :=
  {x | ∃ r ∈ s.refs, r.seg = seg ∧ x ∈ r.ext.bytes}

/-- The bytes of a segment with dedup bits. -/
def BfState.dedupBytes (s : BfState) (seg : Nat) : Set Nat :=
  {x | x < segSize ∧ s.dedup seg (x / 1024) = true}

/-- The invariant of the system. -/
structure BfInv (hmp : FreemapDev) (s : BfState) : Prop where
  refs : ∀ r ∈ s.refs, r.WellFormed
  seg : ∀ seg, SegInv hmp seg (s.live seg) (s.refBytes seg) (s.dedupBytes seg)
  pass : ∀ p seg m, s.pass = some p → p seg = some m →
    PassInv hmp seg (s.live seg) (s.refBytes seg) m

/-- A consistent freemap at rest: the live maps cover the blockrefs, the closed segments are full,
nothing has dedup bits and no pass is in progress. -/
structure BfInit (hmp : FreemapDev) (s : BfState) : Prop where
  refs : ∀ r ∈ s.refs, r.WellFormed
  covers : ∀ seg, (s.live seg).Covers (s.refBytes seg)
  full : ∀ seg, segReserved hmp (seg * segSize) = true → (s.live seg).Full
  dedup : ∀ g f, s.dedup g f = false
  pass : s.pass = none

/-- No referenced block is free, and no allocation overlaps a referenced range. -/
structure BfState.Safe (s : BfState) : Prop where
  marked : ∀ r ∈ s.refs, ∀ x ∈ r.ext.bytes, (s.live r.seg).pair (x / 16384) ≠ 0#2
  disjoint : ∀ seg cls subKey radix res, ValidRadix radix → SubKeyAligned cls subKey radix →
    bmapAlloc (s.live seg) cls subKey radix = some res → ∀ r ∈ s.refs, r.seg = seg →
      Disjoint (Extent.bytes ⟨res.offset, radix⟩) r.ext.bytes

/-- The condition on the steps of a run: a merge that changes its segment meets `MergeOk`. -/
def BfOk (hmp : FreemapDev) (s : BfState) : BfAct → Prop
  | .merge seg hint skip =>
    match s.pass.bind fun p => p seg with
    | some m => SyncRuns hmp (seg * segSize) hint skip (s.live seg) m → MergeOk (s.live seg) m
    | none => True
  | _ => True

instance {hmp : FreemapDev} {s : BfState} : ∀ a : BfAct, Decidable (BfOk hmp s a)
  | .merge seg hint skip =>
    match h : s.pass.bind fun p => p seg with
    | some m => decidable_of_iff
        (SyncRuns hmp (seg * segSize) hint skip (s.live seg) m → MergeOk (s.live seg) m)
        (by simp only [BfOk, h])
    | none => isTrue (by simp only [BfOk, h])
  | .alloc .. | .dedupHit .. | .release .. | .dedupDrop .. | .snapshot .. | .passEnd =>
    inferInstanceAs (Decidable True)

section
variable {hmp : FreemapDev} {s t : BfState} {seg : Nat}

/-- The 1KB fragments of an extent. -/
theorem mem_frags {e : Extent} {f : Nat} :
    f ∈ e.frags ↔ e.offset / 1024 ≤ f ∧ f < e.offset / 1024 + 2 ^ e.radix / 1024 := by
  simp only [Extent.frags, List.mem_map, List.mem_range]
  constructor
  · rintro ⟨i, hi, rfl⟩
    omega
  · rintro ⟨h1, h2⟩
    exact ⟨f - e.offset / 1024, by omega, by omega⟩

theorem size_kb {radix : Nat} (hr : ValidRadix radix) : 2 ^ radix % 1024 = 0 := by
  by_cases hlt : radix < 14
  · exact (fragment_size hr hlt).2.2.2
  · have := block_size hr (Nat.le_of_not_lt hlt)
    omega

/-- The bytes of an extent are those of its fragments. -/
theorem mem_bytes_iff_frag {e : Extent} (hr : ValidRadix e.radix) (hkb : e.offset % 1024 = 0)
    {x : Nat} : x ∈ e.bytes ↔ x / 1024 ∈ e.frags := by
  have := size_kb hr
  rw [mem_frags, Extent.bytes, Set.mem_Ico]
  omega

/-- The invariant is what safety asks. -/
theorem BfInv.safe (h : BfInv hmp s) : s.Safe where
  marked r hr x hx := (h.seg r.seg).covers.marked x (Or.inl ⟨r, hr, rfl, hx⟩)
  disjoint seg cls subKey radix res hv hal hres r hr hseg := by
    have hdis := (bmapAlloc_step hv hal hres).disjoint hv (h.seg seg).covers
    exact hdis.mono_right fun x hx => Or.inl ⟨r, hr, hseg, hx⟩

/-- A consistent freemap meets the invariant. -/
theorem BfInit.inv (h : BfInit hmp s) : BfInv hmp s := by
  have hnone : ∀ seg, s.dedupBytes seg = ∅ := by
    intro seg
    rw [Set.eq_empty_iff_forall_notMem]
    rintro x ⟨-, hx⟩
    rw [h.dedup] at hx
    cases hx
  refine ⟨h.refs, fun seg => ?_, fun p seg m hp => by rw [h.pass] at hp; cases hp⟩
  rw [hnone]
  exact ⟨by rw [Set.union_empty]; exact h.covers seg, fun x hx => absurd hx (Set.notMem_empty _),
    fun hc => (h.full seg hc).pair, fun hc => (h.full seg hc).linear, fun _ => rfl⟩

/-- A step that keeps the maps and the pass, and only takes away blockrefs and dedup bits. -/
theorem BfInv.shrink (h : BfInv hmp s) (hlive : t.live = s.live) (hpass : t.pass = s.pass)
    (hrefs : ∀ r ∈ t.refs, r ∈ s.refs) (hdedup : ∀ g f, t.dedup g f = true → s.dedup g f = true) :
    BfInv hmp t := by
  have hR : ∀ seg, t.refBytes seg ⊆ s.refBytes seg := by
    rintro seg x ⟨r, hr, hs, hx⟩
    exact ⟨r, hrefs r hr, hs, hx⟩
  have hD : ∀ seg, t.dedupBytes seg ⊆ s.dedupBytes seg := by
    rintro seg x ⟨hx, hd⟩
    exact ⟨hx, hdedup _ _ hd⟩
  refine ⟨fun r hr => h.refs r (hrefs r hr), fun seg => ?_, fun p seg m hp hm => ?_⟩
  · rw [hlive]; exact (h.seg seg).mono (hR seg) (hD seg)
  · rw [hlive]; rw [hpass] at hp
    exact (h.pass p seg m hp hm).mono (hR seg)

/-- A step that changes one segment: the invariant of that segment is all there is to show. -/
theorem BfInv.update (h : BfInv hmp s) (g : Nat) {b : Bmap}
    (hlive : t.live = Function.update s.live g b) (hpass : t.pass = s.pass)
    (hrefs : ∀ r ∈ t.refs, r.WellFormed)
    (hR : ∀ seg, seg ≠ g → t.refBytes seg ⊆ s.refBytes seg)
    (hD : ∀ seg, seg ≠ g → t.dedupBytes seg ⊆ s.dedupBytes seg)
    (hseg : SegInv hmp g b (t.refBytes g) (t.dedupBytes g))
    (hpi : ∀ m, PassInv hmp g (s.live g) (s.refBytes g) m → PassInv hmp g b (t.refBytes g) m) :
    BfInv hmp t := by
  refine ⟨hrefs, fun seg => ?_, fun p seg m hp hm => ?_⟩
  · rw [hlive]
    by_cases hg : seg = g
    · subst hg; rw [Function.update_self]; exact hseg
    · rw [Function.update_of_ne hg]
      exact (h.seg seg).mono (hR seg hg) (hD seg hg)
  · rw [hlive]
    rw [hpass] at hp
    have hold := h.pass p seg m hp hm
    by_cases hg : seg = g
    · subst hg; rw [Function.update_self]; exact hpi m hold
    · rw [Function.update_of_ne hg]
      exact hold.mono (hR seg hg)

/-! ## One lemma per kind of step -/

/-- An allocation keeps the invariant. -/
theorem BfInv.alloc (h : BfInv hmp s) {subKey : BitVec 32} {radix : Nat} {type : BrefType}
    (hr : ValidRadix radix) (hal : SubKeyAligned (brefClass type) subKey radix)
    (hst : s.alloc seg subKey radix type = some t) : BfInv hmp t := by
  rw [BfState.alloc, Option.map_eq_some_iff] at hst
  obtain ⟨r, hres, rfl⟩ := hst
  have hstep := bmapAlloc_step hr hal hres
  have hkb := hstep.offset_kb (h.seg seg).covers.linear_kb
  have hbytes : ∀ x, x ∈ Extent.bytes ⟨r.offset, radix⟩ ↔
      x / 1024 ∈ Extent.frags ⟨r.offset, radix⟩ := fun x => mem_bytes_iff_frag hr hkb
  refine h.update seg rfl rfl ?_ ?_ ?_ ?_ ?_
  · exact List.forall_mem_cons.2 ⟨⟨hr, hstep.wellPlaced hr, hkb⟩, h.refs⟩
  · rintro g hg x ⟨q, hq, hqs, hx⟩
    rcases List.mem_cons.1 hq with rfl | hq
    · exact absurd hqs.symm hg
    · exact ⟨q, hq, hqs, hx⟩
  · rintro g hg x ⟨hx, hd⟩
    simp only [Bool.or_eq_true, Bool.and_eq_true, beq_iff_eq] at hd
    rcases hd with hd | ⟨⟨-, hgs⟩, -⟩
    · exact ⟨hx, hd⟩
    · exact absurd hgs hg
  · refine ((h.seg seg).alloc hstep hr).mono ?_ ?_
    · rintro x ⟨q, hq, hqs, hx⟩
      rcases List.mem_cons.1 hq with rfl | hq
      · exact Or.inr hx
      · exact Or.inl ⟨q, hq, hqs, hx⟩
    · rintro x ⟨hx, hd⟩
      simp only [Bool.or_eq_true, Bool.and_eq_true, List.contains_iff_mem] at hd
      rcases hd with hd | ⟨-, hd⟩
      · exact Or.inl ⟨hx, hd⟩
      · exact Or.inr ((hbytes x).2 hd)
  · intro m hm
    refine (hm.alloc hstep hr).mono ?_
    rintro x ⟨q, hq, hqs, hx⟩
    rcases List.mem_cons.1 hq with rfl | hq
    · exact Or.inr hx
    · exact Or.inl ⟨q, hq, hqs, hx⟩

/-- A dedup hit keeps the invariant. -/
theorem BfInv.dedupHit (h : BfInv hmp s) {r : Ref} {ok : Bool} (hwf : r.WellFormed)
    (hall : r.ext.frags.all (s.dedup r.seg) = true) : BfInv hmp (s.dedupHit hmp r ok) := by
  -- The shared range has all its dedup bits, so it is already in use.
  have hsub : r.ext.bytes ⊆ s.dedupBytes r.seg := by
    intro x hx
    have hin := hwf.placed.in_segment
    have hf := (mem_bytes_iff_frag hwf.radix hwf.kb).1 hx
    simp only [Extent.bytes, Set.mem_Ico] at hx
    exact ⟨by omega, List.all_eq_true.1 hall _ hf⟩
  have hmem : r.ext.offset ∈ r.ext.bytes := by
    have := Nat.two_pow_pos r.ext.radix
    simp only [Extent.bytes, Set.mem_Ico]
    omega
  have hopen : ¬ segReserved hmp (r.seg * segSize) := by
    intro hc
    have := hsub hmem
    rw [(h.seg r.seg).no_dedup hc] at this
    exact this
  have hrm := @remarked_adjustSegment hmp (s.live r.seg) r hwf ok
  have hR : (s.dedupHit hmp r ok).refBytes r.seg ⊆
      s.refBytes r.seg ∪ s.dedupBytes r.seg := by
    rintro x ⟨q, hq, hqs, hx⟩
    rcases List.mem_cons.1 hq with rfl | hq
    · exact Or.inr (hsub hx)
    · exact Or.inl ⟨q, hq, hqs, hx⟩
  refine h.update r.seg rfl rfl (List.forall_mem_cons.2 ⟨hwf, h.refs⟩) ?_
    (fun g _ x hx => hx) ?_ ?_
  · rintro g hg x ⟨q, hq, hqs, hx⟩
    rcases List.mem_cons.1 hq with rfl | hq
    · exact absurd hqs.symm hg
    · exact ⟨q, hq, hqs, hx⟩
  · exact (h.seg r.seg).remark hrm hopen hR
  · exact fun m hm => hm.remark (h.seg r.seg) hrm hR

/-- A pass that starts on an aligned range keeps the invariant. -/
theorem BfInv.snapshot (h : BfInv hmp s) {sbase sstop : Nat}
    (hbase : sbase % freemapLevel1Size = 0)
    (hstop : sstop % freemapLevel1Size = 0 ∨ sstop = hmp.totalSize) :
    BfInv hmp { s with pass := some (bulkfreePass hmp sbase sstop s.refs) } := by
  refine ⟨h.refs, h.seg, fun p seg m hp hm => ?_⟩
  obtain rfl := Option.some.inj hp
  have hscan := scanInv_bulkfreePass h.refs hbase hstop hm
  refine ⟨hscan.scanned, fun k hk h0 h2 x hx hxk => ?_, fun hc => (hscan.full hc).pair⟩
  -- A referenced block was marked by the scan.
  by_cases hres : segReserved hmp (seg * segSize) = true
  · rw [(hscan.full hres).pair k hk] at h0
    exact absurd h0 (by decide)
  · obtain ⟨r, hr, hrs, hx⟩ := hx
    rw [Bool.not_eq_true] at hres
    have h3 := hscan.marks hres r hr hrs x hx
    rw [hxk, h0] at h3
    exact absurd h3 (by decide)

/-- A merge that meets its condition keeps the invariant. -/
theorem BfInv.merge (h : BfInv hmp s) {p : Nat → Option Bmap} {m : Bmap} {hint skip : Bool}
    (hp : s.pass = some p) (hm : p seg = some m)
    (hok : SyncRuns hmp (seg * segSize) hint skip (s.live seg) m → MergeOk (s.live seg) m) :
    BfInv hmp (s.merge hmp p seg hint skip m) := by
  have hpi := h.pass p seg m hp hm
  have hD : ∀ g, (s.merge hmp p seg hint skip m).dedupBytes g ⊆ s.dedupBytes g := by
    rintro g x ⟨hx, hd⟩
    simp only [BfState.merge, Bool.and_eq_true] at hd
    exact ⟨hx, hd.1⟩
  have hseg : SegInv hmp seg
      (bulkfreeSync hmp (seg * segSize) hint skip (s.live seg) m).live (s.refBytes seg)
      ((s.merge hmp p seg hint skip m).dedupBytes seg) := by
    rcases @bulkfreeSync_cases hmp (seg * segSize) hint skip (s.live seg) m with heq | ⟨hruns, heq⟩
    · rw [heq]
      exact (h.seg seg).mono (fun x hx => hx) (hD seg)
    · have hmerge := (h.seg seg).merge hpi (hok hruns)
      rw [heq]
      refine hmerge.mono (fun x hx => hx) ?_
      rintro x ⟨hx, hd⟩
      simp only [BfState.merge, heq, Bool.and_eq_true, Bool.not_eq_true', beq_self_eq_true,
        Bool.true_and] at hd
      refine ⟨⟨hx, hd.1⟩, fun hdel => ?_⟩
      have hblk : x / 1024 / 16 = x / 16384 := by rw [Nat.div_div_eq_div_mul]
      rw [hblk] at hd
      rw [List.contains_iff_mem.2 hdel] at hd
      cases hd.2
  have hrefs : ∀ g, (s.merge hmp p seg hint skip m).refBytes g = s.refBytes g := fun _ => rfl
  have hself : (s.merge hmp p seg hint skip m).live seg =
      (bulkfreeSync hmp (seg * segSize) hint skip (s.live seg) m).live := Function.update_self _ _ _
  have hother : ∀ g, g ≠ seg → (s.merge hmp p seg hint skip m).live g = s.live g :=
    fun g hg => Function.update_of_ne hg _ _
  refine ⟨h.refs, fun g => ?_, fun q g m' hq hm' => ?_⟩
  · rw [hrefs]
    by_cases hg : g = seg
    · subst hg; rw [hself]; exact hseg
    · rw [hother g hg]
      exact (h.seg g).mono (fun x hx => hx) (hD g)
  · simp only [BfState.merge, Option.some.injEq] at hq
    subst hq
    rw [hrefs]
    by_cases hg : g = seg
    · subst hg
      rw [Function.update_self] at hm'
      cases hm'
    · rw [Function.update_of_ne hg] at hm'
      rw [hother g hg]
      exact h.pass p g m' hp hm'

/-- **Every step keeps the invariant.** -/
theorem BfInv.step (h : BfInv hmp s) {a : BfAct} (hok : BfOk hmp s a) (hst : bfStep hmp s a t) :
    BfInv hmp t := by
  obtain ⟨hv, hnext⟩ := hst
  cases a with
  | alloc seg subKey radix type => exact h.alloc hv.1 hv.2 hnext
  | dedupHit r ok =>
    simp only [bfNext] at hnext
    split at hnext
    · next hall =>
      obtain rfl := Option.some.inj hnext
      exact h.dedupHit hv hall
    · cases hnext
  | release r =>
    simp only [bfNext] at hnext
    split at hnext
    · obtain rfl := Option.some.inj hnext
      exact h.shrink rfl rfl (fun q hq => List.mem_of_mem_erase hq) fun g f hd => hd
    · cases hnext
  | dedupDrop seg frag =>
    obtain rfl := Option.some.inj hnext
    refine h.shrink rfl rfl (fun q hq => hq) fun g f hd => ?_
    simp only [Bool.and_eq_true] at hd
    exact hd.1
  | snapshot sbase sstop =>
    simp only [bfNext] at hnext
    split at hnext
    · obtain rfl := Option.some.inj hnext
      exact h.snapshot hv.1 hv.2
    · cases hnext
  | merge seg hint skip =>
    simp only [bfNext] at hnext
    split at hnext
    · next p hp =>
      rw [Option.map_eq_some_iff] at hnext
      obtain ⟨m, hm, rfl⟩ := hnext
      have hbind : (s.pass.bind fun p => p seg) = some m := by rw [hp]; exact hm
      simp only [BfOk, hbind] at hok
      exact h.merge hp hm hok
    · cases hnext
  | passEnd =>
    obtain rfl := Option.some.inj hnext
    exact ⟨h.refs, h.seg, fun p seg m hp => by cases hp⟩

end

/-- **Bulkfree never frees live storage**: along every run from a consistent freemap whose merges
meet `MergeOk`, referenced blocks stay marked and allocations avoid referenced ranges. -/
theorem bulkfree_run_safe (hmp : FreemapDev) (s₀ s : BfState) (acts : List BfAct)
    (h₀ : BfInit hmp s₀) (hrun : RunMeets (bfStep hmp) (BfOk hmp) s₀ acts s) : s.Safe :=
  (hrun.invariant (fun h hok hst => BfInv.step h hok hst) h₀.inv).safe

/-! ## A fresh device -/

/-- The state after the freemap was initialised, with no blockref outside the static area. -/
def bfFresh (hmp : FreemapDev) : BfState where
  live seg := cbinfoBmapInit hmp (seg * segSize)
  refs := []
  dedup _ _ := false
  pass := none

/-- A freemap just initialised is consistent. -/
theorem bfInit_fresh (hmp : FreemapDev) : BfInit hmp (bfFresh hmp) where
  refs r hr := absurd hr List.not_mem_nil
  covers seg := by
    have hempty : (bfFresh hmp).refBytes seg = ∅ := by
      rw [Set.eq_empty_iff_forall_notMem]
      rintro x ⟨r, hr, -⟩
      exact absurd hr List.not_mem_nil
    rw [hempty]
    simp only [bfFresh, cbinfoBmapInit]
    split
    · exact Bmap.covers_empty (le_refl _) rfl
    · exact Bmap.covers_empty (Nat.zero_le _) rfl
  full seg hc := by
    simp only [bfFresh, cbinfoBmapInit, if_pos hc]
    exact ⟨fun k => Bmap.pair_initReserved, rfl⟩
  dedup _ _ := rfl
  pass := rfl

/-- A 16KB block and two fragments behind it are allocated, the block is released, and two passes
free it again. -/
def bulkfreeTrace : List BfAct :=
  [.alloc 1 0#32 14 .data, .alloc 1 0#32 10 .inode, .alloc 1 0#32 10 .data,
    .release ⟨1, ⟨0, 14⟩, .data⟩,
    .snapshot 0 2147483648, .merge 1 true false, .passEnd,
    .snapshot 0 2147483648, .merge 1 true false, .passEnd]

/-- The first block is free for allocation again after the two passes. -/
theorem bulkfree_run_safe_two_passes :
    ∃ s, RunMeets (bfStep ⟨4194304, 2147483648⟩) (BfOk ⟨4194304, 2147483648⟩)
      (bfFresh ⟨4194304, 2147483648⟩) bulkfreeTrace s ∧
      (s.live 1).pair 0 = 0#2 ∧ (s.live 1).pair 1 = 3#2 ∧ s.Safe := by
  have hpairs : (exec (bfNext ⟨4194304, 2147483648⟩)
      (fun s a => BfAct.Valid ⟨4194304, 2147483648⟩ a ∧ BfOk ⟨4194304, 2147483648⟩ s a)
      (bfFresh ⟨4194304, 2147483648⟩) bulkfreeTrace).map
        (fun s => ((s.live 1).pair 0, (s.live 1).pair 1)) = some (0#2, 3#2) := by decide +kernel
  obtain ⟨s, hex, hp⟩ := Option.map_eq_some_iff.1 hpairs
  have hrun : RunMeets (bfStep ⟨4194304, 2147483648⟩) (BfOk ⟨4194304, 2147483648⟩)
      (bfFresh ⟨4194304, 2147483648⟩) bulkfreeTrace s :=
    RunMeets.of_exec (fun hc hn => ⟨hc.2, hc.1, hn⟩) hex
  obtain ⟨h0, h1⟩ := Prod.mk.inj hp
  exact ⟨s, hrun, h0, h1, bulkfree_run_safe _ _ _ _ (bfInit_fresh _) hrun⟩

/-- The first block is then packed with two 8KB fragments, which leaves the iterator on the boundary
of the second block; the second fragment of that block is released, a snapshot is taken, and the
fragment is referenced again by a dedup hit. The merge moves the iterator up to the end of the first
fragment, and the next allocation returns the range of the second. -/
theorem bulkfree_merge_overlap :
    ∃ s, Run (bfStep ⟨4194304, 2147483648⟩) (bfFresh ⟨4194304, 2147483648⟩)
      (bulkfreeTrace ++ [.alloc 1 0#32 13 .inode, .alloc 1 0#32 13 .inode,
        .release ⟨1, ⟨17408, 10⟩, .data⟩, .snapshot 0 2147483648,
        .dedupHit ⟨1, ⟨17408, 10⟩, .data⟩ true, .merge 1 true false]) s ∧
      ⟨1, ⟨17408, 10⟩, .data⟩ ∈ s.refs ∧
      (bmapAlloc (s.live 1) (brefClass .inode) 0#32 10).map AllocResult.offset = some 17408 ∧
      ¬ s.Safe := by
  have hend : (exec (bfNext ⟨4194304, 2147483648⟩)
      (fun _ a => BfAct.Valid ⟨4194304, 2147483648⟩ a) (bfFresh ⟨4194304, 2147483648⟩)
      (bulkfreeTrace ++ [.alloc 1 0#32 13 .inode, .alloc 1 0#32 13 .inode,
        .release ⟨1, ⟨17408, 10⟩, .data⟩, .snapshot 0 2147483648,
        .dedupHit ⟨1, ⟨17408, 10⟩, .data⟩ true, .merge 1 true false])).map
        (fun s => (decide (⟨1, ⟨17408, 10⟩, .data⟩ ∈ s.refs),
          (bmapAlloc (s.live 1) (brefClass .inode) 0#32 10).map AllocResult.offset)) =
      some (true, some 17408) := by decide +kernel
  obtain ⟨s, hex, hp⟩ := Option.map_eq_some_iff.1 hend
  obtain ⟨href, halloc⟩ := Prod.mk.inj hp
  rw [decide_eq_true_eq] at href
  refine ⟨s, RunMeets.of_exec (fun hc hn => ⟨trivial, hc, hn⟩) hex, href, halloc, fun hsafe => ?_⟩
  obtain ⟨res, hres, hoff⟩ := Option.map_eq_some_iff.1 halloc
  have hdis := hsafe.disjoint 1 _ _ 10 res (by decide) (by decide) hres _ href rfl
  rw [Set.disjoint_left] at hdis
  refine hdis (a := 17408) ?_ ?_
  · rw [hoff, Extent.bytes, Set.mem_Ico]; decide
  · rw [Extent.bytes, Set.mem_Ico]; decide

end Hammer2
