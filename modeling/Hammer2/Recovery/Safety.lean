import Hammer2.Recovery.Marks

/-!
# Recovery after every run

The invariant of a mounted volume (`FsInv`): every blockref in memory or in a block table is marked
in the freemap in memory, and unless it is newer than `freemap_tid` also in the freemap of the
header; below a blockref none is newer. Every step keeps it, the flush of `fchain` on the condition
that no freemap leaf was modified again after its flush, the header write on the condition that what
its freemap misses stands in the lower half of a bitmap element (`FsOk`). So recovery from every
header that a run meeting these conditions writes marks everything (`recovery_remarks`).

Both conditions are needed: a block with index 16 in its element is lost
(`recovery_misses_upper_half`).

Reference: `hammer2_flush.c:640-1003`, `hammer2_vfsops.c:1968-2137`.
-/

namespace Hammer2

open Deferral Transition

section
variable {ι : Type*}

/-! ## The invariant -/

/-- What is kept of a blockref in memory or in a block table. -/
structure FsState.Known (s : FsState ι) (b : TopoRef) : Prop where
  ref : RefInv s.vol.voldata.mirrorTid s.vol.voldata.freemapTid s.vol.voldata.body.freemap b
  marked : b.Marked s.live

/-- What is kept of an entry of a block table. -/
structure FsState.Entry (s : FsState ι) (t : Rose TopoRef) : Prop where
  known : ∀ b ∈ reach TopoRef.scans t, s.Known b
  ordered : t.Ordered TopoRef.mirrorTid

/-- The largest `mirror_tid` below a chain or below `vchain`. -/
def FsState.tidAt (s : FsState ι) : Option ι → Nat
  | none => s.vol.voldata.mirrorTid + 1
  | some c => (s.chain c).bref.mirrorTid

/-- The invariant of a mounted volume. -/
structure FsInv (hmp : FreemapDev) (s : FsState ι) : Prop where
  tid : s.vol.voldata.freemapTid ≤ s.vol.voldata.mirrorTid
  ftid : s.vol.fchainTid ≤ s.vol.voldata.mirrorTid + 1
  vtid : s.vol.vchainTid ≤ s.vol.voldata.mirrorTid + 1
  chain : ∀ c, s.Known (s.chain c).bref
  entry : ∀ p, ∀ t ∈ (s.table p).trees, s.Entry t ∧ t.label.mirrorTid ≤ s.tidAt p
  sources : ∀ r ∈ s.sources, r.WellFormed ∧
    ∀ k, BlockCovered r.ext.offset r.ext.radix k → (s.live r.seg).pair k = 3#2
  grows : Grows s.vol.voldata.body.freemap s.live
  clean : ∀ seg, seg / 256 ∉ s.dirty → s.vol.voldata.body.freemap seg = s.live seg
  segs : SegsInv hmp s.live
  segs_media : SegsInv hmp s.vol.voldata.body.freemap
  sync : s.vol.volumesync = true → HeaderInv hmp s.vol.volsync
  headers : ∀ h ∈ s.headers, HeaderInv hmp h ∧ HeaderOk h

/-- The conditions on the steps. -/
def FsOk (s : FsState ι) : FsAct ι → Prop
  | .flushFreemap => s.dirty = []
  | .headerWrite => HeaderOk s.vol.volsync
  | _ => True

/-- A volume just mounted from a consistent header. -/
def FsInit (hmp : FreemapDev) (s : FsState ι) : Prop :=
  ∃ h, HeaderInv hmp h ∧ HeaderOk h ∧ Mounts hmp h s ∧ s.headers = [h]

/-- The state `t` follows `s` with nothing forgotten: the same transaction and more marks. -/
structure Later (s t : FsState ι) : Prop where
  mirror : t.vol.voldata.mirrorTid = s.vol.voldata.mirrorTid
  freemapTid : t.vol.voldata.freemapTid = s.vol.voldata.freemapTid
  freemap : t.vol.voldata.body.freemap = s.vol.voldata.body.freemap
  live : Grows s.live t.live

variable {hmp : FreemapDev} {s t u : FsState ι} {b : TopoRef} {e : Rose TopoRef}

theorem Later.trans (h : Later s t) (h' : Later t u) : Later s u where
  mirror := h'.mirror.trans h.mirror
  freemapTid := h'.freemapTid.trans h.freemapTid
  freemap := h'.freemap.trans h.freemap
  live := h.live.trans h'.live

/-- A blockref that is known stays so. -/
theorem FsState.Known.later (h : s.Known b) (hl : Later s t) : t.Known b where
  ref := by
    rw [hl.mirror, hl.freemapTid, hl.freemap]
    exact h.ref
  marked := h.marked.mono h.ref.wf hl.live

/-- An entry stays one. -/
theorem FsState.Entry.later (h : s.Entry e) (hl : Later s t) : t.Entry e where
  known b hb := (h.known b hb).later hl
  ordered := h.ordered

/-- An entry's `mirror_tid` is at most one ahead of the volume's. -/
theorem FsState.Entry.label_le (h : s.Entry e) :
    e.label.mirrorTid ≤ s.vol.voldata.mirrorTid + 1 :=
  (h.known _ (label_mem_reach e)).ref.tid

/-- The blockref of a chain with what stands in its table is an entry for its parent's table. -/
theorem FsInv.entry_tree (h : FsInv hmp s) (c : ι) : s.Entry (s.chain c).tree where
  known b hb := by
    rw [TopoChain.tree, reach, List.mem_cons] at hb
    rcases hb with rfl | hb
    · exact h.chain c
    · split at hb
      · obtain ⟨t, ht, hbt⟩ := mem_reachAll.1 hb
        exact (h.entry (some c) t ht).1.known b hbt
      · cases hb
  ordered := .node (fun t ht => (h.entry (some c) t ht).2)
    fun t ht => (h.entry (some c) t ht).1.ordered

/-! ## Changes of one part of the state -/

/-- Where the chains and tables stay and what was known stays known. -/
theorem FsInv.frame (h : FsInv hmp s) (t : FsState ι) (hchain : t.chain = s.chain)
    (hroot : t.vol.voldata.body.sroot = s.vol.voldata.body.sroot)
    (hmirror : s.vol.voldata.mirrorTid ≤ t.vol.voldata.mirrorTid)
    (hknown : ∀ b, s.Known b → t.Known b) :
    (∀ c, t.Known (t.chain c).bref) ∧
      ∀ p, ∀ e ∈ (t.table p).trees, t.Entry e ∧ e.label.mirrorTid ≤ t.tidAt p := by
  have hentry : ∀ {e}, s.Entry e → t.Entry e := fun he =>
    ⟨fun b hb => hknown b (he.known b hb), he.ordered⟩
  refine ⟨fun c => ?_, fun p e he => ?_⟩
  · rw [hchain]
    exact hknown _ (h.chain c)
  · cases p with
    | none =>
      rw [FsState.table, hroot] at he
      obtain ⟨hent, hle⟩ := h.entry none e he
      exact ⟨hentry hent, le_trans hle (Nat.succ_le_succ hmirror)⟩
    | some c =>
      rw [FsState.table, hchain] at he
      obtain ⟨hent, hle⟩ := h.entry (some c) e he
      rw [FsState.tidAt, hchain]
      exact ⟨hentry hent, hle⟩

variable {seg : Nat} {ch : TopoChain ι} {p : Option ι} {tab : BlockTable ι} {r : Ref}

/-- More marks in a segment. -/
theorem FsInv.mark (h : FsInv hmp s) {c : Bmap} (hseg : SegInv hmp seg c ∅ ∅)
    (hg : ∀ k < 256, (s.live seg).pair k = 3#2 → c.pair k = 3#2) :
    FsInv hmp (s.mark seg c) ∧ Later s (s.mark seg c) := by
  have hgrow : Grows s.live (s.mark seg c).live := Grows.update hg
  have hl : Later s (s.mark seg c) := ⟨rfl, rfl, rfl, hgrow⟩
  have hframe := h.frame (s.mark seg c) rfl rfl (le_refl _) fun _ hb => hb.later hl
  refine ⟨?_, hl⟩
  exact { h with
    chain := hframe.1
    entry := hframe.2
    sources := by
      intro r hr
      obtain ⟨hwf, hmk⟩ := h.sources r hr
      exact ⟨hwf, fun k hk => hgrow _ k (hwf.covered_lt hk) (hmk k hk)⟩
    grows := h.grows.trans hgrow
    clean := by
      intro g hgd
      rw [FsState.mark, List.mem_cons, not_or] at hgd
      have hne : g ≠ seg := by
        rintro rfl
        exact hgd.1 rfl
      rw [FsState.mark]
      simp only [Function.update_of_ne hne]
      exact h.clean g hgd.2
    segs := h.segs.update hseg }

variable [DecidableEq ι]

/-- A chain replaced by one with a known blockref and table. -/
theorem FsInv.setChain (h : FsInv hmp s) {c : ι} (hk : s.Known ch.bref)
    (ht : ∀ t ∈ ch.table.trees, s.Entry t ∧ t.label.mirrorTid ≤ ch.bref.mirrorTid) :
    FsInv hmp (s.setChain c ch) where
  tid := h.tid
  ftid := h.ftid
  vtid := h.vtid
  chain d := by
    by_cases hd : d = c
    · subst hd
      simp only [FsState.setChain, Function.update_self]
      exact ⟨hk.ref, hk.marked⟩
    · simp only [FsState.setChain, Function.update_of_ne hd]
      exact ⟨(h.chain d).ref, (h.chain d).marked⟩
  entry p t htp := by
    have hentry : ∀ {t}, s.Entry t → (s.setChain c ch).Entry t := fun he =>
      ⟨fun b hb => ⟨(he.known b hb).ref, (he.known b hb).marked⟩, he.ordered⟩
    cases p with
    | none => exact ⟨hentry (h.entry none t htp).1, (h.entry none t htp).2⟩
    | some d =>
      by_cases hd : d = c
      · subst hd
        simp only [FsState.setChain, FsState.table, Function.update_self] at htp
        obtain ⟨he, hle⟩ := ht t htp
        refine ⟨hentry he, ?_⟩
        simpa only [FsState.setChain, FsState.tidAt, Function.update_self] using hle
      · simp only [FsState.setChain, FsState.table, Function.update_of_ne hd] at htp
        obtain ⟨he, hle⟩ := h.entry (some d) t htp
        refine ⟨hentry he, ?_⟩
        simpa only [FsState.setChain, FsState.tidAt, Function.update_of_ne hd] using hle
  sources := h.sources
  grows := h.grows
  clean := h.clean
  segs := h.segs
  segs_media := h.segs_media
  sync := h.sync
  headers := h.headers

/-- A chain whose blockref and table stay. -/
theorem FsInv.setFlags (h : FsInv hmp s) {c : ι} (hb : ch.bref = (s.chain c).bref)
    (ht : ch.table = (s.chain c).table) :
    FsInv hmp (s.setChain c ch) := by
  refine h.setChain (hb ▸ h.chain c) fun t htt => ?_
  rw [ht] at htt
  rw [hb]
  exact h.entry (some c) t htt

/-- A block table replaced. -/
theorem FsInv.setTable (h : FsInv hmp s)
    (ht : ∀ t ∈ tab.trees, s.Entry t ∧ t.label.mirrorTid ≤ s.tidAt p) :
    FsInv hmp (s.setTable tab p) := by
  cases p with
  | some c => exact h.setChain (h.chain c) ht
  | none =>
    have hentry : ∀ {t}, s.Entry t → (s.setTable tab none).Entry t := fun he =>
      ⟨fun b hb => ⟨(he.known b hb).ref, (he.known b hb).marked⟩, he.ordered⟩
    exact { h with
      chain := fun d => ⟨(h.chain d).ref, (h.chain d).marked⟩
      entry := by
        intro p t htp
        cases p with
        | none => exact ⟨hentry (ht t htp).1, (ht t htp).2⟩
        | some d => exact ⟨hentry (h.entry (some d) t htp).1, (h.entry (some d) t htp).2⟩ }

/-! ## Modifications -/

/-- What a modification of `vchain` or of a chain leaves. -/
structure Modified (hmp : FreemapDev) (s : FsState ι) (p : Option ι) (t : FsState ι) : Prop where
  inv : FsInv hmp t
  later : Later s t
  table : ∀ q, t.table q = s.table q
  type : ∀ q, t.typeAt q = s.typeAt q
  tid : t.tidAt p = s.vol.voldata.mirrorTid + 1

variable {c : ι} {how : Storage}

theorem table_setChain (ht : ch.table = (s.chain c).table) (q : Option ι) :
    (s.setChain c ch).table q = s.table q := by
  cases q with
  | none => rfl
  | some d =>
    by_cases hd : d = c
    · subst hd
      simp only [FsState.setChain, FsState.table, Function.update_self, ht]
    · simp only [FsState.setChain, FsState.table, Function.update_of_ne hd]

theorem typeAt_setChain (hb : ch.bref.type = (s.chain c).bref.type) (q : Option ι) :
    (s.setChain c ch).typeAt q = s.typeAt q := by
  cases q with
  | none => rfl
  | some d =>
    by_cases hd : d = c
    · subst hd
      simp only [FsState.setChain, FsState.typeAt, Function.update_self, hb]
    · simp only [FsState.setChain, FsState.typeAt, Function.update_of_ne hd]

/-- The end of `hammer2_chain_modify`: the new storage is well formed and marked, and with the next
`mirror_tid` the blockref is newer than the freemap of the header. -/
theorem FsInv.setModified (h : FsInv hmp s) {storage : Option (Nat × Extent)} {m : Bool}
    (hwf : ∀ g e, storage = some (g, e) → (Ref.mk g e (s.chain c).bref.type).WellFormed)
    (hmk : ∀ g e, storage = some (g, e) → ∀ k, BlockCovered e.offset e.radix k →
      (s.live g).pair k = 3#2) :
    Modified hmp s (some c)
      (s.setChain c ((s.chain c).modify storage (s.vol.voldata.mirrorTid + 1) m)) where
  inv := by
    refine h.setChain ⟨⟨?_, (h.chain c).ref.type, le_refl _, Or.inl ?_⟩, hmk⟩ fun t ht => ?_
    · intro r hr
      obtain ⟨st, hst, rfl⟩ := Option.map_eq_some_iff.1 hr
      exact hwf st.1 st.2 hst
    · exact Nat.lt_succ_of_le h.tid
    · obtain ⟨he, hle⟩ := h.entry (some c) t ht
      exact ⟨he, he.label_le⟩
  later := ⟨rfl, rfl, rfl, Grows.refl _⟩
  table := table_setChain rfl
  type := typeAt_setChain rfl
  tid := by simp only [FsState.setChain, FsState.tidAt, Function.update_self]; rfl

omit [DecidableEq ι] in
/-- A modification after marks were added. -/
theorem Modified.of_mark {r : FsState ι} (h : Modified hmp r p t) (hl : Later s r)
    (htab : r.chain = s.chain) (hvol : r.vol = s.vol) : Modified hmp s p t where
  inv := h.inv
  later := hl.trans h.later
  table q := by
    rw [h.table q]
    cases q with
    | none => rw [FsState.table, FsState.table, hvol]
    | some d => rw [FsState.table, FsState.table, htab]
  type q := by
    rw [h.type q]
    cases q with
    | none => rfl
    | some d => rw [FsState.typeAt, FsState.typeAt, htab]
  tid := by rw [h.tid, hvol]

omit [DecidableEq ι] in
/-- Nothing but the dedup candidates changes. -/
theorem Modified.addSource (h : Modified hmp s p t) (hwf : r.WellFormed)
    (hmk : ∀ k, BlockCovered r.ext.offset r.ext.radix k → (t.live r.seg).pair k = 3#2) :
    Modified hmp s p { t with sources := r :: t.sources } where
  inv := { h.inv with
    chain := (h.inv.frame { t with sources := r :: t.sources } rfl rfl (le_refl _)
      fun _ hb => ⟨hb.ref, hb.marked⟩).1
    entry := (h.inv.frame { t with sources := r :: t.sources } rfl rfl (le_refl _)
      fun _ hb => ⟨hb.ref, hb.marked⟩).2
    sources := by
      intro q hq
      rcases List.mem_cons.1 hq with rfl | hq
      · exact ⟨hwf, hmk⟩
      · exact h.inv.sources q hq }
  later := ⟨h.later.mirror, h.later.freemapTid, h.later.freemap, h.later.live⟩
  table q := by
    rw [← h.table q]
    cases q with
    | none => rfl
    | some d => rfl
  type q := by
    rw [← h.type q]
    cases q with
    | none => rfl
    | some d => rfl
  tid := by
    rw [← h.tid]
    cases p with
    | none => rfl
    | some d => rfl

/-- An allocation for a chain. -/
theorem FsInv.modify_alloc (h : FsInv hmp s) {radix : Nat} {subKey : BitVec 32} {r : AllocResult}
    (hr : ValidRadix radix) (hal : SubKeyAligned (brefClass (s.chain c).bref.type) subKey radix)
    (hget : bmapAlloc (s.live seg) (brefClass (s.chain c).bref.type) subKey radix = some r) :
    let t := (s.mark seg r.bmap).setChain c
      ((s.chain c).modify (some (seg, ⟨r.offset, radix⟩)) (s.vol.voldata.mirrorTid + 1) true)
    Modified hmp s (some c) t ∧ (∀ type, (Ref.mk seg ⟨r.offset, radix⟩ type).WellFormed) ∧
      ∀ k, BlockCovered r.offset radix k → (t.live seg).pair k = 3#2 := by
  have hstep := bmapAlloc_step hr hal hget
  have hseg : SegInv hmp seg r.bmap ∅ ∅ :=
    ((h.segs seg).alloc hstep hr).mono (Set.empty_subset _) (Set.empty_subset _)
  have hgrow : ∀ k < 256, (s.live seg).pair k = 3#2 → r.bmap.pair k = 3#2 := by
    intro k hk h3
    rcases hstep.pair_cases hk with h | h
    · exact h
    · rw [h]; exact h3
  have hwf : ∀ type, (Ref.mk seg ⟨r.offset, radix⟩ type).WellFormed := fun _ =>
    ⟨hr, hstep.wellPlaced hr, hstep.offset_kb (h.segs seg).covers.linear_kb⟩
  have hmk : ∀ k, BlockCovered r.offset radix k → ((s.mark seg r.bmap).live seg).pair k = 3#2 := by
    rintro k ⟨x, h1, h2, rfl⟩
    simp only [FsState.mark, Function.update_self]
    exact hstep.pair_new hr (Set.mem_Ico.2 ⟨h1, h2⟩)
  obtain ⟨hinv, hl⟩ := h.mark hseg hgrow
  refine ⟨Modified.of_mark ?_ hl rfl rfl, hwf, hmk⟩
  refine hinv.setModified (fun g e hs => ?_) (fun g e hs => ?_)
  · obtain ⟨rfl, rfl⟩ := Prod.mk.inj (Option.some.inj hs)
    exact hwf _
  · obtain ⟨rfl, rfl⟩ := Prod.mk.inj (Option.some.inj hs)
    exact hmk

/-- A dedup hit for a chain. -/
theorem FsInv.modify_dedup (h : FsInv hmp s) (hr : r ∈ s.sources) :
    let b := adjustSegment hmp r true (s.live r.seg)
    let s' := if b = s.live r.seg then s else s.mark r.seg b
    Modified hmp s (some c) (s'.setChain c
      ((s.chain c).modify (some (r.seg, r.ext)) (s.vol.voldata.mirrorTid + 1) false)) := by
  intro b s'
  obtain ⟨hwf, hmk⟩ := h.sources r hr
  have hpieces : FsInv hmp s' ∧ Later s s' ∧ s'.chain = s.chain ∧ s'.vol = s.vol := by
    by_cases hb : b = s.live r.seg
    · have hs : s' = s := if_pos hb
      rw [hs]
      exact ⟨h, ⟨rfl, rfl, rfl, Grows.refl _⟩, rfl, rfl⟩
    · have hs : s' = s.mark r.seg b := if_neg hb
      rw [hs]
      obtain ⟨hinv, hl⟩ := h.mark (h.segs.adjustSegment hwf) fun k hk h3 => by
        rcases (remarked_adjustSegment hwf).pair k hk with h | h
        · exact h
        · rw [h]; exact h3
      exact ⟨hinv, hl, rfl, rfl⟩
  obtain ⟨hinv, hl, hchain, hvol⟩ := hpieces
  refine Modified.of_mark ?_ hl hchain hvol
  rw [← hvol, ← hchain]
  refine hinv.setModified (fun g e hs => ?_) (fun g e hs => ?_)
  · obtain ⟨rfl, rfl⟩ := Prod.mk.inj (Option.some.inj hs)
    exact ⟨hwf.radix, hwf.placed, hwf.kb⟩
  · obtain ⟨rfl, rfl⟩ := Prod.mk.inj (Option.some.inj hs)
    exact fun k hk => hl.live _ k (hwf.covered_lt hk) (hmk k hk)

/-- `hammer2_chain_modify` on a chain. -/
theorem FsInv.modify (h : FsInv hmp s) (hv : how.Valid (s.typeAt (some c)))
    (hn : s.modify hmp c how = some t) : Modified hmp s (some c) t := by
  cases how with
  | keep =>
    simp only [FsState.modify] at hn
    split at hn
    · obtain rfl := Option.some.inj hn
      refine h.setModified (fun g e hs => ?_) (h.chain c).marked
      exact (h.chain c).ref.wf _ (by rw [TopoRef.ref?, hs]; rfl)
    · cases hn
  | alloc seg subKey radix =>
    simp only [FsState.modify, Option.map_eq_some_iff] at hn
    obtain ⟨r, hget, rfl⟩ := hn
    obtain ⟨hmod, hwf, hmk⟩ := h.modify_alloc hv.1 hv.2 hget
    split
    · exact hmod.addSource (hwf _) hmk
    · exact hmod
  | dedup r =>
    simp only [FsState.modify] at hn
    split at hn
    · next hd =>
      obtain rfl := Option.some.inj hn
      exact h.modify_dedup hd.2
    · cases hn

omit [DecidableEq ι] in
/-- The header in memory changed in its flags and transaction ids only. -/
theorem FsInv.setVol (h : FsInv hmp s) {v : VolDev (VolBody ι)} (hdata : v.voldata = s.vol.voldata)
    (hf : v.fchainTid ≤ s.vol.voldata.mirrorTid + 1)
    (hvt : v.vchainTid ≤ s.vol.voldata.mirrorTid + 1)
    (hsync : v.volumesync = true → HeaderInv hmp v.volsync) :
    FsInv hmp { s with vol := v } where
  tid := by rw [hdata]; exact h.tid
  ftid := by rw [hdata]; exact hf
  vtid := by rw [hdata]; exact hvt
  chain := (h.frame { s with vol := v } rfl (by rw [hdata]) (by rw [hdata]) fun _ hb =>
    hb.later ⟨by rw [hdata], by rw [hdata], by rw [hdata], Grows.refl _⟩).1
  entry := (h.frame { s with vol := v } rfl (by rw [hdata]) (by rw [hdata]) fun _ hb =>
    hb.later ⟨by rw [hdata], by rw [hdata], by rw [hdata], Grows.refl _⟩).2
  sources := h.sources
  grows := by rw [hdata]; exact h.grows
  clean := by rw [hdata]; exact h.clean
  segs := h.segs
  segs_media := by rw [hdata]; exact h.segs_media
  sync := hsync
  headers := h.headers

/-- A modify of a chain, and what it leaves. -/
theorem FsInv.modifyAt (h : FsInv hmp s) (hv : how.Valid (s.typeAt p))
    (hn : s.modifyAt hmp how p = some t) : Modified hmp s p t := by
  cases p with
  | some c => exact h.modify hv hn
  | none =>
    obtain rfl := Option.some.inj hn
    exact {
      inv := h.setVol rfl h.ftid (le_refl _) h.sync
      later := ⟨rfl, rfl, rfl, Grows.refl _⟩
      table := fun q => by cases q <;> rfl
      type := fun q => by cases q <;> rfl
      tid := rfl }

/-! ## Block tables -/

omit [DecidableEq ι] in
/-- The entries of a smaller table are entries. -/
theorem FsInv.entry_of_subset (h : FsInv hmp s) (hsub : tab ⊆ s.table p) :
    ∀ e ∈ tab.trees, s.Entry e ∧ e.label.mirrorTid ≤ s.tidAt p := by
  intro e he
  obtain ⟨x, hx, rfl⟩ := List.mem_map.1 he
  exact h.entry p _ (List.mem_map_of_mem (hsub hx))

theorem mem_trees_insert {t : Rose TopoRef} (h : t ∈ (tab.insert c e).trees) :
    t = e ∨ t ∈ tab.trees := by
  rw [BlockTable.insert, BlockTable.trees, List.map_cons, List.mem_cons] at h
  rcases h with rfl | h
  · exact Or.inl rfl
  · obtain ⟨x, hx, rfl⟩ := List.mem_map.1 h
    exact Or.inr (List.mem_map_of_mem (List.mem_of_mem_filter hx))

/-- An entry goes into the table of what was just modified. -/
theorem Modified.insert (h : Modified hmp s p t) (he : t.Entry e) (c : ι) :
    FsInv hmp (t.setTable ((t.table p).insert c e) p) := by
  refine h.inv.setTable fun x hx => ?_
  rcases mem_trees_insert hx with rfl | hx
  · refine ⟨he, ?_⟩
    rw [h.tid, ← h.later.mirror]
    exact he.label_le
  · exact h.inv.entry p x hx

/-- A new table leaves what is known. -/
theorem later_setTable : Later s (s.setTable tab p) := by
  cases p with
  | none | some c => exact ⟨rfl, rfl, rfl, Grows.refl _⟩

theorem typeAt_setTable (q : Option ι) :
    (s.setTable tab p).typeAt q = s.typeAt q := by
  cases p with
  | none => cases q <;> rfl
  | some c => exact typeAt_setChain (by rfl) q

/-- A flush of one chain keeps the invariant. -/
theorem FsInv.flush (h : FsInv hmp s)
    (hv : ∀ p, (s.chain c).parent = some p → how.Valid (s.typeAt p))
    (hn : s.flush hmp c how = some t) : FsInv hmp t := by
  simp only [FsState.flush] at hn
  split at hn
  · next p hu hp =>
    obtain ⟨r, hr, rfl⟩ := Option.map_eq_some_iff.1 hn
    have hinv : FsInv hmp (s.setChain c { s.chain c with modified := false, update := false }) :=
      h.setFlags rfl rfl
    have hl : Later s (s.setChain c { s.chain c with modified := false, update := false }) :=
      ⟨rfl, rfl, rfl, Grows.refl _⟩
    have htype : (s.setChain c { s.chain c with modified := false, update := false }).typeAt p =
        s.typeAt p := typeAt_setChain (by rfl) p
    have hmod := hinv.modifyAt (by rw [htype]; exact hv p hp) hr
    split
    · exact hmod.inv
    · exact hmod.insert ((h.entry_tree c).later (hl.trans hmod.later)) c
  · cases hn

/-- Taking a chain out of its parent keeps it. -/
theorem FsInv.unmap (h : FsInv hmp s) (hv : how.Valid (s.typeAt p))
    (hn : s.unmap hmp c how p = some t) :
    FsInv hmp t ∧ Later s t ∧ ∀ q, t.typeAt q = s.typeAt q := by
  obtain ⟨r, hr, rfl⟩ := Option.map_eq_some_iff.1 hn
  have hmod := h.modifyAt hv hr
  have htab : FsInv hmp (r.setTable ((r.table p).delete c) p) :=
    hmod.inv.setTable (hmod.inv.entry_of_subset fun _ hx => List.mem_of_mem_filter hx)
  refine ⟨htab.setFlags rfl rfl, ?_, fun q => ?_⟩
  · exact hmod.later.trans (later_setTable.trans ⟨rfl, rfl, rfl, Grows.refl _⟩)
  · exact (typeAt_setChain (by rfl) q).trans ((typeAt_setTable q).trans (hmod.type q))

/-- Moving a chain keeps it. -/
theorem FsInv.move (h : FsInv hmp s) {q : Option ι} {how' : Storage} (hv : how.Valid (s.typeAt p))
    (hv' : how'.Valid (s.typeAt q)) (hn : s.move hmp c how how' p q = some t) : FsInv hmp t := by
  simp only [FsState.move] at hn
  split at hn
  · cases hn
  · next x hx =>
    obtain ⟨r, hr, hn⟩ := Option.bind_eq_some_iff.1 hn
    obtain ⟨u, hu, rfl⟩ := Option.map_eq_some_iff.1 hn
    obtain ⟨hinv, hl, htype⟩ := h.unmap hv hr
    have hmod := hinv.modifyAt ((htype q).symm ▸ hv') hu
    -- The moved blockref is the one found in the old table.
    have hent : s.Entry x.2 := (h.entry p _ (List.mem_map_of_mem (List.mem_of_find?_eq_some hx))).1
    exact (hmod.insert (hent.later (hl.trans hmod.later)) c).setFlags rfl rfl

/-! ## The freemap and the header -/

section
omit [DecidableEq ι]

/-- The flush of a leaf copies what is marked in memory. -/
theorem FsInv.flushLeaf (h : FsInv hmp s) (leaf : Nat) : FsInv hmp (s.flushLeaf leaf) := by
  have hgrow : Grows s.vol.voldata.body.freemap (s.flushLeaf leaf).vol.voldata.body.freemap := by
    intro g k hk h3
    simp only [FsState.flushLeaf]
    split
    · exact h.grows g k hk h3
    · exact h3
  have hknown : ∀ b, s.Known b → (s.flushLeaf leaf).Known b := fun b hb =>
    ⟨⟨hb.ref.wf, hb.ref.type, hb.ref.tid, hb.ref.covered.imp_right fun hm =>
      hm.mono hb.ref.wf hgrow⟩, hb.marked⟩
  exact { h with
    ftid := le_refl _
    chain := (h.frame (s.flushLeaf leaf) rfl rfl (le_refl _) hknown).1
    entry := (h.frame (s.flushLeaf leaf) rfl rfl (le_refl _) hknown).2
    grows := by
      intro g k hk h3
      simp only [FsState.flushLeaf] at h3
      split at h3
      · exact h3
      · exact h.grows g k hk h3
    clean := by
      intro g hg
      simp only [FsState.flushLeaf] at hg ⊢
      split
      · rfl
      · next hne =>
        exact h.clean g fun hd => hg (List.mem_filter.2 ⟨hd, decide_eq_true hne⟩)
    segs_media := by
      intro g
      simp only [FsState.flushLeaf]
      split
      · exact h.segs g
      · exact h.segs_media g }

/-- The flush of `fchain` after all leaves: what is in use is then marked in the header's
freemap. -/
theorem FsInv.flushFreemap (h : FsInv hmp s) (hok : s.dirty = []) :
    FsInv hmp { s with vol := s.vol.flushFreemap } := by
  have hmedia : s.vol.voldata.body.freemap = s.live := by
    funext g
    exact h.clean g (by rw [hok]; exact List.not_mem_nil)
  unfold VolDev.flushFreemap
  split
  · have hknown : ∀ {b : TopoRef}, s.Known b → RefInv (s.vol.voldata.mirrorTid + 1)
        s.vol.fchainTid s.vol.voldata.body.freemap b := fun hb =>
      ⟨hb.ref.wf, hb.ref.type, Nat.le_succ_of_le hb.ref.tid, Or.inr (hmedia ▸ hb.marked)⟩
    have hframe := h.frame { s with
      vol.fchainModified := false
      vol.voldata.freemapTid := s.vol.fchainTid
      vol.voldata.mirrorTid := s.vol.voldata.mirrorTid + 1 } rfl rfl (Nat.le_succ _)
      fun _ hb => ⟨hknown hb, hb.marked⟩
    exact { h with
      tid := h.ftid
      ftid := Nat.le_succ_of_le h.ftid
      vtid := Nat.le_succ_of_le h.vtid
      chain := hframe.1
      entry := hframe.2 }
  · exact h

/-- The flush of `vchain` makes a header of what the invariant says. -/
theorem FsInv.flushVolume (h : FsInv hmp s) : FsInv hmp { s with vol := s.vol.flushVolume } := by
  unfold VolDev.flushVolume
  split
  · have hknown : ∀ {b : TopoRef}, s.Known b →
        RefInv (max s.vol.voldata.mirrorTid s.vol.vchainTid) s.vol.voldata.freemapTid
          s.vol.voldata.body.freemap b := fun hb =>
      ⟨hb.ref.wf, hb.ref.type, le_trans hb.ref.tid (Nat.succ_le_succ (le_max_left _ _)),
        hb.ref.covered⟩
    have hframe := h.frame { s with
      vol.vchainModified := false
      vol.voldata.mirrorTid := max s.vol.voldata.mirrorTid s.vol.vchainTid
      vol.volsync := { s.vol.voldata with
        mirrorTid := max s.vol.voldata.mirrorTid s.vol.vchainTid }
      vol.volumesync := true } rfl rfl (le_max_left _ _) fun _ hb => ⟨hknown hb, hb.marked⟩
    exact { h with
      tid := le_trans h.tid (le_max_left _ _)
      ftid := le_trans h.ftid (Nat.succ_le_succ (le_max_left _ _))
      vtid := Nat.le_succ_of_le (le_max_right _ _)
      chain := hframe.1
      entry := hframe.2
      sync := fun _ => {
        tid := le_trans h.tid (le_max_left _ _)
        segs := h.segs_media
        ref := fun e he b hb => hknown ((h.entry none e he).1.known b hb)
        ordered := fun e he => (h.entry none e he).1.ordered } }
  · exact h

/-! ## Mounting -/

/-- A mount from a consistent header that meets the condition. -/
theorem Mounts.inv {hdr : VolumeData (VolBody ι)} (hm : Mounts hmp hdr s) (hi : HeaderInv hmp hdr)
    (hok : HeaderOk hdr) (hh : ∀ h ∈ s.headers, HeaderInv hmp h ∧ HeaderOk h) : FsInv hmp s := by
  obtain ⟨zone, hvol⟩ := hm.vol
  obtain ⟨fuel, adjusted, hrec, hlive⟩ := hm.recovered
  obtain ⟨adjusted', hall, hmarked⟩ := hi.recovers hok
  have hwf : ∀ b ∈ adjusted, b.WellFormed := fun b hb =>
    (hi.ref_reachAll (recovery_subset hrec hb)).wf
  obtain ⟨hgrow, hsegs⟩ := recoveredFreemap_grows hwf hi.segs
  -- More rounds than those that were enough give the same blockrefs.
  have hsame : adjusted' = adjusted := by
    have h1 := hall (max fuel (Rose.sizeAll hdr.body.sroot.trees)) (le_max_right _ _)
    have h2 := recovery_mono (le_max_left fuel (Rose.sizeAll hdr.body.sroot.trees)) hrec
    exact Option.some.inj (h1.symm.trans h2)
  subst hsame
  have hknown : ∀ b ∈ reachAll TopoRef.scans hdr.body.sroot.trees, s.Known b := by
    intro b hb
    obtain ⟨p, hp⟩ := path_of_mem_reachAll hb
    refine ⟨by rw [hvol]; exact hi.ref_reachAll hb, ?_⟩
    rw [hlive]
    exact (hmarked p b hp).2
  have hbelow : ∀ {t}, Below TopoRef.scans hdr.body.sroot.trees t → s.Entry t := fun hb =>
    ⟨fun b hbt => hknown b (hb.mem_reachAll hbt), hb.ordered hi.ordered⟩
  exact {
    tid := by rw [hvol]; exact hi.tid
    ftid := by rw [hvol]; exact Nat.le_succ_of_le hi.tid
    vtid := by rw [hvol]; exact Nat.le_succ _
    chain := by
      intro c
      rcases hm.chain c with hu | ⟨t, hb, hl⟩
      · have hmk : ∀ m, (s.chain c).bref.Marked m := fun m =>
          TopoRef.marked_of_storage_none hu.storage
        refine ⟨⟨fun r hr => ?_, hu.type, by rw [hu.tid]; exact Nat.zero_le _, Or.inr (hmk _)⟩,
          hmk _⟩
        rw [TopoRef.ref?, hu.storage] at hr
        cases hr
      · rw [hl.bref]
        exact (hbelow hb).known _ (label_mem_reach t)
    entry := by
      intro p e he
      cases p with
      | none =>
        rw [FsState.table, hvol] at he
        have hent := hbelow (.root he)
        exact ⟨hent, hent.label_le⟩
      | some c =>
        rcases hm.chain c with hu | ⟨t, hb, hl⟩
        · rw [FsState.table, hu.table] at he
          cases he
        · rw [FsState.table, hl.table] at he
          split at he
          · next hs =>
            refine ⟨hbelow (hb.child hs he), ?_⟩
            rw [FsState.tidAt, hl.bref]
            cases (hbelow hb).ordered with
            | node hle _ => exact hle e he
          · cases he
    sources := by
      rw [hm.sources]
      exact fun r hr => absurd hr List.not_mem_nil
    grows := by rw [hvol, hlive]; exact hgrow
    clean := by
      intro g hg
      rw [hvol]
      exact not_not.1 fun hne => hg (hm.dirty g fun heq => hne heq.symm)
    segs := by rw [hlive]; exact hsegs
    segs_media := by rw [hvol]; exact hi.segs
    sync := by
      rw [hvol]
      exact fun hf => absurd hf Bool.false_ne_true
    headers := hh }

end

/-! ## Runs -/

/-- **Every step keeps the invariant.** -/
theorem FsInv.step (h : FsInv hmp s) {a : FsAct ι} (hok : FsOk s a) (hst : fsStep hmp s a t) :
    FsInv hmp t := by
  obtain ⟨hv, hnext⟩ := hst
  cases a with
  | create c type direct p =>
    simp only [fsNext] at hnext
    split at hnext
    · next htype =>
      obtain rfl := Option.some.inj hnext
      have hmk : ∀ m, TopoRef.Marked m ⟨type, none, 0, direct⟩ := fun m =>
        TopoRef.marked_of_storage_none rfl
      refine h.setChain ⟨⟨fun r hr => ?_, htype, Nat.zero_le _, Or.inr (hmk _)⟩, hmk _⟩
        fun e he => ?_
      · cases hr
      · cases he
    · cases hnext
  | modify c how => exact (h.modify hv hnext).inv
  | setDirect c direct =>
    simp only [fsNext] at hnext
    split at hnext
    · obtain rfl := Option.some.inj hnext
      have hc := h.chain c
      refine h.setChain ⟨⟨fun r hr => hc.ref.wf r hr, hc.ref.type, hc.ref.tid, hc.ref.covered⟩,
        hc.marked⟩ fun e he => ?_
      cases he
    · cases hnext
  | attach c p | detach c | clean c =>
    obtain rfl := Option.some.inj hnext
    exact h.setFlags rfl rfl
  | unmap c p how => exact (h.unmap hv hnext).1
  | move c p q how how' => exact h.move hv.1 hv.2 hnext
  | copyTable src dst how =>
    obtain ⟨r, hr, rfl⟩ := Option.map_eq_some_iff.1 hnext
    have hmod := h.modify hv hr
    refine hmod.inv.setTable fun e he => ?_
    obtain ⟨hent, -⟩ := hmod.inv.entry (some src) e he
    refine ⟨hent, ?_⟩
    rw [hmod.tid, ← hmod.later.mirror]
    exact hent.label_le
  | flush c how => exact h.flush hv hnext
  | flushLeaf leaf =>
    obtain rfl := Option.some.inj hnext
    exact h.flushLeaf leaf
  | flushFreemap =>
    obtain rfl := Option.some.inj hnext
    exact h.flushFreemap hok
  | voldataModify =>
    obtain rfl := Option.some.inj hnext
    unfold VolDev.voldataModify
    split
    · exact h
    · exact h.setVol rfl h.ftid (le_refl _) h.sync
  | flushVolume =>
    obtain rfl := Option.some.inj hnext
    exact h.flushVolume
  | headerWrite =>
    simp only [fsNext] at hnext
    split at hnext
    · next hs =>
      obtain rfl := Option.some.inj hnext
      have hvol : FsInv hmp { s with vol.volumesync := false } :=
        h.setVol rfl h.ftid h.vtid fun hf => absurd hf Bool.false_ne_true
      have hframe := hvol.frame { s with
        vol.volumesync := false, headers := s.vol.volsync :: s.headers } rfl rfl (le_refl _)
        fun _ hb => ⟨hb.ref, hb.marked⟩
      refine ⟨hvol.tid, hvol.ftid, hvol.vtid, hframe.1, hframe.2, hvol.sources, hvol.grows,
        hvol.clean, hvol.segs, hvol.segs_media, hvol.sync, ?_⟩
      intro hdr hh
      rcases List.mem_cons.1 hh with rfl | hh
      · exact ⟨h.sync hs, hok⟩
      · exact h.headers hdr hh
    · cases hnext
  | mount hdr =>
    obtain ⟨hmem, hm, hheaders⟩ := hnext
    obtain ⟨hi, ho⟩ := h.headers hdr hmem
    exact hm.inv hi ho (hheaders ▸ h.headers)

omit [DecidableEq ι] in
/-- A new file system meets it. -/
theorem FsInit.inv (h : FsInit hmp s) : FsInv hmp s := by
  obtain ⟨hdr, hi, hok, hm, hheaders⟩ := h
  refine hm.inv hi hok fun h' hh => ?_
  rw [hheaders, List.mem_singleton] at hh
  subst hh
  exact ⟨hi, hok⟩

end

end Hammer2
