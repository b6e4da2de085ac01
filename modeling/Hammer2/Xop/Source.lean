import Hammer2.Xop.Merge

/-!
# The source of a synchronization

`hammer2_xop_scanall` feeds the chains of an element's inode and an end behind them. The scan may
end early: the inode's chain cannot be resolved, which feeds an end without an error; a lookup
fails; the link to a remote element is lost. A chain with a check error is fed with it.

`hammer2_xop_collect` returns what a quorum of the masters agrees on (`Yields`), skips the other
keys (`Skipped`), and stops at a key where a master is cut off or missing, or where a chain that
agrees has an error (`Halts`). What a call returns is determined by these (`Tracking.collect`).

Reference: `hammer2_xops.c:890-937`, `hammer2_admin.c:717-820`, `hammer2_cluster.c:260-375`.
-/

namespace Hammer2

/-! ## Scans -/

/-- How the scan of an element ends. -/
inductive ScanEnd
  /-- `hammer2_inode_chain` does not find the inode's chain. -/
  | unresolved
  /-- The lookup behind the first `n` chains finds no other one, with `error`. -/
  | after (n error : Nat)
  deriving DecidableEq

/-- The last key of a chain's range, in the arithmetic of `hammer2_chain_cmp`. -/
def keyEnd (key keybits : Nat) : Nat := (key + 2 ^ keybits - 1) % 2 ^ 64

theorem keyEnd_eq {key keybits : Nat} (h : key + 2 ^ keybits ≤ 2 ^ 64) :
    keyEnd key keybits = key + 2 ^ keybits - 1 := by
  have := Nat.two_pow_pos keybits
  exact Nat.mod_eq_of_lt (by omega)

theorem le_keyEnd {key keybits : Nat} (h : key + 2 ^ keybits ≤ 2 ^ 64) :
    key ≤ keyEnd key keybits := by
  have := Nat.two_pow_pos keybits
  rw [keyEnd_eq h]
  omega

/-- An element of the source, with the chains its inode has in the range of the scan. -/
structure Source where
  kind : ElementKind
  tree : List FedChain
  scan : ScanEnd
  ascending : tree.Pairwise (·.key < ·.key)
  spans : ∀ c ∈ tree, c.key + 2 ^ c.keybits ≤ 2 ^ 64
  errors : ∀ c ∈ tree, c.error = 0 ∨ c.error = errorEio ∨ c.error = errorCheck
  /-- A lookup finds every chain unless it fails. -/
  complete : ∀ n error, scan = .after n error → error = 0 ∨ error = errorEnoent → tree.length ≤ n

/-- The chains that are fed. -/
def Source.fed (t : Source) : List FedChain :=
  match t.scan with
  | .unresolved => []
  | .after n _ => t.tree.take n

/-- The error of the end. -/
def Source.last (t : Source) : Nat :=
  match t.scan with
  | .unresolved => 0
  | .after _ error => error

/-- The entries of the FIFO when the chains `cs` and the end have not been taken. -/
def Source.entries (t : Source) (cs : List FedChain) : List Feed :=
  cs.map (fun c => feed (some c) 0) ++ [feed none t.last]

/-- `hammer2_xop_scanall`. -/
def Source.scanall (t : Source) : List Feed := t.entries t.fed

/-- A scan that went through the inode's chains and ended without an error. -/
def Source.whole (t : Source) : Bool :=
  match t.scan with
  | .unresolved => false
  | .after _ error => error = 0 ∨ error = errorEnoent

/-- A scan that the loss of the link has cut off. -/
def Source.lost (t : Source) : Bool :=
  match t.scan with
  | .unresolved => false
  | .after _ error => disconnected error

/-- A cluster operation whose elements have fed their scans. -/
def Collector.startScan (nmasters : Nat) (sources : List Source) : Collector where
  nmasters := nmasters
  elements := sources.map fun t => (⟨⟨none, 0, Feed.fed_none⟩, t.kind, false, false, false⟩,
    t.scanall)
  collectKey := 0
  focus := none
  focusIndex := 0
  dropped := []

section
variable {t : Source} {key : Nat} {it : CItem} {fs : List Feed} {c d : FedChain}

/-- A source feeds only what it has. -/
theorem Source.fed_sublist (t : Source) : t.fed.Sublist t.tree := by
  unfold Source.fed
  split
  · exact List.nil_sublist _
  · exact List.take_sublist _ _

/-- A whole source feeds all. -/
theorem Source.fed_of_whole (h : t.whole = true) : t.fed = t.tree := by
  unfold Source.whole at h
  unfold Source.fed
  split at h
  · cases h
  · next n error heq =>
    exact List.take_of_length_le (t.complete n error heq (of_decide_eq_true h))

/-- A chain before one that is fed is fed. -/
theorem Source.mem_fed_of_lt (hd : d ∈ t.tree) (hc : c ∈ t.fed) (hlt : d.key < c.key) :
    d ∈ t.fed := by
  unfold Source.fed at hc ⊢
  cases hs : t.scan with
  | unresolved => simp [hs] at hc
  | after n error =>
    simp only [hs] at hc ⊢
    have hsplit := List.take_append_drop n t.tree
    rw [← hsplit, List.mem_append] at hd
    refine hd.resolve_right fun hd => ?_
    have hasc := t.ascending
    rw [← hsplit, List.pairwise_append] at hasc
    exact absurd (hasc.2.2 c hc d hd) (Nat.lt_asymm hlt)

/-- A lost source ends as disconnected. -/
theorem Source.last_lost (h : t.lost = true) : disconnected t.last = true := by
  unfold Source.lost at h
  unfold Source.last
  split at h
  · cases h
  · next heq => simpa [heq] using h

/-! ## Where the elements stand -/

/-- An element with the chains `pre` behind it. -/
inductive Source.Place (t : Source) : List FedChain → CItem → List Feed → Prop
  | before {pre post : List FedChain} {it : CItem} : t.fed = pre ++ post → it.chain = none →
      it.null = false → Place t pre it (t.entries post)
  | standing {pre post : List FedChain} {c : FedChain} {it : CItem} : t.fed = pre ++ c :: post →
      it.chain = some c → it.error = c.error → it.null = false → Place t pre it (t.entries post)
  | ended {it : CItem} : it.chain = none → it.null = true → it.error = t.last → Place t t.fed it []

/-- An element has not gone past the first chain of its scan at or past `key`. -/
def Source.Tracks (key : Nat) (t : Source) (it : CItem) (fs : List Feed) : Prop :=
  it.kind = t.kind ∧ ∃ pre, t.Place pre it fs ∧ ∀ d ∈ pre, d.key < key

/-- An element stands at the first chain of its scan at or past `key`, or has ended. -/
def Source.Stands (key : Nat) (t : Source) (it : CItem) (fs : List Feed) : Prop :=
  t.Tracks key it fs ∧ (it.keeps key = true ∨ it.null = true)

/-- Taking an entry, when the element does not stand at a chain past `key`. -/
theorem Source.Tracks.take {f : Feed} (h : t.Tracks key it (f :: fs))
    (hkeeps : it.keeps key = false) :
    t.Tracks key (it.take f) fs := by
  obtain ⟨hkind, pre, hplace, hpre⟩ := h
  -- Of the chains not taken, `post`, the next entry is the first one or the end.
  have hnext : ∀ pre' post : List FedChain, t.fed = pre' ++ post → (∀ d ∈ pre', d.key < key) →
      it.null = false → t.entries post = f :: fs → t.Tracks key (it.take f) fs := by
    intro pre' post hsplit hpre' hnull heq
    cases post with
    | nil =>
      obtain ⟨rfl, rfl⟩ := List.cons.inj heq
      rw [List.append_nil] at hsplit
      refine ⟨hkind, t.fed, .ended rfl ?_ (feed_none_error _), hsplit ▸ hpre'⟩
      simp [CItem.take, feed]
    | cons c post =>
      obtain ⟨rfl, rfl⟩ := List.cons.inj heq
      refine ⟨hkind, pre', .standing hsplit rfl ?_ ?_, hpre'⟩
      · simp [CItem.take, feed]
      · simp [CItem.take, feed, hnull]
  generalize hfs : f :: fs = gs at hplace
  cases hplace with
  | before hsplit _ hnull => exact hnext pre _ hsplit hpre hnull hfs.symm
  | @standing _ post c _ hsplit hc _ hnull =>
    refine hnext (pre ++ [c]) post (by simp [hsplit]) ?_ hnull hfs.symm
    intro d hd
    rcases List.mem_append.1 hd with hd | hd
    · exact hpre d hd
    · rw [List.mem_singleton.1 hd]
      simpa [CItem.keeps, hc] using hkeeps
  | ended => cases hfs

/-- **Advancing an element** takes it to the first chain of its scan at or past `key`. -/
theorem Source.Tracks.advance (h : t.Tracks key it fs) :
    t.Stands key (advance key it fs).1 (advance key it fs).2.1 := by
  rcases advance_rule (fun ht hk => Source.Tracks.take ht hk) h with hs | ⟨e, ht, -, hit, hfs⟩
  · exact ⟨hs.1, .inl hs.2⟩
  · rw [hit, hfs]
    obtain ⟨hkind, pre, hplace, hpre⟩ := ht
    generalize hgs : ([] : List Feed) = gs at hplace
    cases hplace with
    | before => simp [Source.entries] at hgs
    | standing => simp [Source.entries] at hgs
    | ended _ hnull herr => exact ⟨⟨hkind, _, .ended rfl hnull herr, hpre⟩, .inr hnull⟩

/-- What is left past a key is left past a later one. -/
theorem Source.Tracks.mono {key' : Nat} (h : t.Tracks key it fs) (hle : key ≤ key') :
    t.Tracks key' it fs :=
  ⟨h.1, h.2.imp fun _ hp => ⟨hp.1, fun d hd => (hp.2 d hd).trans_le hle⟩⟩

/-- The chain that an element stands at. -/
theorem Source.Stands.mem (h : t.Stands key it fs) (hc : it.chain = some c) :
    c ∈ t.fed ∧ key ≤ c.key ∧ it.error = c.error ∧ it.null = false := by
  obtain ⟨⟨-, pre, hplace, -⟩, hkeeps⟩ := h
  cases hplace with
  | before _ hn => cases hn.symm.trans hc
  | standing hsplit hc' herr hnull =>
    obtain rfl := Option.some.inj (hc'.symm.trans hc)
    have hkey := hkeeps.resolve_right (by simp [hnull])
    exact ⟨by simp [hsplit], by simpa [CItem.keeps, hc] using hkey, herr, hnull⟩
  | ended hn => cases hn.symm.trans hc

/-- An element without a chain has ended, and its scan has no chain at or past `key`. -/
theorem Source.Stands.ended (h : t.Stands key it fs) (hc : it.chain = none) :
    it.null = true ∧ it.error = t.last ∧ ∀ d ∈ t.fed, d.key < key := by
  obtain ⟨⟨-, pre, hplace, hpre⟩, hkeeps⟩ := h
  cases hplace with
  | before _ _ hnull => simp [CItem.keeps, hc, hnull] at hkeeps
  | standing _ hc' => cases hc'.symm.trans hc
  | ended _ hnull herr => exact ⟨hnull, herr, hpre⟩

/-- An element stands at no chain past one of its scan at or past `key`. -/
theorem Source.Stands.least (h : t.Stands key it fs) (hd : d ∈ t.fed) (hkey : key ≤ d.key) :
    it.chain = some d ∨ ∃ c, it.chain = some c ∧ c.key < d.key := by
  obtain ⟨⟨-, pre, hplace, hpre⟩, hkeeps⟩ := h
  cases hplace with
  | before _ hc hnull => simp [CItem.keeps, hc, hnull] at hkeeps
  | standing hsplit hc =>
    have hasc := t.ascending.sublist t.fed_sublist
    rw [hsplit, List.pairwise_append, List.pairwise_cons] at hasc
    rw [hsplit, List.mem_append, List.mem_cons] at hd
    rcases hd with hd | rfl | hd
    · exact absurd (hpre d hd) (Nat.not_lt.2 hkey)
    · exact .inl hc
    · exact .inr ⟨_, hc, hasc.2.1.1 d hd⟩
  | ended => exact absurd (hpre d hd) (Nat.not_lt.2 hkey)

end

/-! ## The number of turns -/

section
variable {s : Collector} {items : List CItem} {key nmasters : Nat}

/-- The chains that the elements stand at, and those left in their FIFOs. -/
def Collector.chains (s : Collector) : List FedChain :=
  s.elements.flatMap fun e => e.1.chain.toList ++ e.2.filterMap (·.chain)

/-- The chains at or past `collect_key`. -/
def Collector.left (s : Collector) : Nat := s.chains.countP (s.collectKey ≤ ·.key)

/-- `hammer2_xop_collect`, with a turn for each chain and one for the end, which are enough
(`Collector.collect_isSome`). -/
def Collector.collectNext (s : Collector) : Nat × Collector :=
  match s.collect (s.left + 1) with
  | some r => (r.1, r.2.1)
  | none => (errorEinprogress, s)

theorem Collector.chains_after (s : Collector) :
    s.after.chains = s.moved.flatMap fun m => m.1.chain.toList ++ m.2.1.filterMap (·.chain) := by
  have hzip := s.moved_after
  rw [chains]
  generalize s.after.elements = es at hzip ⊢
  generalize s.moved = ms at hzip ⊢
  induction hzip with
  | nil => rfl
  | cons hm _ ih => rw [List.flatMap_cons, List.flatMap_cons, ih, hm.1, hm.2]

/-- A turn takes chains away. -/
theorem Collector.chains_after_sublist (s : Collector) : s.after.chains.Sublist s.chains := by
  rw [chains_after, chains, moved, List.flatMap_map]
  generalize s.elements = es
  induction es with
  | nil => exact .slnil
  | cons e es ih =>
    rw [List.flatMap_cons, List.flatMap_cons, ← advance_refs s.collectKey e.1 e.2]
    exact List.Sublist.append (List.sublist_append_right _ _) ih

/-- An advanced element stands at no chain before the key. -/
theorem advance_chain_le (key : Nat) (it : CItem) (fs : List Feed) (c : FedChain) :
    (advance key it fs).1.chain = some c → key ≤ c.key := by
  induction fs generalizing it with
  | nil =>
    unfold advance
    split
    · next hk =>
      intro hc
      rw [CItem.keeps, hc] at hk
      simpa using hk
    · rintro ⟨⟩
  | cons f fs ih =>
    unfold advance
    split
    · next hk =>
      intro hc
      rw [CItem.keeps, hc] at hk
      simpa using hk
    · exact ih _

/-- No chain in sight lies before the key collected. -/
theorem Collector.le_chain : ∀ it ∈ s.items, ∀ c, it.chain = some c → s.collectKey ≤ c.key := by
  intro it hit c hc
  obtain ⟨m, hm, rfl⟩ := List.mem_map.1 hit
  obtain ⟨e, -, rfl⟩ := List.mem_map.1 hm
  exact advance_chain_le _ _ _ _ hc

/-- When a turn goes on to the next key. -/
theorem Collector.turn_eq_none (h : s.turn = none) :
    (s.check.result = errorEsrch ∨ s.check.result = errorEdeadlk) ∧ lowestKey s.items ≠ keyMax := by
  unfold turn at h
  split at h
  · next hr =>
    split at h
    · next hlo => exact ⟨hr, hlo⟩
    · cases h
  · cases h

/-- A turn that goes round again leaves a chain behind. -/
theorem Collector.left_after (h : s.turn = none) : s.after.left < s.left := by
  have hlo := (turn_eq_none h).2
  obtain ⟨it, hit, c, hc, hkey⟩ := (lowestKey_mem s.items).resolve_left hlo
  have hle := le_chain it hit c hc
  have hmem : c ∈ s.after.chains := by
    obtain ⟨m, hm, rfl⟩ := List.mem_map.1 hit
    rw [chains_after]
    exact List.mem_flatMap.2 ⟨m, hm, by simp [hc]⟩
  have hck : s.after.collectKey = lowestKey s.items + 1 := if_neg hlo
  calc s.after.left
      = (s.after.chains.filter (s.collectKey ≤ ·.key)).countP (s.after.collectKey ≤ ·.key) := by
        rw [left, List.countP_filter]
        refine List.countP_congr fun d _ => ?_
        simp only [decide_eq_true_eq, Bool.and_eq_true]
        omega
    _ < (s.after.chains.filter (s.collectKey ≤ ·.key)).length := by
        refine List.countP_lt_length_iff.2 ⟨c, by simpa using ⟨hmem, hle⟩, ?_⟩
        exact decide_eq_false (by omega)
    _ ≤ s.left := by
        rw [left, ← List.countP_eq_length_filter]
        exact s.chains_after_sublist.countP_le

/-- **A call of `hammer2_xop_collect` returns**, after a turn for each chain and one for the end at
most. -/
theorem Collector.collect_isSome {n : Nat} (h : s.left < n) : (s.collect n).isSome = true := by
  induction n generalizing s with
  | zero => omega
  | succ n ih =>
    rw [collect]
    cases ht : s.turn with
    | some error => rfl
    | none =>
      have := left_after ht
      rw [Option.isSome_map]
      exact ih (by omega)

theorem lowestKey_le_keyMax (items : List CItem) : lowestKey items ≤ keyMax := by
  induction items using List.reverseRecOn with
  | nil => exact le_refl _
  | append_singleton items x ih =>
    rw [lowestKey_append]
    split
    · split <;> omega
    · exact ih

end

/-! ## What the scans come to -/

/-- The element at the first chain of its scan at or past `key`, or at the end of the scan. -/
def Source.standing (key : Nat) (t : Source) : CItem where
  chain := t.fed.find? (key ≤ ·.key)
  error := (t.fed.find? (key ≤ ·.key)).elim t.last (·.error)
  fed := fun _ hc he => by simpa [hc] using he
  kind := t.kind
  femod := false
  invalid := true
  null := (t.fed.find? (key ≤ ·.key)).isNone

/-- Where the elements stand at `key`. -/
def standings (sources : List Source) (key : Nat) : List CItem := sources.map (·.standing key)

/-- An element has fed a chain with the key. -/
def Scanned (sources : List Source) (key : Nat) : Prop := ∃ t ∈ sources, ∃ c ∈ t.fed, c.key = key

/-- A quorum of masters has fed the key under one transaction id, and no element that has fed it
under the highest such id has an error. -/
def Yields (nmasters : Nat) (sources : List Source) (key : Nat) : Prop :=
  Scanned sources key ∧ ∃ tid, BestTid nmasters (standings sources key) key tid ∧
    AgreeFree (standings sources key) key tid

/-- No id has a quorum for the key, no master is missing, and none has been cut off before the
key. -/
def Skipped (nmasters : Nat) (sources : List Source) (key : Nat) : Prop :=
  (∀ tid < tidMax, votes (standings sources key) key tid < quorum nmasters) ∧
    (standings sources key).countP (·.cutOff) = 0 ∧ nmasters ≤ sources.countP (·.kind.votes)

/-- A key at which the scan stops with an error. -/
def Halts (nmasters : Nat) (sources : List Source) (key : Nat) : Prop :=
  Scanned sources key ∧ ¬ Yields nmasters sources key ∧ ¬ Skipped nmasters sources key

/-- Behind all keys, a quorum of masters has ended within reach, and the first error of these is
taken for the end of the scan. -/
def EndsClean (nmasters : Nat) (sources : List Source) : Prop :=
  quorum nmasters ≤ (standings sources keyMax).countP (·.ended) ∧
    endError (standings sources keyMax) ∈ [0, errorEnoent, errorEsrch, errorEdeadlk]

/-- A key that is not returned, though a key behind it is, or the end of the scan. -/
def Passes (nmasters : Nat) (sources : List Source) (key : Nat) : Prop :=
  ¬ Yields nmasters sources key ∧
    ((∃ f, key < f ∧ Yields nmasters sources f ∧ ∀ j ≤ f, ¬ Halts nmasters sources j) ∨
      (∀ j, ¬ Halts nmasters sources j) ∧ EndsClean nmasters sources)

/-- A cluster has a master, and no chain has the highest key, which stands for the end of a scan. -/
structure ProperScan (nmasters : Nat) (sources : List Source) : Prop where
  pos : 0 < nmasters
  keys : ∀ t ∈ sources, ∀ c ∈ t.tree, c.key < keyMax

/-- The collector has not gone past the chains of the scans at or past `collect_key`. -/
structure Tracking (nmasters : Nat) (sources : List Source) (s : Collector) : Prop where
  nmasters_eq : s.nmasters = nmasters
  bounded : s.collectKey ≤ keyMax
  tracks : List.Forall₂ (fun t e => t.Tracks s.collectKey e.1 e.2) sources s.elements

/-- The scan starts with its sources. -/
theorem tracking_startScan (nmasters : Nat) (sources : List Source) :
    Tracking nmasters sources (.startScan nmasters sources) := by
  refine ⟨rfl, Nat.zero_le _, ?_⟩
  rw [Collector.startScan, List.forall₂_map_right_iff]
  exact List.forall₂_same.2 fun t _ => ⟨rfl, [], .before rfl rfl rfl, nofun⟩

section
variable {nmasters key : Nat} {sources : List Source} {s : Collector} {items : List CItem}

/-- The result of the check for a key: that without a quorum, or the error of an element with a
chain. -/
theorem clusterCheck_result (nmasters focusIndex : Nat) (items : List CItem) (key : Nat) :
    (∃ v, Voted nmasters items key v ∧ v.nmasters < quorum nmasters ∧
      (clusterCheck nmasters focusIndex items key false).result =
        noQuorum nmasters (items.countP (·.kind.votes)) v) ∨
    (clusterCheck nmasters focusIndex items key false).result = errorEio ∨
    (clusterCheck nmasters focusIndex items key false).result = 0 ∨
    ∃ it ∈ items, it.chain ≠ none ∧
      it.error = (clusterCheck nmasters focusIndex items key false).result := by
  have hv := secondPass_key nmasters focusIndex items key
  unfold clusterCheck
  generalize secondPass nmasters focusIndex items key false = v at hv ⊢
  dsimp only
  by_cases hq : v.nmasters < quorum nmasters
  · rw [if_pos hq, census_ttlmasters]
    exact .inl ⟨v, hv, hq, rfl⟩
  · right
    rw [if_neg hq, if_neg (by simp)]
    cases hf : v.focus with
    | none => exact .inl rfl
    | some focus =>
      right
      dsimp only [validatePass]
      rcases firstError_mem 0 (items.filter (·.agrees key v.quorumTid)) with h | ⟨it, hit, h⟩
      · exact .inl h
      · obtain ⟨hit, hagrees⟩ := List.mem_filter.1 hit
        exact .inr ⟨it, hit, fun hn => by simp [CItem.agrees, hn] at hagrees, h⟩

/-- A key that the check has skipped: no id has a quorum, and no master is cut off or missing. -/
theorem clusterCheck_skipped (focusIndex : Nat)
    (hr : (clusterCheck nmasters focusIndex items key false).result = errorEsrch ∨
      (clusterCheck nmasters focusIndex items key false).result = errorEdeadlk)
    (hfree : ∀ it ∈ items, it.chain ≠ none → it.error ≠ errorEsrch ∧ it.error ≠ errorEdeadlk) :
    (∀ t < tidMax, votes items key t < quorum nmasters) ∧ items.countP (·.cutOff) = 0 ∧
      nmasters ≤ items.countP (·.kind.votes) := by
  rcases clusterCheck_result nmasters focusIndex items key with ⟨v, hv, hq, h⟩ | h | h |
    ⟨it, hit, hc, h⟩
  · refine ⟨hv.none hq, ?_⟩
    rw [h, noQuorum] at hr
    rw [← hv.xmasters]
    split_ifs at hr with h₁ h₂ h₃
    · exact absurd hr (by decide)
    · exact absurd hr (by decide)
    all_goals exact ⟨by omega, by omega⟩
  · rw [h] at hr
    exact absurd hr (by decide)
  · rw [h] at hr
    exact absurd hr (by decide)
  · rw [← h] at hr
    exact absurd hr (not_or.2 (hfree it hit hc))

/-- After a move every element stands at its source's next chain. -/
theorem Tracking.stands (h : Tracking nmasters sources s) :
    List.Forall₂ (fun t m => t.Stands s.collectKey m.1 m.2.1) sources s.moved := by
  rw [Collector.moved, List.forall₂_map_right_iff]
  exact h.tracks.imp fun _ _ ht => ht.advance

/-- The source of an item. -/
theorem Tracking.source (h : Tracking nmasters sources s) {it : CItem} (hit : it ∈ s.items) :
    ∃ t ∈ sources, ∃ fs, t.Stands s.collectKey it fs := by
  obtain ⟨m, hm, rfl⟩ := List.mem_map.1 hit
  obtain ⟨t, ht, hst⟩ := exists_of_forall₂ (List.Forall₂.flip h.stands) m hm
  exact ⟨t, ht, m.2.1, hst⟩

/-- The lowest key is not behind. -/
theorem Tracking.le_lowestKey (h : Tracking nmasters sources s) :
    s.collectKey ≤ lowestKey s.items := by
  rcases lowestKey_mem s.items with hmax | ⟨it, hit, c, hc, hkey⟩
  · exact hmax ▸ h.bounded
  · exact hkey ▸ Collector.le_chain it hit c hc

/-- A turn does not go back. -/
theorem Tracking.after_le (h : Tracking nmasters sources s) :
    s.collectKey ≤ s.after.collectKey := by
  have hle := h.le_lowestKey
  have hbounded := h.bounded
  unfold Collector.after
  dsimp only
  split <;> omega

/-- A turn keeps the collector in step with the scans. -/
theorem Tracking.after (h : Tracking nmasters sources s) : Tracking nmasters sources s.after := by
  have hkey : s.after.collectKey ≤ keyMax := by
    have hmax := lowestKey_le_keyMax s.items
    unfold Collector.after
    dsimp only
    split <;> omega
  refine ⟨h.nmasters_eq, hkey, Collector.forall₂_after h.stands fun t m it hst hcore => ?_⟩
  obtain ⟨hfeed, hkind, hnull⟩ : it.toFeed = m.1.toFeed ∧ it.kind = m.1.kind ∧
      it.null = m.1.null := by simpa [CItem.core] using hcore
  refine Source.Tracks.mono ⟨hkind.trans hst.1.1, ?_⟩ h.after_le
  obtain ⟨pre, hplace, hpre⟩ := hst.1.2
  refine ⟨pre, ?_, hpre⟩
  generalize m.2.1 = fs at hplace
  cases hplace with
  | before hsplit hc hn => exact .before hsplit (hfeed ▸ hc) (hnull.trans hn)
  | standing hsplit hc he hn =>
    exact .standing hsplit (hfeed ▸ hc) (hfeed ▸ he) (hnull.trans hn)
  | ended hc hn he => exact .ended (hfeed ▸ hc) (hnull.trans hn) (hfeed ▸ he)

/-- An element of the source has the error of its chain. -/
theorem Tracking.chain_error (h : Tracking nmasters sources s) {it : CItem} (hit : it ∈ s.items)
    (hc : it.chain ≠ none) : it.error = 0 ∨ it.error = errorEio ∨ it.error = errorCheck := by
  obtain ⟨t, -, fs, hst⟩ := h.source hit
  obtain ⟨c, hc⟩ := Option.ne_none_iff_exists'.1 hc
  rw [(hst.mem hc).2.2.1]
  exact t.errors c (t.fed_sublist.subset (hst.mem hc).1)

/-- An element stands where its scan says. -/
theorem Source.Stands.reset_eq {t : Source} {it : CItem} {fs : List Feed}
    (h : t.Stands key it fs) : it.reset = t.standing key := by
  have hkind := h.1.1
  cases hc : it.chain with
  | some c =>
    obtain ⟨-, hkey, herr, hnull⟩ := h.mem hc
    have hfind : t.fed.find? (key ≤ ·.key) = some c := by
      obtain ⟨⟨-, pre, hplace, hpre⟩, -⟩ := h
      cases hplace with
      | before _ hn => cases hn.symm.trans hc
      | standing hsplit hc' =>
        obtain rfl := Option.some.inj (hc'.symm.trans hc)
        have hnone : pre.find? (key ≤ ·.key) = none :=
          List.find?_eq_none.2 fun d hd => by simpa using hpre d hd
        rw [hsplit, List.find?_append, hnone]
        simp [hkey]
      | ended hn => cases hn.symm.trans hc
    obtain ⟨⟨_, _, _⟩, _, _, _, _⟩ := it
    simp_all [CItem.reset, Source.standing]
  | none =>
    obtain ⟨hnull, herr, hlt⟩ := h.ended hc
    have hfind : t.fed.find? (key ≤ ·.key) = none :=
      List.find?_eq_none.2 fun d hd => by simpa using hlt d hd
    have hstanding : t.standing key =
        ⟨⟨none, t.last, by rintro _ ⟨⟩⟩, t.kind, true, false, true⟩ := by
      simp only [Source.standing, hfind]
      rfl
    rw [hstanding]
    obtain ⟨⟨_, _, _⟩, _, _, _, _⟩ := it
    simp_all [CItem.reset]

/-- Without a chain between two keys, the element stands at both alike. -/
theorem Source.standing_eq {t : Source} {key' : Nat} (hle : key ≤ key')
    (h : ∀ c ∈ t.fed, key ≤ c.key → key' ≤ c.key) : t.standing key = t.standing key' := by
  have hfind : t.fed.find? (key ≤ ·.key) = t.fed.find? (key' ≤ ·.key) := by
    refine List.find?_congr fun c hc => ?_
    exact decide_eq_decide.2 ⟨h c hc, hle.trans⟩
  simp only [Source.standing, hfind]

/-- No chain lies between `collect_key` and the lowest key. -/
theorem Tracking.lowestKey_le_fed (h : Tracking nmasters sources s) {t : Source}
    (ht : t ∈ sources) {c : FedChain} (hc : c ∈ t.fed) (hkey : s.collectKey ≤ c.key) :
    lowestKey s.items ≤ c.key := by
  obtain ⟨m, hm, hst⟩ := exists_of_forall₂ h.stands t ht
  have hit : m.1 ∈ s.items := List.mem_map_of_mem hm
  rcases hst.least hc hkey with hd | ⟨d, hd, hlt⟩
  · exact lowestKey_le m.1 hit c hd
  · exact (lowestKey_le m.1 hit d hd).trans hlt.le

/-- The items of the collector are the elements where they stand at the lowest key. -/
theorem Tracking.items_reset (h : Tracking nmasters sources s) :
    s.items.map CItem.reset = standings sources (lowestKey s.items) := by
  obtain ⟨hlen, hget⟩ := List.forall₂_iff_get.1 h.stands
  refine List.ext_getElem (by simp [Collector.items, standings, hlen]) fun i h₁ h₂ => ?_
  have hi : i < sources.length := by simpa [standings] using h₂
  have hi' : i < s.moved.length := hlen ▸ hi
  have hst : (s.moved[i]).1.reset = (sources[i]).standing s.collectKey := (hget i hi hi').reset_eq
  have hat : (sources[i]).standing s.collectKey = (sources[i]).standing (lowestKey s.items) :=
    Source.standing_eq h.le_lowestKey fun c hc => h.lowestKey_le_fed (List.getElem_mem hi) hc
  simpa [Collector.items, standings] using hst.trans hat

section
variable (items : List CItem)

theorem votes_reset (key tid : Nat) : votes (items.map CItem.reset) key
    tid = votes items key tid := by
  rw [votes, List.countP_map]
  rfl

theorem bestTid_reset (nmasters key tid : Nat) :
    BestTid nmasters (items.map CItem.reset) key tid ↔ BestTid nmasters items key tid := by
  simp only [BestTid, votes_reset]

theorem agreeFree_reset (key tid : Nat) :
    AgreeFree (items.map CItem.reset) key tid ↔ AgreeFree items key tid := by
  simp only [AgreeFree, List.forall_mem_map]
  rfl

theorem countP_reset (p : CItem → Bool) (hp : ∀ it : CItem, p it.reset = p it) :
    (items.map CItem.reset).countP p = items.countP p := by
  rw [List.countP_map]
  exact List.countP_congr fun it _ => by simp [hp]

theorem endError_reset : endError (items.map CItem.reset) = endError items := by
  have hcensus : census 0 (items.map CItem.reset) = census 0 items := by
    rw [census, List.zipIdx_map, List.foldl_map]
    rfl
  rw [endError, hcensus, List.filter_map, firstError, List.foldl_map]
  rfl

end

/-- Whether an element stands at a chain or has ended, none is to feed anything more. -/
theorem Tracking.pending (h : Tracking nmasters sources s) : s.items.countP (·.pending) = 0 := by
  refine List.countP_eq_zero.2 fun it hit => ?_
  obtain ⟨t, -, fs, hst⟩ := h.source hit
  cases hc : it.chain with
  | some c => simp [CItem.pending, hc]
  | none => simp [CItem.pending, (hst.ended hc).1]

/-- The lowest key of elements that stand at chains has been scanned. -/
theorem Tracking.lowestKey_scanned (h : Tracking nmasters sources s)
    (hp : ProperScan nmasters sources) (hnull : s.items.all (·.chain.isNone) = false) :
    Scanned sources (lowestKey s.items) ∧ lowestKey s.items < keyMax := by
  obtain ⟨it, hit, hc⟩ := List.all_eq_false.1 hnull
  obtain ⟨c, hc⟩ := Option.isSome_iff_exists.1 (by simpa [Option.isSome_iff_ne_none] using hc)
  obtain ⟨t, ht, fs, hst⟩ := h.source hit
  have hlt : lowestKey s.items < keyMax :=
    (lowestKey_le it hit c hc).trans_lt (hp.keys t ht c (t.fed_sublist.subset (hst.mem hc).1))
  obtain ⟨it', hit', d, hd, hkey⟩ := (lowestKey_mem s.items).resolve_left hlt.ne
  obtain ⟨t', ht', fs', hst'⟩ := h.source hit'
  exact ⟨⟨t', ht', d, (hst'.mem hd).1, hkey⟩, hlt⟩

/-- **A turn at a key** returns it, skips it or stops. -/
theorem Tracking.turn_at (h : Tracking nmasters sources s) (hp : ProperScan nmasters sources)
    (hnull : s.items.all (·.chain.isNone) = false) :
    (s.turn = some 0 ↔ Yields nmasters sources (lowestKey s.items)) ∧
      (s.turn = none ↔ Skipped nmasters sources (lowestKey s.items)) ∧
      s.turn ≠ some errorEnoent := by
  obtain ⟨hscanned, hmax⟩ := h.lowestKey_scanned hp hnull
  have hcheck : s.check = clusterCheck nmasters s.focusIndex s.items (lowestKey s.items) false := by
    rw [Collector.check, hnull, h.nmasters_eq]
  have hzero : s.check.result = 0 ↔ Yields nmasters sources (lowestKey s.items) := by
    rw [hcheck, clusterCheck_eq_zero_iff nmasters s.focusIndex (.inl hmax.ne), Yields,
      ← h.items_reset]
    simp only [bestTid_reset, agreeFree_reset]
    exact (and_iff_right hscanned).symm
  have hskip : s.check.result = errorEsrch ∨ s.check.result = errorEdeadlk ↔
      Skipped nmasters sources (lowestKey s.items) := by
    have hvotes : s.items.countP (·.kind.votes) = sources.countP (·.kind.votes) := by
      rw [← countP_reset s.items _ fun _ => rfl, h.items_reset, standings, List.countP_map]
      rfl
    rw [hcheck, Skipped, ← h.items_reset, ← hvotes, countP_reset _ _ fun _ => rfl]
    simp only [votes_reset]
    constructor
    · intro hr
      refine clusterCheck_skipped s.focusIndex hr fun it hit hc => ?_
      rcases h.chain_error hit hc with he | he | he <;> rw [he] <;> decide
    · rintro ⟨hnone, hcut, hall⟩
      exact clusterCheck_skips s.focusIndex hnone h.pending hcut hall
  have hturn : s.turn = if s.check.result = errorEsrch ∨ s.check.result = errorEdeadlk then none
      else some s.check.result := by
    rw [Collector.turn, if_pos hmax.ne]
  refine ⟨?_, ?_, ?_⟩
  · rw [← hzero, hturn]
    constructor
    · split
      · exact fun h => absurd h.symm (Option.some_ne_none _)
      · exact Option.some.inj
    · intro hr
      rw [hr, if_neg (by decide)]
  · rw [← hskip, hturn]
    constructor
    · split
      · next hr => exact fun _ => hr
      · exact fun h => absurd h (Option.some_ne_none _)
    · exact fun hr => if_pos hr
  · rw [hturn]
    split
    · exact fun h => Option.some_ne_none _ h.symm
    · -- The check returns `ENOENT` for no key: neither without a quorum nor from a chain's error.
      intro hend
      have hend := Option.some.inj hend
      rw [hcheck] at hend
      rcases clusterCheck_result nmasters s.focusIndex s.items (lowestKey s.items) with
        ⟨v, -, -, he⟩ | he | he | ⟨it, hit, hc, he⟩
      · exact (noQuorum_ne _ _).2 (he.symm.trans hend)
      · exact absurd (he.symm.trans hend) (by decide)
      · exact absurd (he.symm.trans hend) (by decide)
      · rcases h.chain_error hit hc with h' | h' | h' <;>
          exact absurd (h'.symm.trans (he.trans hend)) (by decide)

/-- Behind all keys, the check asks for a quorum of elements that have ended. -/
theorem Tracking.check_atEnd (h : Tracking nmasters sources s) (hp : ProperScan nmasters sources)
    (hnull : s.items.all (·.chain.isNone) = true) :
    s.check.result = if s.items.countP (·.ended) < quorum nmasters then errorEnotconn
      else if endError s.items = 0 then errorEnoent else endError s.items := by
  have hnone : ∀ it ∈ s.items, it.chain = none := by simpa using hnull
  obtain ⟨focus, i, hv⟩ := secondPass_null nmasters s.focusIndex s.items (lowestKey s.items)
  have hcheck : s.check.result = if s.items.countP (·.ended) < quorum nmasters then
      noQuorum nmasters (s.items.countP (·.kind.votes))
        (secondPass nmasters s.focusIndex s.items (lowestKey s.items) true)
      else if endError s.items = 0 then errorEnoent else endError s.items := by
    rw [Collector.check, hnull, h.nmasters_eq, clusterCheck, hv]
    dsimp only
    rw [census_ttlmasters, if_pos rfl]
    split_ifs <;> rfl
  have hstop : s.items.countP (·.ended) < quorum nmasters →
      noQuorum nmasters (s.items.countP (·.kind.votes))
        (secondPass nmasters s.focusIndex s.items (lowestKey s.items) true) = errorEnotconn := by
    intro hlt
    have hsum : s.items.countP (·.kind.votes) =
        s.items.countP (·.ended) + s.items.countP (·.cutOff) := by
      rw [List.countP_eq_countP_filter_add s.items _ (fun it => disconnected it.error),
        List.countP_filter, List.countP_filter, Nat.add_comm]
      refine congrArg₂ _ (List.countP_congr fun it hit => ?_) (List.countP_congr fun it hit => ?_)
      all_goals
        obtain ⟨t, -, fs, hst⟩ := h.source hit
        simp [CItem.ended, CItem.cutOff, hnone it hit, (hst.ended (hnone it hit)).1]
    have hpos := hp.pos
    have hquorum : quorum nmasters = nmasters / 2 + 1 := rfl
    rw [hv, noQuorum]
    dsimp only
    rw [h.pending, if_neg (by omega), if_pos (by omega)]
  rw [hcheck]
  split
  · next hlt => exact hstop hlt
  · rfl

/-- **A turn behind all keys** returns the end of the scan, or an error. -/
theorem Tracking.turn_atEnd (h : Tracking nmasters sources s) (hp : ProperScan nmasters sources)
    (hnull : s.items.all (·.chain.isNone) = true) :
    (s.turn = some errorEnoent ↔ EndsClean nmasters sources) ∧ s.turn ≠ none ∧
      s.turn ≠ some 0 := by
  have hnone : ∀ it ∈ s.items, it.chain = none := by simpa using hnull
  have hlo : lowestKey s.items = keyMax := by
    rcases lowestKey_mem s.items with hlo | ⟨it, hit, c, hc, -⟩
    · exact hlo
    · cases (hnone it hit).symm.trans hc
  have hitems := h.items_reset
  rw [hlo] at hitems
  have hended : (standings sources keyMax).countP (·.ended) = s.items.countP (·.ended) := by
    rw [← hitems, countP_reset _ _ fun _ => rfl]
  rw [EndsClean, hended, ← hitems, endError_reset, Collector.turn, h.check_atEnd hp hnull, hlo]
  by_cases hlt : s.items.countP (·.ended) < quorum nmasters
  · rw [if_pos hlt, if_neg (by decide)]
    refine ⟨iff_of_false (by decide) fun hq => ?_, Option.some_ne_none _, by decide⟩
    omega
  · rw [if_neg hlt]
    simp only [ne_eq, not_true_eq_false, if_false, Nat.le_of_not_lt hlt, true_and,
      List.mem_cons, List.not_mem_nil, or_false]
    by_cases h0 : endError s.items = 0
    · rw [if_pos h0, if_neg (by decide)]
      exact ⟨iff_of_true rfl (.inl h0), Option.some_ne_none _, by decide⟩
    · rw [if_neg h0]
      by_cases hr : endError s.items = errorEsrch ∨ endError s.items = errorEdeadlk
      · rw [if_pos hr]
        exact ⟨iff_of_true rfl (.inr (.inr hr)), Option.some_ne_none _, by decide⟩
      · rw [if_neg hr]
        refine ⟨⟨fun he => .inr (.inl (Option.some.inj he)), fun he => ?_⟩, Option.some_ne_none _,
          fun he => h0 (Option.some.inj he)⟩
        rw [(he.resolve_left h0).resolve_right hr]

/-- The focus of a turn that returns a chain, and the next `collect_key`. -/
theorem Tracking.turn_focus (h : Tracking nmasters sources s) (hp : ProperScan nmasters sources)
    (hnull : s.items.all (·.chain.isNone) = false) (ht : s.turn = some 0) :
    ∃ c, s.after.focus = some c ∧ c.key = lowestKey s.items ∧ c.key + 2 ^ c.keybits ≤ 2 ^ 64 := by
  obtain ⟨-, hmax⟩ := h.lowestKey_scanned hp hnull
  obtain ⟨-, tid, hbest, hfree⟩ := (h.turn_at hp hnull).1.1 ht
  rw [← h.items_reset, bestTid_reset] at hbest
  rw [← h.items_reset, agreeFree_reset] at hfree
  have hexact : KeyExact s.items (lowestKey s.items) := .inl hmax.ne
  obtain ⟨it, hit, hholds, hfocus, -⟩ := clusterCheck_focus s.focusIndex hexact hbest hfree
  have hagrees := hexact.agrees hit hholds
  obtain ⟨-, c, hc, -, -⟩ := CItem.holds_iff.1 hholds
  obtain ⟨t, -, fs, hst⟩ := h.source hit
  refine ⟨c, ?_, ?_, t.spans c (t.fed_sublist.subset (hst.mem hc).1)⟩
  · rw [Collector.after, Collector.check, hnull, h.nmasters_eq]
    exact hfocus.symm.trans hc
  · simp only [CItem.agrees, hc, Option.any_some, decide_eq_true_eq] at hagrees
    exact hagrees.1

/-! ## What a call returns -/

/-- A key that is returned does not halt the scan. -/
theorem Yields.not_halts (h : Yields nmasters sources key) : ¬ Halts nmasters sources key :=
  fun hh => hh.2.1 h

/-- Nothing happens at a key that no element has fed. -/
theorem not_yields_or_halts (h : ¬ Scanned sources key) :
    ¬ Yields nmasters sources key ∧ ¬ Halts nmasters sources key :=
  ⟨fun hr => h hr.1, fun hh => h hh.1⟩

/-- A key that is skipped is neither returned nor one to stop at. -/
theorem Skipped.not_yields_or_halts (h : Skipped nmasters sources key) :
    ¬ Yields nmasters sources key ∧ ¬ Halts nmasters sources key := by
  refine ⟨?_, fun hh => hh.2.2 h⟩
  rintro ⟨-, tid, hbest, -⟩
  exact absurd (h.1 tid hbest.1) (Nat.not_lt.2 hbest.2.1)

/-- What a call has returned, as to the keys from `key` on. -/
structure Gathered (nmasters : Nat) (sources : List Source) (key error : Nat) (s : Collector) :
    Prop where
  tracking : Tracking nmasters sources s
  found : error = 0 → ∃ c, s.focus = some c ∧ c.key + 2 ^ c.keybits ≤ 2 ^ 64 ∧
    s.collectKey = c.key + 1 ∧ key ≤ c.key ∧ Yields nmasters sources c.key ∧
    ∀ j, key ≤ j → j < c.key → ¬ Yields nmasters sources j ∧ ¬ Halts nmasters sources j
  ended : error = errorEnoent → EndsClean nmasters sources ∧
    ∀ j, key ≤ j → ¬ Yields nmasters sources j ∧ ¬ Halts nmasters sources j
  stopped : error ≠ 0 → error ≠ errorEnoent →
    (∃ j, key ≤ j ∧ Halts nmasters sources j ∧
      ∀ i, key ≤ i → i < j → ¬ Yields nmasters sources i) ∨
    ¬ EndsClean nmasters sources ∧ ∀ j, key ≤ j → ¬ Yields nmasters sources j

/-- Nothing happens between `collect_key` and the lowest key. -/
theorem Tracking.quiet (h : Tracking nmasters sources s) (hle : s.collectKey ≤ key)
    (hlt : key < lowestKey s.items) :
    ¬ Yields nmasters sources key ∧ ¬ Halts nmasters sources key := by
  refine not_yields_or_halts fun hs => ?_
  obtain ⟨t, ht, c, hc, rfl⟩ := hs
  exact absurd (h.lowestKey_le_fed ht hc hle) (Nat.not_le.2 hlt)

/-- Nothing happens behind all keys. -/
theorem Tracking.quiet_atEnd (h : Tracking nmasters sources s) (hle : s.collectKey ≤ key)
    (hnull : s.items.all (·.chain.isNone) = true) :
    ¬ Yields nmasters sources key ∧ ¬ Halts nmasters sources key := by
  refine not_yields_or_halts fun hs => ?_
  obtain ⟨t, ht, c, hc, rfl⟩ := hs
  obtain ⟨m, hm, hst⟩ := exists_of_forall₂ h.stands t ht
  have hnone : m.1.chain = none := by
    simpa using List.all_eq_true.1 hnull m.1 (List.mem_map_of_mem hm)
  exact absurd ((hst.ended hnone).2.2 c hc) (Nat.not_lt.2 hle)

/-- What the last turn of a call has returned. -/
theorem Tracking.gathered (h : Tracking nmasters sources s) (hp : ProperScan nmasters sources)
    {error : Nat} (ht : s.turn = some error) :
    Gathered nmasters sources s.collectKey error s.after := by
  cases hnull : s.items.all (·.chain.isNone) with
  | true =>
    obtain ⟨hend, -, hzero⟩ := h.turn_atEnd hp hnull
    have hquiet (j : Nat) (hj : s.collectKey ≤ j) := h.quiet_atEnd hj hnull
    refine ⟨h.after, ?_, ?_, ?_⟩
    · rintro rfl
      exact absurd ht hzero
    · rintro rfl
      exact ⟨hend.1 ht, hquiet⟩
    · intro _ hne
      exact .inr ⟨fun hc => hne (Option.some.inj (ht.symm.trans (hend.2 hc))),
        fun j hj => (hquiet j hj).1⟩
  | false =>
    obtain ⟨hzero, hskip, hend⟩ := h.turn_at hp hnull
    obtain ⟨hscanned, hmax⟩ := h.lowestKey_scanned hp hnull
    refine ⟨h.after, ?_, ?_, ?_⟩
    · rintro rfl
      obtain ⟨c, hfocus, hkey, hspan⟩ := h.turn_focus hp hnull ht
      refine ⟨c, hfocus, hspan, ?_, hkey ▸ h.le_lowestKey, hkey ▸ hzero.1 ht, fun j hj hlt => ?_⟩
      · rw [hkey]
        exact if_neg hmax.ne
      · exact h.quiet hj (hkey ▸ hlt)
    · rintro rfl
      exact absurd ht hend
    · intro hne _
      refine .inl ⟨lowestKey s.items, h.le_lowestKey, ⟨hscanned, fun hr => ?_, fun hs => ?_⟩,
        fun i hi hlt => (h.quiet hi hlt).1⟩
      · exact hne (Option.some.inj (ht.symm.trans (hzero.2 hr)))
      · cases ht.symm.trans (hskip.2 hs)

/-- A turn that goes round again has met nothing. -/
theorem Tracking.quiet_turn (h : Tracking nmasters sources s) (hp : ProperScan nmasters sources)
    (ht : s.turn = none) (hle : s.collectKey ≤ key) (hlt : key < s.after.collectKey) :
    ¬ Yields nmasters sources key ∧ ¬ Halts nmasters sources key := by
  have hnull : s.items.all (·.chain.isNone) = false := by
    by_contra hn
    exact (h.turn_atEnd hp (Bool.of_not_eq_false hn)).2.1 ht
  obtain ⟨-, hmax⟩ := h.lowestKey_scanned hp hnull
  have hafter : s.after.collectKey = lowestKey s.items + 1 := if_neg hmax.ne
  rcases Nat.lt_or_eq_of_le (Nat.lt_succ_iff.1 (hafter ▸ hlt)) with hlt | rfl
  · exact h.quiet hle hlt
  · exact ((h.turn_at hp hnull).2.1.1 ht).not_yields_or_halts

/-- **A call of `hammer2_xop_collect`** returns the first key that is to be returned, unless it
stops before. -/
theorem Tracking.collect (hp : ProperScan nmasters sources) {n error m : Nat} {s' : Collector}
    (h : Tracking nmasters sources s) (hc : s.collect n = some (error, s', m)) :
    Gathered nmasters sources s.collectKey error s' := by
  induction n generalizing s m with
  | zero => cases hc
  | succ n ih =>
    rw [Collector.collect] at hc
    cases ht : s.turn with
    | some e =>
      simp only [ht, Option.some.injEq, Prod.mk.injEq] at hc
      obtain ⟨rfl, rfl, -⟩ := hc
      exact h.gathered hp ht
    | none =>
      simp only [ht, Option.map_eq_some_iff, Prod.mk.injEq] at hc
      obtain ⟨r, hr, rfl, rfl, -⟩ := hc
      have hg := ih h.after hr
      have hle : s.collectKey ≤ s.after.collectKey := h.after_le
      -- The keys that the turn has passed are quiet; those behind are the next turn's.
      have hquiet (j : Nat) (hj : s.collectKey ≤ j) (hlt : j < s.after.collectKey) :=
        h.quiet_turn hp ht hj hlt
      refine ⟨hg.tracking, fun he => ?_, fun he => ?_, fun h₀ h₁ => ?_⟩
      · obtain ⟨c, hfocus, hspan, hnext, hkey, hret, hbetween⟩ := hg.found he
        refine ⟨c, hfocus, hspan, hnext, hle.trans hkey, hret, fun j hj hlt => ?_⟩
        exact (Nat.lt_or_ge j s.after.collectKey).elim (hquiet j hj) fun h => hbetween j h hlt
      · obtain ⟨hclean, hbehind⟩ := hg.ended he
        refine ⟨hclean, fun j hj => ?_⟩
        exact (Nat.lt_or_ge j s.after.collectKey).elim (hquiet j hj) (hbehind j)
      · refine (hg.stopped h₀ h₁).imp ?_ ?_
        · rintro ⟨j, hj, hhalts, hbetween⟩
          refine ⟨j, hle.trans hj, hhalts, fun i hi hlt => ?_⟩
          exact (Nat.lt_or_ge i s.after.collectKey).elim (fun h => (hquiet i hi h).1)
            fun h => hbetween i h hlt
        · rintro ⟨hclean, hbehind⟩
          refine ⟨hclean, fun j hj => ?_⟩
          exact (Nat.lt_or_ge j s.after.collectKey).elim (fun h => (hquiet j hj h).1) (hbehind j)

/-- **What one call gathers.** -/
theorem Tracking.collectNext (hp : ProperScan nmasters sources) (h : Tracking nmasters sources s) :
    Gathered nmasters sources s.collectKey s.collectNext.1 s.collectNext.2 := by
  unfold Collector.collectNext
  have hsome := Collector.collect_isSome (Nat.lt_succ_self s.left)
  cases hc : s.collect (s.left + 1) with
  | none => simp [hc] at hsome
  | some r => exact h.collect hp hc

end

end Hammer2
