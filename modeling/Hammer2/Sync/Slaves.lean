import Hammer2.Xop.Source

/-!
# Comparing a slave with its source

`hammer2_sync_slaves` goes through the chains of an inode on the slave and through the scan that
`hammer2_xop_collect` returns of the masters, both in ascending order. A slave's chain that lies
before the master's, or behind the end of the scan, is one the source lacks, and is destroyed unless
it is newer; a chain at the master's place is replaced or left; a master's chain before the slave's
is inserted.

Every key that the scan yields before the focus lies before the slave's cursor as well
(`Level.behind`), so that only keys are destroyed that the scan passes (`Passes`), and each such key
is destroyed on some slave. All that is destroyed is therefore absent from a quorum of masters
exactly if the keys that the scan passes are (`syncSlaves_warranted_iff`). That is so for masters
that agree and fail by the loss of their links only (`SourcesSound.lacked`). A scan that ends early
without an error, or with an error that the quorum does not look at, or masters that hold a key
under different ids, turn into keys the source seems to lack (`syncSlaves_unwarranted`).

Reference: `hammer2_synchro.c:2104-2656`, `hammer2_synchro.c:3148-3238`, `hammer2_chain.c:59-77`.
-/

namespace Hammer2

/-- What is read of a chain of the slave. -/
structure SlaveChain where
  key : Nat
  keybits : Nat
  modifyTid : Nat
  deriving DecidableEq

/-- What a call of `hammer2_sync_slaves` compares: the chains that the inode has, from the call's
first key on, at the elements of the source and on the slave. -/
structure SyncPass where
  nmasters : Nat
  sources : List Source
  slave : List SlaveChain
  /-- The last key of the call. -/
  last : Nat
  /-- The inode's transaction id on the masters. -/
  syncTid : Nat
  /-- On a snapshot pass the cut of the snapshot before this one. -/
  snapCut : Option Nat
  disjoint : slave.Pairwise fun c d => keyEnd c.key c.keybits < d.key
  spans : ∀ c ∈ slave, c.key + 2 ^ c.keybits ≤ 2 ^ 64

/-- The slave's chain is newer than the source. -/
def SyncPass.newer (p : SyncPass) (c : SlaveChain) : Bool :=
  match p.snapCut with
  | some cut => cut ≤ c.modifyTid
  | none => p.syncTid < c.modifyTid

/-- `hammer2_chain_cmp`. -/
def chainCmp (c : SlaveChain) (f : FedChain) : Ordering :=
  if keyEnd c.key c.keybits < f.key then .lt
  else if keyEnd f.key f.keybits < c.key then .gt
  else .eq

/-! ## The loop -/

/-- What a turn of the loop does. -/
inductive SyncArm
  | keepAbsent | destroy | keepNewer | replace | leave | insert
  deriving DecidableEq

/-- The arm for a chain that the source lacks. -/
def SyncPass.absent (p : SyncPass) (c : SlaveChain) : SyncArm :=
  if p.newer c then .keepAbsent else .destroy

/-- The arm for a chain at the place of the master's. -/
def SyncPass.present (p : SyncPass) (c : SlaveChain) (f : FedChain) : SyncArm :=
  if p.snapCut.isSome = true ∧ f.modifyTid < c.modifyTid then .keepNewer
  else if c.modifyTid ≠ f.modifyTid then .replace
  else .leave

/-- The comparison, when the loop goes on. There is no arm without a focus. -/
def SyncPass.compare (p : SyncPass) (merror : Nat) (chain : Option SlaveChain)
    (focus : Option FedChain) : Option SyncArm :=
  match chain with
  | some c =>
    if merror = errorEnoent then some (p.absent c)
    else focus.map fun f => match chainCmp c f with
      | .lt => p.absent c
      | .eq => p.present c f
      | .gt => .insert
  | none => focus.map fun _ => .insert

/-- What a turn meets on the slave. -/
structure SlaveTurn where
  /-- The error of the arm. -/
  nerror : Nat
  /-- The slave's lookup passes over the keys up to this one: it fails, or an insert that fails has
  left the cursor without a chain. -/
  past : Nat
  /-- The deferral list is full, or the scan's parent has been deleted. -/
  stop : Bool

/-- The variables of the loop, and the chains that `hammer2_sync_destroy` has been called for. -/
structure SyncScan where
  collector : Collector
  merror : Nat
  chain : Option SlaveChain
  destroyed : List SlaveChain
  /-- The loop has been left. -/
  left : Bool

/-- The state in front of the loop; `found` says that the slave's first lookup has not failed. -/
def SyncPass.start (p : SyncPass) (found : Bool) : SyncScan :=
  let r := (Collector.startScan p.nmasters p.sources).collectNext
  ⟨r.2, r.1, if found then p.slave.head? else none, [], false⟩

/-- The slave's next chain past `key`. -/
def SyncPass.next (p : SyncPass) (e : SlaveTurn) (key : Nat) : Option SlaveChain :=
  p.slave.find? fun d => max key e.past < d.key

/-- A turn that has taken an arm. -/
def SyncScan.act (p : SyncPass) (e : SlaveTurn) (s : SyncScan) (chain : Option SlaveChain) :
    SyncArm → SyncScan
  | .keepAbsent => { s with chain := chain.bind fun c => p.next e c.key }
  | .destroy =>
    { s with chain := chain.bind fun c => p.next e c.key, destroyed := chain.toList ++ s.destroyed }
  | .insert =>
    let r := s.collector.collectNext
    { s with
      collector := r.2
      merror := r.1
      chain := s.collector.focus.bind fun f => p.next e f.key }
  | _ =>
    let r := s.collector.collectNext
    { s with collector := r.2, merror := r.1, chain := chain.bind fun c => p.next e c.key }

/-- A turn of the loop. -/
def SyncScan.turn (p : SyncPass) (s : SyncScan) (e : SlaveTurn) : SyncScan :=
  let chain := s.chain.filter (·.key ≤ p.last)
  if s.left = true ∨ chain = none ∧ s.merror = errorEnoent ∨
      s.merror ≠ 0 ∧ s.merror ≠ errorEnoent then { s with left := true }
  else
    match p.compare s.merror chain s.collector.focus with
    | none => { s with left := true }
    | some arm => { s.act p e chain arm with left := e.stop = true ∨ e.nerror = errorEagain }

/-- The loop of `hammer2_sync_slaves`. -/
def SyncPass.scan (p : SyncPass) (found : Bool) (es : List SlaveTurn) : SyncScan :=
  es.foldl (SyncScan.turn p) (p.start found)

/-! ## What is destroyed -/

/-- A quorum of masters has scanned the inode without an error and without the key. -/
def Lacked (nmasters : Nat) (sources : List Source) (key : Nat) : Prop :=
  quorum nmasters ≤
    sources.countP fun t => t.kind.votes && t.whole && t.tree.all fun c => c.key ≠ key

instance (nmasters : Nat) (sources : List Source) (key : Nat) :
    Decidable (Lacked nmasters sources key) :=
  inferInstanceAs (Decidable (_ ≤ _))

/-- A quorum of masters lacks the chain's key, and the chain is not newer than the source. -/
structure Warranted (p : SyncPass) (d : SlaveChain) : Prop where
  absent : Lacked p.nmasters p.sources d.key
  older : p.newer d = false

section
variable {p : SyncPass} {s : SyncScan} {e : SlaveTurn} {key : Nat} {c d : SlaveChain} {f : FedChain}

/-- The keys that the scan yields before the focus lie before the cursor, and what is destroyed are
keys that the scan passes. -/
structure Level (p : SyncPass) (s : SyncScan) : Prop where
  tracking : Tracking p.nmasters p.sources s.collector
  cursor : ∀ c, s.chain = some c → c ∈ p.slave
  focus : s.merror = 0 → ∃ f, s.collector.focus = some f ∧
    s.collector.collectKey = f.key + 1 ∧ Yields p.nmasters p.sources f.key ∧
    (∀ j ≤ f.key, ¬ Halts p.nmasters p.sources j) ∧
    ∀ c, s.chain = some c → ∀ k, Yields p.nmasters p.sources k → k < f.key → k < c.key
  behind : s.merror = errorEnoent → ((∀ j, ¬ Halts p.nmasters p.sources j) ∧
    EndsClean p.nmasters p.sources) ∧
    ∀ c, s.chain = some c → ∀ k, Yields p.nmasters p.sources k → k < c.key
  destroyed : ∀ d ∈ s.destroyed, d ∈ p.slave ∧ Passes p.nmasters p.sources d.key ∧
    p.newer d = false

/-- The next chain of the slave lies behind the key. -/
theorem SyncPass.next_spec (h : p.next e key = some d) : d ∈ p.slave ∧ key < d.key := by
  have hlt := List.find?_some h
  simp only [decide_eq_true_eq] at hlt
  exact ⟨List.mem_of_find?_eq_some h, (Nat.le_max_left _ _).trans_lt hlt⟩

/-- The cursor goes on past a chain that the source lacks. -/
theorem Level.pass {destroyed : List SlaveChain} (h : Level p s) (hc : s.chain = some c)
    (hd : ∀ d ∈ destroyed, d ∈ p.slave ∧ Passes p.nmasters p.sources d.key ∧
      p.newer d = false) :
    Level p { s with chain := p.next e c.key, destroyed := destroyed } := by
  refine ⟨h.tracking, fun d hd => (SyncPass.next_spec hd).1, fun he => ?_, fun he => ?_, hd⟩
  · obtain ⟨f, hf, hkey, hyields, hgo, hlt⟩ := h.focus he
    refine ⟨f, hf, hkey, hyields, hgo, fun d hd k hk hkf => ?_⟩
    exact (hlt c hc k hk hkf).trans (SyncPass.next_spec hd).2
  · obtain ⟨hend, hlt⟩ := h.behind he
    exact ⟨hend, fun d hd k hk => (hlt c hc k hk).trans (SyncPass.next_spec hd).2⟩

/-- Both sides go on past the focus. -/
theorem Level.advance (hp : ProperScan p.nmasters p.sources) (h : Level p s)
    (hkey : s.collector.collectKey = f.key + 1)
    (hgo : ∀ j ≤ f.key, ¬ Halts p.nmasters p.sources j)
    {chain : Option SlaveChain} (hchain : ∀ d, chain = some d → d ∈ p.slave)
    (hlt : ∀ d, chain = some d → ∀ k, Yields p.nmasters p.sources k → k ≤ f.key → k < d.key) :
    Level p { s with
      collector := s.collector.collectNext.2
      merror := s.collector.collectNext.1
      chain := chain } := by
  have hg := h.tracking.collectNext hp
  rw [hkey] at hg
  refine ⟨hg.tracking, hchain, fun he => ?_, fun he => ?_, h.destroyed⟩
  · obtain ⟨g, hfocus, -, hnext, hle, hyields, hquiet⟩ := hg.found he
    refine ⟨g, hfocus, hnext, hyields, fun j hj => ?_, fun d hd k hk hkg => hlt d hd k hk ?_⟩
    · rcases Nat.lt_or_eq_of_le hj with hj | rfl
      · exact (Nat.lt_or_ge f.key j).elim (fun hf => (hquiet j hf hj).2) (hgo j)
      · exact hyields.not_halts
    · by_contra hkf
      exact (hquiet k (Nat.lt_of_not_le hkf) hkg).1 hk
  · obtain ⟨hclean, hquiet⟩ := hg.ended he
    refine ⟨⟨fun j => ?_, hclean⟩, fun d hd k hk => hlt d hd k hk ?_⟩
    · exact (Nat.lt_or_ge f.key j).elim (fun hf => (hquiet j hf).2) (hgo j)
    · by_contra hkf
      exact (hquiet k (Nat.lt_of_not_le hkf)).1 hk

/-- A chain of the slave that lies past the one that a key falls into lies past the key. -/
theorem SyncPass.lt_next (hc : c ∈ p.slave) (hd : d ∈ p.slave) (hlt : c.key < d.key)
    (hkey : key ≤ keyEnd c.key c.keybits) : key < d.key := by
  obtain ⟨pre, post, hsplit⟩ := List.append_of_mem hd
  have hdis := p.disjoint
  rw [hsplit, List.pairwise_append, List.pairwise_cons] at hdis
  rw [hsplit, List.mem_append, List.mem_cons] at hc
  rcases hc with hc | rfl | hc
  · exact hkey.trans_lt (hdis.2.2 c hc d List.mem_cons_self)
  · exact absurd hlt (Nat.lt_irrefl _)
  · have := hdis.2.1.1 c hc
    have := le_keyEnd (p.spans d hd)
    omega

/-- The focus and a chain at its place. -/
theorem SyncPass.le_of_cmp_eq (h : chainCmp c f = .eq) : f.key ≤ keyEnd c.key c.keybits := by
  unfold chainCmp at h
  split_ifs at h with h₁ h₂
  omega

/-- A chain compared lower has a lower key. -/
theorem SyncPass.lt_of_cmp_lt (hspan : c.key + 2 ^ c.keybits ≤ 2 ^ 64) (h : chainCmp c f = .lt) :
    c.key < f.key := by
  unfold chainCmp at h
  split_ifs at h with h₁ h₂
  exact (le_keyEnd hspan).trans_lt h₁

/-- A chain that the source lacks is kept or destroyed. -/
theorem Level.absent (h : Level p s) (hc : s.chain = some c)
    (hpass : Passes p.nmasters p.sources c.key) :
    Level p (s.act p e (some c) (p.absent c)) := by
  unfold SyncPass.absent
  split
  · exact h.pass hc h.destroyed
  · next hnew =>
    refine h.pass hc fun d hd => ?_
    rcases List.mem_cons.1 hd with rfl | hd
    · exact ⟨h.cursor d hc, hpass, by simpa using hnew⟩
    · exact h.destroyed d hd

/-- A chain at the place of the focus is passed together with it. -/
theorem Level.present (hp : ProperScan p.nmasters p.sources) (h : Level p s)
    (hc : s.chain = some c) (hkey : s.collector.collectKey = f.key + 1)
    (hgo : ∀ j ≤ f.key, ¬ Halts p.nmasters p.sources j) (heq : chainCmp c f = .eq) :
    Level p (s.act p e (some c) (p.present c f)) := by
  have hact : s.act p e (some c) (p.present c f) = { s with
      collector := s.collector.collectNext.2
      merror := s.collector.collectNext.1
      chain := p.next e c.key } := by
    unfold SyncPass.present
    split_ifs <;> rfl
  rw [hact]
  refine h.advance hp hkey hgo (fun d hd => (SyncPass.next_spec hd).1) fun d hd k _ hkf => ?_
  obtain ⟨hmem, hlt⟩ := SyncPass.next_spec hd
  exact SyncPass.lt_next (h.cursor c hc) hmem hlt (hkf.trans (SyncPass.le_of_cmp_eq heq))

/-- An insert takes the next focus and the next chain. -/
theorem SyncScan.act_insert {chain : Option SlaveChain} (hf : s.collector.focus = some f) :
    s.act p e chain .insert = { s with
      collector := s.collector.collectNext.2
      merror := s.collector.collectNext.1
      chain := p.next e f.key } := by
  simp only [SyncScan.act, hf, Option.bind_some]

/-- The focus is inserted. -/
theorem Level.insert (hp : ProperScan p.nmasters p.sources) (h : Level p s)
    {chain : Option SlaveChain} (hf : s.collector.focus = some f)
    (hkey : s.collector.collectKey = f.key + 1)
    (hgo : ∀ j ≤ f.key, ¬ Halts p.nmasters p.sources j) :
    Level p (s.act p e chain .insert) := by
  rw [SyncScan.act_insert hf]
  refine h.advance hp hkey hgo (fun d hd => (SyncPass.next_spec hd).1) fun d hd k _ hkf => ?_
  exact hkf.trans_lt (SyncPass.next_spec hd).2

theorem Level.leave {left : Bool} (h : Level p s) : Level p { s with left := left } :=
  ⟨h.tracking, h.cursor, h.focus, h.behind, h.destroyed⟩

/-- **A turn of the loop** destroys only what the scan passes. -/
theorem Level.turn (hp : ProperScan p.nmasters p.sources) (h : Level p s) (e : SlaveTurn) :
    Level p (s.turn p e) := by
  unfold SyncScan.turn
  dsimp only
  split
  · exact h.leave
  · next hgo =>
    simp only [not_or, not_and, not_not] at hgo
    obtain ⟨-, hend, herr⟩ := hgo
    split
    · exact h.leave
    · next arm harm =>
      refine Level.leave ?_
      unfold SyncPass.compare at harm
      split at harm
      · next c hchain =>
        obtain ⟨hc, -⟩ := Option.filter_eq_some_iff.1 hchain
        rw [hchain]
        split at harm
        · -- The sweep behind the end of the scan.
          next hover =>
          obtain rfl := Option.some.inj harm
          obtain ⟨hclean, hlt⟩ := h.behind hover
          exact h.absent hc ⟨fun hk => Nat.lt_irrefl _ (hlt c hc _ hk), .inr hclean⟩
        · next hover =>
          have hzero : s.merror = 0 := by
            by_contra hne
            exact hover (herr hne)
          obtain ⟨f, hf, hkey, hyields, hgo, hlt⟩ := h.focus hzero
          rw [hf, Option.map_some, Option.some.injEq] at harm
          have hspan := p.spans c (h.cursor c hc)
          cases hcmp : chainCmp c f with
          | lt =>
            simp only [hcmp] at harm
            subst harm
            have hcf := SyncPass.lt_of_cmp_lt hspan hcmp
            exact h.absent hc ⟨fun hk => Nat.lt_irrefl _ (hlt c hc _ hk hcf),
              .inl ⟨f.key, hcf, hyields, hgo⟩⟩
          | eq =>
            simp only [hcmp] at harm
            subst harm
            exact h.present hp hc hkey hgo hcmp
          | gt =>
            simp only [hcmp] at harm
            subst harm
            exact h.insert hp hf hkey hgo
      · next hchain =>
        have hzero : s.merror = 0 := by
          by_contra hne
          exact hend hchain (herr hne)
        obtain ⟨f, hf, hkey, -, hgo, -⟩ := h.focus hzero
        rw [hf, Option.map_some, Option.some.injEq] at harm
        subst harm
        exact h.insert hp hf hkey hgo

/-- The scan starts level. -/
theorem level_start (hp : ProperScan p.nmasters p.sources) (found : Bool) :
    Level p (p.start found) := by
  have hg := (tracking_startScan p.nmasters p.sources).collectNext hp
  refine ⟨hg.tracking, fun c hc => ?_, fun he => ?_, fun he => ?_, nofun⟩
  · unfold SyncPass.start at hc
    cases found with
    | true => exact List.mem_of_head? hc
    | false => cases hc
  · obtain ⟨f, hf, -, hkey, -, hyields, hquiet⟩ := hg.found he
    refine ⟨f, hf, hkey, hyields, fun j hj => ?_, fun c _ k hk hlt => ?_⟩
    · rcases Nat.lt_or_eq_of_le hj with hj | rfl
      · exact (hquiet j (Nat.zero_le _) hj).2
      · exact hyields.not_halts
    · exact absurd hk (hquiet k (Nat.zero_le _) hlt).1
  · obtain ⟨hclean, hquiet⟩ := hg.ended he
    exact ⟨⟨fun j => (hquiet j (Nat.zero_le _)).2, hclean⟩, fun c _ k hk =>
      absurd hk (hquiet k (Nat.zero_le _)).1⟩

/-- It stays so. -/
theorem level_scan (hp : ProperScan p.nmasters p.sources) (found : Bool) (es : List SlaveTurn) :
    Level p (p.scan found es) := by
  unfold SyncPass.scan
  induction es using List.reverseRecOn with
  | nil => exact level_start hp found
  | append_singleton es e ih =>
    rw [List.foldl_append]
    exact ih.turn hp e

/-! ## Slaves that lose a key -/

/-- A call does not stop before it has passed the key. -/
theorem Passes.not_stopped {nmasters start error : Nat} {sources : List Source} {r : Collector}
    (h : Passes nmasters sources key) (hg : Gathered nmasters sources start error r)
    (hle : start ≤ key) : error = 0 ∨ error = errorEnoent := by
  by_contra hne
  obtain ⟨h₀, h₁⟩ := not_or.1 hne
  rcases hg.stopped h₀ h₁ with ⟨j, hj, hhalts, hnone⟩ | ⟨hclean, hnone⟩ <;>
    rcases h.2 with ⟨f, hkf, hyields, hgo⟩ | ⟨hgo, hends⟩
  · have hfj : f < j := by
      by_contra hjf
      exact hgo j (Nat.le_of_not_lt hjf) hhalts
    exact hnone f (hle.trans hkf.le) hfj hyields
  · exact hgo j hhalts
  · exact hnone f (hle.trans hkf.le) hyields
  · exact hclean hends

/-- A slave with one chain, which is old. -/
def loneSlave (nmasters : Nat) (sources : List Source) (key : Nat) (hkey : key < 2 ^ 64) :
    SyncPass where
  nmasters := nmasters
  sources := sources
  slave := [⟨key, 0, 0⟩]
  last := keyMax
  syncTid := 0
  snapCut := none
  disjoint := List.pairwise_singleton _ _
  spans := by simpa using hkey

section
variable {nmasters : Nat} {sources : List Source} {hkey : key < 2 ^ 64}

/-- The chain is destroyed when the focus, or the end of the scan, is behind it. -/
theorem SyncScan.destroys (hc : s.chain = some ⟨key, 0, 0⟩) (hleft : s.left = false)
    (hbehind : s.merror = errorEnoent ∨
      s.merror = 0 ∧ ∃ f, s.collector.focus = some f ∧ key < f.key) :
    ⟨key, 0, 0⟩ ∈ (s.turn (loneSlave nmasters sources key hkey) ⟨0, 0, false⟩).destroyed := by
  have hfilter : s.chain.filter (·.key ≤ (loneSlave nmasters sources key hkey).last) =
      some ⟨key, 0, 0⟩ := by
    have hle : key ≤ keyMax := Nat.le_sub_one_of_lt hkey
    simp [hc, loneSlave, hle]
  have habsent : (loneSlave nmasters sources key hkey).absent ⟨key, 0, 0⟩ = .destroy := rfl
  have hcompare : (loneSlave nmasters sources key hkey).compare s.merror (some ⟨key, 0, 0⟩)
      s.collector.focus = some .destroy := by
    rcases hbehind with hend | ⟨hzero, f, hf, hlt⟩
    · simp [SyncPass.compare, hend, habsent]
    · have hcmp : chainCmp ⟨key, 0, 0⟩ f = .lt := by
        have : keyEnd key 0 = key := keyEnd_eq (by simpa using hkey)
        simp [chainCmp, this, hlt]
      simp [SyncPass.compare, hzero, hf, hcmp, habsent, errorEnoent]
  have hgo :
    ¬ (s.left = true ∨ s.chain.filter (·.key ≤ (loneSlave nmasters sources key hkey).last) =
      none ∧ s.merror = errorEnoent ∨ s.merror ≠ 0 ∧ s.merror ≠ errorEnoent) := by
    rw [hfilter]
    rcases hbehind with hend | ⟨hzero, -⟩
    · simp [hleft, hend]
    · simp [hleft, hzero]
  unfold SyncScan.turn
  dsimp only
  rw [if_neg hgo, hfilter, hcompare]
  exact List.mem_cons_self

/-- Without a chain on the slave the focus is inserted. -/
theorem SyncScan.turn_insert (hc : s.chain = none) (hleft : s.left = false) (hzero : s.merror = 0)
    (hf : s.collector.focus = some f) (past : Nat) :
    s.turn p ⟨0, past, false⟩ = { s with
      collector := s.collector.collectNext.2
      merror := s.collector.collectNext.1
      chain := p.next ⟨0, past, false⟩ f.key } := by
  have harm : p.compare s.merror none s.collector.focus = some .insert := by
    simp [SyncPass.compare, hf]
  simp only [SyncScan.turn, hc, hleft, hzero, Option.filter_none, errorEnoent] at harm ⊢
  simp [harm, SyncScan.act_insert hf, hleft, errorEagain]

/-- **A run that destroys the key.** Inserts that fail keep the slave's chain out of sight until the
scan has come to the last key before it. The induction is on the distance of the focus. -/
theorem Level.exists_destroyed (hp : ProperScan nmasters sources)
    (hpass : Passes nmasters sources key) (h : Level (loneSlave nmasters sources key hkey) s)
    (hc : s.chain = none) (hleft : s.left = false) (hzero : s.merror = 0)
    (hf : s.collector.focus = some f) (hlt : f.key < key) :
    ∃ es : List SlaveTurn, ⟨key, 0, 0⟩ ∈
      (es.foldl (SyncScan.turn (loneSlave nmasters sources key hkey)) s).destroyed := by
  induction hn : key - f.key using Nat.strong_induction_on generalizing s f with
  | _ n ih =>
    subst hn
    obtain ⟨f', hf', hnext, -⟩ := h.focus hzero
    obtain rfl := Option.some.inj (hf'.symm.trans hf)
    have hg := h.tracking.collectNext hp
    rw [hnext] at hg
    have hturn := SyncScan.turn_insert (p := loneSlave nmasters sources key hkey) hc hleft hzero hf
    have hseen : (loneSlave nmasters sources key hkey).next ⟨0, 0, false⟩ f'.key =
        some ⟨key, 0, 0⟩ := by
      simp [SyncPass.next, loneSlave, hlt]
    -- Seen behind the focus, the chain is destroyed in the turn after.
    have hlast (hbehind : s.collector.collectNext.1 = errorEnoent ∨
        s.collector.collectNext.1 = 0 ∧
          ∃ g, s.collector.collectNext.2.focus = some g ∧ key < g.key) :
        ∃ es : List SlaveTurn, ⟨key, 0, 0⟩ ∈
          (es.foldl (SyncScan.turn (loneSlave nmasters sources key hkey)) s).destroyed := by
      refine ⟨[⟨0, 0, false⟩, ⟨0, 0, false⟩], ?_⟩
      rw [List.foldl_cons, List.foldl_cons, List.foldl_nil, hturn, hseen]
      exact SyncScan.destroys rfl hleft hbehind
    rcases hpass.not_stopped hg hlt with he | he
    · obtain ⟨g, hfocus, -, -, hle, hyields, -⟩ := hg.found he
      rcases Nat.lt_trichotomy g.key key with hgk | hgk | hgk
      · have hhidden : (loneSlave nmasters sources key hkey).next ⟨0, key, false⟩
          f'.key = none := by
          simp [SyncPass.next, loneSlave]
        have hlevel := h.turn hp ⟨0, key, false⟩
        rw [hturn, hhidden] at hlevel
        obtain ⟨es, hes⟩ := ih (key - g.key) (by omega) hlevel rfl hleft he hfocus hgk rfl
        refine ⟨⟨0, key, false⟩ :: es, ?_⟩
        rw [List.foldl_cons, hturn, hhidden]
        exact hes
      · exact absurd (hgk ▸ hyields) hpass.1
      · exact hlast (.inr ⟨he, g, hfocus, hgk⟩)
    · exact hlast (.inl he)

/-- Every key that the scan passes is destroyed on some slave. -/
theorem Passes.exists_destroyed (hp : ProperScan nmasters sources) (hkey : key < 2 ^ 64)
    (hpass : Passes nmasters sources key) :
    ∃ found es, ⟨key, 0, 0⟩ ∈ ((loneSlave nmasters sources key hkey).scan found es).destroyed := by
  have hg := (tracking_startScan nmasters sources).collectNext hp
  have hfirst (hbehind : (Collector.startScan nmasters sources).collectNext.1 = errorEnoent ∨
      (Collector.startScan nmasters sources).collectNext.1 = 0 ∧
        ∃ g, (Collector.startScan nmasters sources).collectNext.2.focus = some g ∧ key < g.key) :
      ∃ found es,
        ⟨key, 0, 0⟩ ∈ ((loneSlave nmasters sources key hkey).scan found es).destroyed :=
    ⟨true, [⟨0, 0, false⟩], SyncScan.destroys rfl rfl hbehind⟩
  rcases hpass.not_stopped hg (Nat.zero_le _) with he | he
  · obtain ⟨g, hfocus, -, -, -, hyields, -⟩ := hg.found he
    rcases Nat.lt_trichotomy g.key key with hgk | hgk | hgk
    · have hlevel := level_start (p := loneSlave nmasters sources key hkey) hp false
      obtain ⟨es, hes⟩ := hlevel.exists_destroyed hp hpass rfl rfl he hfocus hgk
      exact ⟨false, es, hes⟩
    · exact absurd (hgk ▸ hyields) hpass.1
    · exact hfirst (.inr ⟨he, g, hfocus, hgk⟩)
  · exact hfirst (.inl he)

end

/-! ## Warranted deletions -/

/-- A master whose scan went through and has the key. -/
def Held (sources : List Source) (key : Nat) : Prop :=
  ∃ t ∈ sources, t.kind.votes = true ∧ t.whole = true ∧ ∃ c ∈ t.tree, c.key = key

/-- A master whose tree has `tid` for the key. -/
def Source.holds (key tid : Nat) (t : Source) : Bool :=
  t.kind.votes && t.tree.any fun c => c.key == key && c.modifyTid == tid

/-- The masters agree on what they have, fail by the loss of their links only, and a quorum of them
does not fail. -/
structure SourcesSound (nmasters : Nat) (sources : List Source) : Prop where
  ends : ∀ t ∈ sources, t.kind.votes = true → t.whole = true ∨ t.lost = true
  agreed : ∀ key, Held sources key →
    ∃ tid < tidMax, quorum nmasters ≤ sources.countP (·.holds key tid)
  enough : quorum nmasters ≤ sources.countP fun t => t.kind.votes && t.whole

/-- An element stands at a chain that it has fed. -/
theorem Source.standing_chain {t : Source} {c : FedChain} (hc : c ∈ t.fed) :
    (t.standing c.key).chain = some c := by
  obtain ⟨pre, post, hsplit⟩ := List.append_of_mem hc
  have hasc := t.ascending.sublist t.fed_sublist
  rw [hsplit, List.pairwise_append] at hasc
  have hnone : pre.find? (c.key ≤ ·.key) = none :=
    List.find?_eq_none.2 fun d hd => by simpa using hasc.2.2 d hd c List.mem_cons_self
  simp [Source.standing, hsplit, hnone]

/-- A master that has lost its link before a chain is cut off there. -/
theorem Source.standing_cutOff {t : Source} {c : FedChain} (hv : t.kind.votes = true)
    (hlost : t.lost = true) (hc : c ∈ t.tree) (hfed : c ∉ t.fed) :
    (t.standing c.key).cutOff = true := by
  have hnone : t.fed.find? (c.key ≤ ·.key) = none := by
    refine List.find?_eq_none.2 fun d hd => ?_
    rcases Nat.lt_trichotomy d.key c.key with h | h | h
    · simpa using h
    · have hnodup : (t.tree.map (·.key)).Nodup :=
        List.pairwise_map.2 (t.ascending.imp fun h => Nat.ne_of_lt h)
      exact absurd (List.inj_on_of_nodup_map hnodup (t.fed_sublist.subset hd) hc h ▸ hd) hfed
    · exact absurd (Source.mem_fed_of_lt hc hd h) hfed
  simp only [CItem.cutOff, Source.standing, hnone]
  simp [hv, Source.last_lost hlost]

/-- The scan of sound sources passes no key that a master has scanned well. -/
theorem SourcesSound.not_passes {nmasters : Nat} {sources : List Source}
    (hs : SourcesSound nmasters sources) (hheld : Held sources key) :
    ¬ Passes nmasters sources key := by
  intro hpass
  obtain ⟨tid, hmax, hvotes⟩ := hs.agreed key hheld
  have hscanned : Scanned sources key := by
    obtain ⟨t, ht, -, hw, c, hc, rfl⟩ := hheld
    exact ⟨t, ht, c, Source.fed_of_whole hw ▸ hc, rfl⟩
  have hnot : ¬ Halts nmasters sources key := by
    rcases hpass.2 with ⟨f, hkf, -, hgo⟩ | ⟨hgo, -⟩
    · exact hgo key hkf.le
    · exact hgo key
  have hskip : Skipped nmasters sources key := by
    by_contra hskip
    exact hnot ⟨hscanned, hpass.1, hskip⟩
  -- Whoever holds the key has fed it, since nobody is cut off.
  have hle : sources.countP (·.holds key tid) ≤ votes (standings sources key) key tid := by
    rw [votes, standings, List.countP_map]
    refine List.countP_mono_left fun t ht hholds => ?_
    simp only [Source.holds, Bool.and_eq_true, List.any_eq_true, beq_iff_eq] at hholds
    obtain ⟨hv, c, hc, rfl, rfl⟩ := hholds
    have hfed : c ∈ t.fed := by
      by_contra hfed
      rcases hs.ends t ht hv with hw | hlost
      · exact hfed (Source.fed_of_whole hw ▸ hc)
      · have hcut := List.countP_eq_zero.1 hskip.2.1 _ (List.mem_map_of_mem ht)
        exact hcut (Source.standing_cutOff hv hlost hc hfed)
    exact CItem.holds_iff.2 ⟨hv, c, Source.standing_chain hfed, by simp [FedChain.matchesKey], rfl⟩
  exact absurd (hskip.1 tid hmax) (Nat.not_lt.2 (hvotes.trans hle))

/-- Of sound sources, the keys that the scan passes are absent from a quorum. -/
theorem SourcesSound.lacked {nmasters : Nat} {sources : List Source}
    (hs : SourcesSound nmasters sources) (hpass : Passes nmasters sources key) :
    Lacked nmasters sources key := by
  refine hs.enough.trans (List.countP_mono_left fun t ht hw => ?_)
  simp only [Bool.and_eq_true] at hw ⊢
  refine ⟨hw, ?_⟩
  simp only [List.all_eq_true, decide_eq_true_eq]
  exact fun c hc heq => hs.not_passes ⟨t, ht, hw.1, hw.2, c, hc, heq⟩ hpass

/-- **What a synchronization destroys is warranted**, on every slave and whatever happens there,
exactly if each key that the scan of the masters passes is absent from a quorum of masters whose
scans went through without an error. -/
theorem syncSlaves_warranted_iff (nmasters : Nat) (sources : List Source)
    (hp : ProperScan nmasters sources) :
    (∀ p : SyncPass, p.nmasters = nmasters → p.sources = sources →
      ∀ found es, ∀ d ∈ (p.scan found es).destroyed, Warranted p d) ↔
    ∀ key < 2 ^ 64, Passes nmasters sources key → Lacked nmasters sources key := by
  constructor
  · intro h key hkey hpass
    obtain ⟨found, es, hd⟩ := hpass.exists_destroyed hp hkey
    exact (h (loneSlave nmasters sources key hkey) rfl rfl found es _ hd).absent
  · rintro h p rfl rfl found es d hd
    have hlevel := level_scan (p := p) hp found es
    obtain ⟨hmem, hpass, hold⟩ := hlevel.destroyed d hd
    have hspan := p.spans d hmem
    have hpow := Nat.two_pow_pos d.keybits
    exact ⟨h d.key (by omega) hpass, hold⟩

end

/-- A master with an inode at each of the keys, and the end of its scan. -/
def scannedMaster (keys : List Nat) (tid : Nat) (scan : ScanEnd) (hasc : keys.Pairwise (· < ·))
    (hmax : ∀ k ∈ keys, k < 2 ^ 64)
    (complete : ∀ n error, scan = .after n error → error = 0 ∨ error = errorEnoent →
      keys.length ≤ n) : Source where
  kind := .master
  tree := keys.map (inodeAt · tid)
  scan := scan
  ascending := List.pairwise_map.2 hasc
  spans := by
    intro c hc
    obtain ⟨k, hk, rfl⟩ := List.mem_map.1 hc
    exact hmax k hk
  errors := by
    intro c hc
    obtain ⟨k, -, rfl⟩ := List.mem_map.1 hc
    exact .inl rfl
  complete := by simpa using complete

/-- A master that has scanned all of its keys. -/
def wholeMaster (keys : List Nat) (tid : Nat) (hasc : keys.Pairwise (· < ·))
    (hmax : ∀ k ∈ keys, k < 2 ^ 64) : Source :=
  scannedMaster keys tid (.after keys.length 0) hasc hmax fun _ _ h _ => by cases h; exact le_refl _

/-- Two masters with the key 5 and a third that is cut off; the slave has the key 6 besides. -/
def staleSlave : SyncPass where
  nmasters := 3
  sources := [wholeMaster [5] 8 (by decide) (by decide), wholeMaster [5] 8 (by decide) (by decide),
    scannedMaster [5] 8 (.after 0 errorEnotconn) (by decide) (by decide)
      fun _ _ h he => by cases h; exact absurd he (by decide)]
  slave := [⟨5, 0, 8⟩, ⟨6, 0, 7⟩]
  last := keyMax
  syncTid := 9
  snapCut := none
  disjoint := by decide
  spans := by decide

/-- A slave with a key that the masters have deleted. -/
theorem syncSlaves_warranted_stale :
    (staleSlave.scan true [⟨0, 0, false⟩, ⟨0, 0, false⟩]).destroyed = [⟨6, 0, 7⟩] ∧
      Warranted staleSlave ⟨6, 0, 7⟩ := by
  have hdestroyed : (staleSlave.scan true [⟨0, 0, false⟩, ⟨0, 0, false⟩]).destroyed =
      [⟨6, 0, 7⟩] := by decide
  have hsound : SourcesSound 3 staleSlave.sources := by
    refine ⟨by decide, ?_, by decide⟩
    rintro key ⟨t, ht, -, -, c, hc, rfl⟩
    have hkey : ∀ t ∈ staleSlave.sources, ∀ c ∈ t.tree, c.key = 5 := by decide
    rw [hkey t ht c hc]
    exact ⟨8, by decide, by decide⟩
  refine ⟨hdestroyed, (syncSlaves_warranted_iff 3 staleSlave.sources ⟨by decide, by decide⟩).2
    (fun key _ hpass => hsound.lacked hpass) staleSlave rfl rfl true
    [⟨0, 0, false⟩, ⟨0, 0, false⟩] _ (by rw [hdestroyed]; exact List.mem_cons_self)⟩

/-- The slave's copy of the key 5, which each of these sources has, is destroyed: the one master
does not find the inode's chain; of three masters one fails at once, and only one of the others has
the key; two masters have the key under different ids. -/
theorem syncSlaves_unwarranted :
    (∃ p : SyncPass, p.nmasters = 1 ∧
      p.sources = [scannedMaster [5] 8 .unresolved (by decide) (by decide) nofun] ∧
      p.slave = [⟨5, 0, 8⟩] ∧ p.newer ⟨5, 0, 8⟩ = false ∧
      (p.scan true [⟨0, 0, false⟩]).destroyed = [⟨5, 0, 8⟩] ∧ ¬ Warranted p ⟨5, 0, 8⟩) ∧
    (∃ p : SyncPass, p.nmasters = 3 ∧
      p.sources = [wholeMaster [5, 7] 8 (by decide) (by decide),
        scannedMaster [5, 7] 8 (.after 0 errorEio) (by decide) (by decide)
          (fun _ _ h he => by cases h; exact absurd he (by decide)),
        wholeMaster [7] 8 (by decide) (by decide)] ∧
      p.slave = [⟨5, 0, 8⟩, ⟨7, 0, 8⟩] ∧
      (p.scan true [⟨0, 0, false⟩]).destroyed = [⟨5, 0, 8⟩] ∧ ¬ Warranted p ⟨5, 0, 8⟩) ∧
    ∃ p : SyncPass, p.nmasters = 2 ∧
      p.sources = [wholeMaster [5] 8 (by decide) (by decide),
        wholeMaster [5] 9 (by decide) (by decide)] ∧
      p.slave = [⟨5, 0, 8⟩] ∧
      (p.scan true [⟨0, 0, false⟩]).destroyed = [⟨5, 0, 8⟩] ∧ ¬ Warranted p ⟨5, 0, 8⟩ := by
  refine ⟨⟨⟨1, _, [⟨5, 0, 8⟩], keyMax, 9, none, by decide, by decide⟩, rfl, rfl, rfl, rfl, ?_, ?_⟩,
    ⟨⟨3, _, [⟨5, 0, 8⟩, ⟨7, 0, 8⟩], keyMax, 9, none, by decide, by decide⟩, rfl, rfl, rfl, ?_, ?_⟩,
    ⟨⟨2, _, [⟨5, 0, 8⟩], keyMax, 9, none, by decide, by decide⟩, rfl, rfl, rfl, ?_, ?_⟩⟩
  · decide
  · exact fun h => absurd h.absent (by decide)
  · decide
  · exact fun h => absurd h.absent (by decide)
  · decide
  · exact fun h => absurd h.absent (by decide)

end Hammer2
