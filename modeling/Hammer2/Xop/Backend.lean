import Hammer2.Xop.Source

/-!
# What the backends feed, and what the frontend reads of it

A backend of a cluster operation works on one element: it resolves the chain of the inode, looks
chains up below it, feeds them and feeds an end. On a PFS with one master the frontend calls
`hammer2_xop_collect` until it returns an error, and reads `ENOENT` as the end of what there is.

The calls on one master return `EIO` at the first chain with an error, and else the error of the
end, an end without one as `ENOENT`; a backend that feeds no end leaves the frontend with
`EINPROGRESS` (`Backend.ends_iff`). An error thus reads as absence where the backend loses it before
the feed: `hammer2_xop_readdir` and `hammer2_xop_scanall` feed an end without error when the inode's
chain cannot be resolved, `hammer2_xop_readdir` forgets an error of its first lookup, and
`hammer2_xop_lookup` and `hammer2_xop_delete` then jump past the feed (`backend_reports_iff`).

Reference: `hammer2_xops.c:134-287`, `hammer2_xops.c:751-937`, `hammer2_xops.c:1472-1516`,
`hammer2_admin.c:657-820`, `hammer2_cluster.c:141-510`.
-/

namespace Hammer2

/-! ## What a backend meets -/

/-- An error of a chain operation. None returns the codes with which the quorum check tells an end
or a key without quorum. -/
structure Fault where
  code : Nat
  ne_zero : code ≠ 0
  ne_enoent : code ≠ errorEnoent
  ne_esrch : code ≠ errorEsrch
  ne_edeadlk : code ≠ errorEdeadlk

/-- What `hammer2_chain_lookup` returns for one key: a chain, `NULL` without an error, or `NULL`
with one. -/
inductive Look
  | found (c : FedChain)
  | missing
  | failed (f : Fault)

/-- What `hammer2_chain_lookup` and the calls of `hammer2_chain_next` behind it return: chains, and
`NULL` with the error `stop`, if any. -/
structure Scan where
  chains : List FedChain
  stop : Option Fault

/-- The error variable when the scan has returned `NULL`. -/
def Scan.error (s : Scan) : Nat := s.stop.elim 0 (·.code)

/-- The chain that a lookup returns. -/
def Look.chain : Look → Option FedChain
  | .found c => some c
  | _ => none

/-- The lookup sets an error. -/
def Look.fails : Look → Bool
  | .failed _ => true
  | _ => false

/-! ## The backends -/

/-- `hammer2_xop_ipcluster`, with the chain of the inode. -/
def xopIpcluster (chain : Option FedChain) : List Feed :=
  [feed chain (chain.elim errorEio (·.error))]

/-- The loop of `hammer2_xop_readdir` after `fed` chains. -/
def readdirLoop (nmax : Nat) (error : Nat) : Nat → List FedChain → List Feed
  | _, [] => [feed none error]
  | fed, c :: cs =>
    feed (some c) 0 :: if fed + 1 = nmax then [feed none 0] else readdirLoop nmax error (fed + 1) cs

/-- `hammer2_xop_readdir`. The lookup of `lkey` alone is made before that of the range behind it,
which is only made when the first returns no chain; `rest` is what follows. -/
def xopReaddir (parent : Bool) (exact : Look) (rest : Scan) (nmax : Nat) : List Feed :=
  if parent then readdirLoop nmax rest.error 0 (exact.chain.toList ++ rest.chains)
  else [feed none 0]

/-- `hammer2_xop_nresolve`; `test` is `hammer2_chain_dirent_test` for the name and `inode` what
`hammer2_chain_inode_find` returns for the entry found. -/
def xopNresolve (parent : Bool) (scan : Scan) (test : FedChain → Bool) (inode : Look) : List Feed :=
  if parent then
    match scan.chains.find? test with
    | none => [feed none scan.error]
    | some c =>
      if c.error = 0 then
        if c.type = .dirent then
          match inode with
          | .found c' => [feed (some c') c'.error]
          | .missing => [feed none 0]
          | .failed f => [feed none f.code]
        else [feed (some c) 0]
      else [feed (some c) c.error]
  else [feed none errorEio]

/-- The scan loops of `hammer2_xop_scanlhc` and `hammer2_xop_scanall`. -/
def scanLoop (s : Scan) : List Feed := s.chains.map
  (fun c => feed (some c) 0) ++ [feed none s.error]

/-- `hammer2_xop_scanlhc`. -/
def xopScanlhc (parent : Bool) (scan : Scan) : List Feed :=
  if parent then scanLoop scan else [feed none errorEio]

/-- The feed of `hammer2_xop_lookup` and of `hammer2_xop_bmap`. -/
def feedLook : Look → Feed
  | .found c => feed (some c) c.error
  | .missing => feed none errorEnoent
  | .failed f => feed none f.code

/-- `hammer2_xop_lookup`, which jumps past its feed without the inode's chain. -/
def xopLookup (parent : Bool) (look : Look) : List Feed :=
  if parent then [feedLook look] else []

/-- `hammer2_xop_delete`, which feeds the error of `hammer2_chain_delete` if there is a chain, and
jumps past the feed as well. -/
def xopDelete (parent : Bool) (look : Look) (deleted : Option Fault) : List Feed :=
  if parent then
    match look with
    | .found _ => [feed none (deleted.elim 0 (·.code))]
    | .missing => [feed none errorEnoent]
    | .failed f => [feed none f.code]
  else []

/-- `hammer2_xop_scanall`. -/
def xopScanall (parent : Bool) (scan : Scan) : List Feed :=
  if parent then scanLoop scan else [feed none 0]

/-- `hammer2_xop_bmap`. -/
def xopBmap (parent : Bool) (look : Look) : List Feed :=
  if parent then [feedLook look] else [feed none errorEio]

/-- A backend with what it meets; `parent` says that the inode's chain could be resolved. -/
inductive Backend
  | ipcluster (chain : Option FedChain)
  | readdir (parent : Bool) (exact : Look) (rest : Scan) (nmax : Nat)
  | nresolve (parent : Bool) (scan : Scan) (test : FedChain → Bool) (inode : Look)
  | scanlhc (parent : Bool) (scan : Scan)
  | lookup (parent : Bool) (look : Look)
  | delete (parent : Bool) (look : Look) (deleted : Option Fault)
  | scanall (parent : Bool) (scan : Scan)
  | bmap (parent : Bool) (look : Look)

/-- The entries that the backend feeds. -/
def Backend.feeds : Backend → List Feed
  | .ipcluster chain => xopIpcluster chain
  | .readdir parent exact rest nmax => xopReaddir parent exact rest nmax
  | .nresolve parent scan test inode => xopNresolve parent scan test inode
  | .scanlhc parent scan => xopScanlhc parent scan
  | .lookup parent look => xopLookup parent look
  | .delete parent look deleted => xopDelete parent look deleted
  | .scanall parent scan => xopScanall parent scan
  | .bmap parent look => xopBmap parent look

/-! ## The frontend -/

/-- The operation on a PFS with one master, whose backend has fed `fs`. -/
def Collector.single (fs : List Feed) : Collector where
  nmasters := 1
  elements := [(⟨⟨none, 0, Feed.fed_none⟩, .master, false, false, false⟩, fs)]
  collectKey := 0
  focus := none
  focusIndex := 0
  dropped := []

/-- The error that ends a sequence of at most `n` calls of `hammer2_xop_collect`. -/
def Collector.finish : Nat → Collector → Option Nat
  | 0, _ => none
  | n + 1, s => if s.collectNext.1 = 0 then finish n s.collectNext.2 else some s.collectNext.1

/-- The sequence of calls on one master ends with `error`. -/
def Backend.Ends (b : Backend) (error : Nat) : Prop :=
  ∃ n, (Collector.single b.feeds).finish n = some error

/-! ## What is asked of a backend -/

/-- The entries of chains, and of an end if there is one. -/
def entriesOf (cs : List FedChain) (last : Option Nat) : List Feed :=
  cs.map (fun c => feed (some c) 0) ++ last.toList.map (feed none)

/-- The backend hands out the chains of a range, and not one chain or its absence. -/
def Backend.scans : Backend → Bool
  | .readdir .. => true
  | .scanlhc .. => true
  | .scanall .. => true
  | _ => false

/-- The inode's chain could be resolved. -/
def Backend.resolved : Backend → Bool
  | .ipcluster chain => chain.isSome
  | .readdir parent .. => parent
  | .nresolve parent .. => parent
  | .scanlhc parent _ => parent
  | .lookup parent _ => parent
  | .delete parent .. => parent
  | .scanall parent _ => parent
  | .bmap parent _ => parent

/-- `hammer2_xop_readdir` stops at the `nmax` entries that the frontend has asked for. -/
def readdirBounded (exact : Look) (rest : Scan) (nmax : Nat) : Prop :=
  0 < nmax ∧ nmax ≤ (exact.chain.toList ++ rest.chains).length

instance (exact : Look) (rest : Scan) (nmax : Nat) : Decidable (readdirBounded exact rest nmax) :=
  inferInstanceAs (Decidable (_ ∧ _))

/-- The scan behind the first lookup, or the only call there is, fails. -/
def Backend.scanFails : Backend → Prop
  | .ipcluster _ => False
  | .readdir _ exact rest nmax => ¬ readdirBounded exact rest nmax ∧ rest.stop.isSome
  | .nresolve _ scan test inode =>
    match scan.chains.find? test with
    | none => scan.stop.isSome
    | some c => c.error = 0 ∧ c.type = .dirent ∧ inode.fails
  | .scanlhc _ scan => scan.stop.isSome
  | .lookup _ look => look.fails
  | .delete _ look deleted => look.fails ∨ look.chain.isSome ∧ deleted.isSome
  | .scanall _ scan => scan.stop.isSome
  | .bmap _ look => look.fails

/-- The lookup that `hammer2_xop_readdir` starts with fails. -/
def Backend.firstFails : Backend → Bool
  | .readdir _ exact _ _ => exact.fails
  | _ => false

/-- A chain that is fed has an error. -/
def Backend.chainFails (b : Backend) : Prop := ∃ f ∈ b.feeds, ∃ c, f.chain = some c ∧ c.error ≠ 0

/-- Something fails on the way. -/
def Backend.Fails (b : Backend) : Prop :=
  b.resolved = false ∨ b.firstFails ∨ b.scanFails ∨ b.chainFails

/-- The requested range, for `hammer2_xop_readdir` its first `nmax` entries, was gone through
without an error. `hammer2_xop_ipcluster` goes through none. -/
def Backend.Covered : Backend → Prop
  | .ipcluster _ => False
  | b => b.resolved ∧ ¬ b.scanFails ∧ ¬ b.chainFails

/-- One end is fed: behind the chains of a scan an entry without chain, and otherwise one entry. -/
def Backend.OneEnd (b : Backend) : Prop :=
  if b.scans then ∃ cs error, b.feeds = entriesOf cs (some error) else b.feeds.length = 1

/-- An error never reads as absence. -/
structure Backend.Reports (b : Backend) : Prop where
  failure : b.Fails → ∃ error, b.Ends error ∧ error ≠ errorEnoent
  absence : b.Ends errorEnoent → b.Covered
  oneEnd : b.OneEnd

/-- The chains of the lookups of `hammer2_xop_readdir` that the frontend has asked for. -/
def readdirAsked (exact : Look) (rest : Scan) (nmax : Nat) : List FedChain :=
  if 0 < nmax then (exact.chain.toList ++ rest.chains).take nmax
  else exact.chain.toList ++ rest.chains

/-- What the backends rely on. -/
def Backend.Careful : Backend → Prop
  | .readdir parent exact rest nmax => parent = true ∧ (exact.fails →
      ¬ readdirBounded exact rest nmax ∧ rest.stop.isSome ∨
        ∃ c ∈ readdirAsked exact rest nmax, c.error ≠ 0)
  | .lookup parent _ => parent
  | .delete parent .. => parent
  | .scanall parent _ => parent
  | _ => True

/-! ## The quorum of one master -/

section
variable {it : CItem} {c : FedChain} {cs : List FedChain} {last : Option Nat} {s : Collector}

/-- One master at its end, or without an entry. -/
theorem clusterCheck_single_null (focusIndex key : Nat) (hkind : it.kind = .master)
    (hchain : it.chain = none) :
    (clusterCheck 1 focusIndex [it] key true).result =
      if it.null then
        if disconnected it.error then errorEnotconn
        else if it.error = 0 then errorEnoent else it.error
      else errorEinprogress := by
  by_cases hnull : it.null
  · by_cases hdis : disconnected it.error = true
    · simp [clusterCheck, secondPass, quorumLoop, sweep, sweepStep, census, censusStep, Vote.stop,
        noQuorum, quorum, hkind, hchain, ElementKind.votes, hnull, hdis, tidMax]
    · simp [clusterCheck, secondPass, quorumLoop, sweep, sweepStep, census, censusStep, Vote.stop,
        quorum, hkind, hchain, ElementKind.votes, hnull, hdis, tidMax]
  · simp [clusterCheck, secondPass, quorumLoop, sweep, sweepStep, census, censusStep, Vote.stop,
      noQuorum, quorum, hkind, hchain, ElementKind.votes, hnull, tidMax]

/-- One master at a chain. -/
theorem clusterCheck_single_key (focusIndex : Nat) (hkind : it.kind = .master)
    (hchain : it.chain = some c) (herror : it.error = c.error) (htid : c.modifyTid < tidMax) :
    (clusterCheck 1 focusIndex [it] c.key false).result =
      if c.error = 0 then 0 else errorEio := by
  have hsweep (v : Vote) : sweep c.key false tidMax [it] v =
      ⟨1, 0, 0, 1, c.modifyTid, if c.error = 0 then some c else v.focus,
        if c.error = 0 then 0 else v.focusIndex, v.error⟩ := by
    by_cases hz : c.modifyTid = 0
    · by_cases he : c.error = 0 <;>
        simp [sweep, sweepStep, Vote.count, FedChain.matchesKey, ElementKind.votes,
          hkind, hchain, hz, he]
    · by_cases he : c.error = 0 <;>
        simp [sweep, sweepStep, Vote.count, FedChain.matchesKey, ElementKind.votes,
          hkind, hchain, htid, Nat.pos_of_ne_zero hz, he]
  have hmax : tidMax ≠ 0 := by decide
  by_cases he : c.error = 0
  · simp [clusterCheck, secondPass, quorumLoop, hsweep, quorum, validatePass, firstError,
      CItem.agrees, hchain, herror, he, hmax]
  · simp [clusterCheck, secondPass, quorumLoop, hsweep, quorum, census, censusStep, Vote.stop,
      hkind, hchain, herror, he, hmax]

/-! ## One call -/

/-- Chains as the lookups hand them out: each behind the one before, with ids that a transaction
gives. -/
structure WellFed (cs : List FedChain) : Prop where
  ascending : cs.Pairwise (·.key < ·.key)
  bounded : ∀ c ∈ cs, c.key < keyMax
  tids : ∀ c ∈ cs, c.modifyTid < tidMax

/-- The rest of a feed is fed well. -/
theorem WellFed.tail (h : WellFed (c :: cs)) : WellFed cs where
  ascending := h.ascending.of_cons
  bounded d hd := h.bounded d (.tail _ hd)
  tids d hd := h.tids d (.tail _ hd)

/-- The error that the frontend gets at an end with `error`. -/
def endResult (error : Nat) : Nat :=
  if disconnected error then errorEnotconn
  else if error = 0 ∨ error = errorEsrch ∨ error = errorEdeadlk then errorEnoent else error

/-- One master, done with the chains before `collect_key`, which still has the entries of `cs` and
of the end in its FIFO. -/
structure Collector.Standing (s : Collector) (cs : List FedChain) (last : Option Nat) : Prop where
  nmasters : s.nmasters = 1
  elements : ∃ it : CItem, s.elements = [(it, entriesOf cs last)] ∧ it.kind = .master ∧
    it.null = false ∧ it.keeps s.collectKey = false
  before : ∀ c ∈ cs, s.collectKey ≤ c.key

/-- The turn of a call is its only one, unless it skips a key. -/
theorem Collector.collectNext_of_turn {error : Nat} (h : s.turn = some error) :
    s.collectNext = (error, s.after) := by
  simp only [collectNext, collect, h]

/-- An element at or past the key stays. -/
theorem advance_keeps {key : Nat} (hk : it.keeps key = true) (fs : List Feed) :
    advance key it fs = (it, fs, []) := by
  cases fs <;> simp [advance, hk]

/-- **A call with a chain left.** It returns the chain, or `EIO` if that has an error. -/
theorem Collector.Standing.next (h : s.Standing (c :: cs) last) (hw : WellFed (c :: cs)) :
    s.collectNext.1 = (if c.error = 0 then 0 else errorEio) ∧ s.collectNext.2.Standing cs last := by
  obtain ⟨it, hel, hkind, hnull, hkeeps⟩ := h.elements
  have hkey := hw.bounded c (.head _)
  -- the element takes the entry and stays at it
  have htake : (it.take (feed (some c) 0)).keeps s.collectKey = true := by
    simpa [CItem.keeps, CItem.take, feed] using h.before c (.head _)
  have hmoved : s.moved = [(it.take (feed (some c) 0), entriesOf cs last, it.chain.toList)] := by
    have hentries : entriesOf (c :: cs) last = feed (some c) 0 :: entriesOf cs last := rfl
    simp [moved, hel, hentries, advance, hkeeps, advance_keeps htake]
  have hitems : s.items = [it.take (feed (some c) 0)] := by rw [items, hmoved]; rfl
  have hlow : lowestKey s.items = c.key := by
    rw [hitems]
    simp [lowestKey, CItem.take, feed, hkey]
  have hcheck : s.check = clusterCheck 1 s.focusIndex [it.take (feed (some c) 0)] c.key false := by
    rw [check, hlow, hitems, h.nmasters]
    rfl
  have hresult : s.check.result = if c.error = 0 then 0 else errorEio := by
    rw [hcheck]
    exact clusterCheck_single_key _ hkind rfl rfl (hw.tids c (.head _))
  have hturn : s.turn = some (if c.error = 0 then 0 else errorEio) := by
    have hne : ¬ ((if c.error = 0 then 0 else errorEio) = errorEsrch ∨
        (if c.error = 0 then 0 else errorEio) = errorEdeadlk) := by
      split <;> decide
    rw [turn, hresult, if_neg hne]
  rw [collectNext_of_turn hturn]
  refine ⟨rfl, h.nmasters, ?_, fun d hd => ?_⟩
  · -- the check leaves the chain of the element alone
    have hcore := clusterCheck_core 1 s.focusIndex [it.take (feed (some c) 0)] c.key false
    rw [← hcheck] at hcore
    obtain ⟨it', hit', hcore'⟩ := List.map_eq_singleton_iff.1 hcore
    simp only [CItem.core, Prod.mk.injEq] at hcore'
    refine ⟨it', ?_, hcore'.2.1.trans hkind, ?_, ?_⟩
    · simp [after, hit', hmoved]
    · rw [hcore'.2.2]
      simp [CItem.take, hnull, feed]
    · have hck : s.after.collectKey = c.key + 1 := by
        simp [after, hlow, Nat.ne_of_lt hkey]
      simp [CItem.keeps, hcore'.1, CItem.take, feed, hck]
  · have hck : s.after.collectKey = c.key + 1 := by
      simp [after, hlow, Nat.ne_of_lt hkey]
    rw [hck]
    exact List.rel_of_pairwise_cons hw.ascending hd

/-- What a call decides at the end. -/
theorem Collector.turn_single_null (hnm : s.nmasters = 1) (hitems : s.items = [it])
    (hkind : it.kind = .master) (hchain : it.chain = none) :
    s.turn = some (if it.null then endResult it.error else errorEinprogress) := by
  have hlow : lowestKey s.items = keyMax := by
    rw [hitems]
    simp [lowestKey, hchain]
  have hcheck : s.check = clusterCheck 1 s.focusIndex [it] keyMax true := by
    rw [check, hlow, hitems, hnm]
    simp [hchain]
  rw [turn, hlow, hcheck, clusterCheck_single_null _ _ hkind hchain, endResult]
  by_cases hnull : it.null
  · by_cases hdis : disconnected it.error = true
    · simp [hnull, hdis, errorEnotconn, errorEsrch, errorEdeadlk]
    · by_cases hz : it.error = 0
      · rw [hz] at hdis
        simp [hnull, hdis, hz, errorEnoent, errorEsrch, errorEdeadlk]
      · by_cases hskip : it.error = errorEsrch ∨ it.error = errorEdeadlk <;>
          simp [hnull, hdis, hz, hskip]
  · simp [hnull, errorEinprogress, errorEsrch, errorEdeadlk]

/-- **A call with no chain left** returns the error of the end, or that there is no end yet. -/
theorem Collector.Standing.stop (h : s.Standing [] last) :
    s.collectNext.1 = last.elim errorEinprogress endResult := by
  obtain ⟨it, hel, hkind, hnull, hkeeps⟩ := h.elements
  cases last with
  | none =>
    have hitems : s.items = [it.exhaust] := by
      simp [items, moved, hel, entriesOf, advance, hkeeps]
    rw [collectNext_of_turn (turn_single_null h.nmasters hitems hkind rfl)]
    simp [CItem.exhaust, hnull]
  | some error =>
    have htake : (it.take (feed none error)).keeps s.collectKey = false := rfl
    have hitems : s.items = [(it.take (feed none error)).exhaust] := by
      simp [items, moved, hel, entriesOf, advance, hkeeps, htake]
    rw [collectNext_of_turn (turn_single_null h.nmasters hitems hkind rfl)]
    have herror : (it.take (feed none error)).exhaust.error = error := feed_none_error error
    have hended : (it.take (feed none error)).exhaust.null = true := by
      simp [CItem.take, CItem.exhaust, feed]
    simp [herror, hended]

/-! ## The calls together -/

theorem endResult_ne_zero (error : Nat) : endResult error ≠ 0 := by
  unfold endResult
  split
  · decide
  · split
    · decide
    · next h => exact fun h0 => h (.inl h0)

/-- What the calls on chains and an end come to. -/
def finalError (cs : List FedChain) (last : Option Nat) : Nat :=
  if cs.any (·.error ≠ 0) then errorEio else last.elim errorEinprogress endResult

/-- The calls end at the first chain with an error, or with the end. -/
theorem Collector.Standing.finish {n : Nat} (h : s.Standing cs last) (hw : WellFed cs)
    (hn : cs.length < n) : s.finish n = some (finalError cs last) := by
  induction cs generalizing s n with
  | nil =>
    obtain ⟨n, rfl⟩ := Nat.exists_eq_succ_of_ne_zero (Nat.ne_of_gt hn)
    have hstop := h.stop
    have hne : s.collectNext.1 ≠ 0 := by
      rw [hstop]
      cases last with
      | none => exact (by decide : errorEinprogress ≠ 0)
      | some error => exact endResult_ne_zero error
    rw [Collector.finish, if_neg hne, hstop]
    simp [finalError]
  | cons c cs ih =>
    obtain ⟨n, rfl⟩ := Nat.exists_eq_succ_of_ne_zero (Nat.ne_zero_of_lt hn)
    obtain ⟨hresult, hnext⟩ := h.next hw
    by_cases he : c.error = 0
    · rw [if_pos he] at hresult
      rw [Collector.finish, if_pos hresult, ih hnext hw.tail (by simpa using hn)]
      simp [finalError, he]
    · rw [if_neg he] at hresult
      have hne : s.collectNext.1 ≠ 0 := by rw [hresult]; decide
      rw [Collector.finish, if_neg hne, hresult]
      simp [finalError, he]

/-- A single backend stands at its first entry. -/
theorem Collector.standing_single (cs : List FedChain) (last : Option Nat) :
    (single (entriesOf cs last)).Standing cs last where
  nmasters := rfl
  elements := ⟨_, rfl, rfl, rfl, rfl⟩
  before _ _ := Nat.zero_le _

/-- More calls do not change the end. -/
theorem Collector.finish_mono {n m error : Nat} (h : s.finish n = some error) (hnm : n ≤ m) :
    s.finish m = some error := by
  induction n generalizing s m with
  | zero => cases h
  | succ n ih =>
    obtain ⟨m, rfl⟩ := Nat.exists_eq_succ_of_ne_zero (Nat.ne_zero_of_lt hnm)
    rw [finish] at h ⊢
    split at h
    · next hz => rw [if_pos hz]; exact ih h (Nat.le_of_succ_le_succ hnm)
    · next hz => rw [if_neg hz]; exact h

/-- **The frontend on one master** is told the first error among the chains, or the end. -/
theorem Backend.ends_iff {b : Backend} (hb : b.feeds = entriesOf cs last) (hw : WellFed cs)
    (error : Nat) : b.Ends error ↔ error = finalError cs last := by
  have hfinish : (Collector.single b.feeds).finish (cs.length + 1) = some (finalError cs last) := by
    rw [hb]
    exact (Collector.standing_single cs last).finish hw (Nat.lt_succ_self _)
  constructor
  · rintro ⟨n, hn⟩
    have h₁ := Collector.finish_mono hn (Nat.le_max_left n (cs.length + 1))
    have h₂ := Collector.finish_mono hfinish (Nat.le_max_right n (cs.length + 1))
    exact Option.some.inj (h₁.symm.trans h₂)
  · rintro rfl
    exact ⟨_, hfinish⟩

/-! ## The ends of the backends -/

variable {b : Backend}

theorem feed_own_error (c : FedChain) : feed (some c) c.error = feed (some c) 0 := by
  by_cases h : c.error = 0 <;> simp [feed, h]

/-- The chains that the backend feeds. -/
def Backend.fed (b : Backend) : List FedChain := b.feeds.filterMap (·.chain)

theorem entriesOf_chains (cs : List FedChain) (last : Option Nat) :
    (entriesOf cs last).filterMap (·.chain) = cs := by
  cases last <;> simp [entriesOf, List.filterMap_append, List.filterMap_map, feed]

/-- A backend whose chain fails. -/
theorem Backend.chainFails_iff : b.chainFails ↔ ∃ c ∈ b.fed, c.error ≠ 0 := by
  simp only [chainFails, fed, List.mem_filterMap]
  constructor
  · rintro ⟨f, hf, c, hc, he⟩
    exact ⟨c, ⟨f, hf, hc⟩, he⟩
  · rintro ⟨c, ⟨f, hf, hc⟩, he⟩
    exact ⟨f, hf, c, hc, he⟩

/-- A fault does not end as `ENOENT`. -/
theorem endResult_fault (f : Fault) : endResult f.code ≠ errorEnoent := by
  unfold endResult
  split
  · decide
  · rw [if_neg (by simp [f.ne_zero, f.ne_esrch, f.ne_edeadlk])]
    exact f.ne_enoent

theorem endResult_zero : endResult 0 = errorEnoent := by decide

theorem endResult_eio : endResult errorEio ≠ errorEnoent := by decide

/-- A scan ends as `ENOENT` if nothing stopped it. -/
theorem endResult_scan (scan : Scan) : endResult scan.error = errorEnoent ↔ scan.stop = none := by
  unfold Scan.error
  cases scan.stop with
  | none => simp [endResult_zero]
  | some f => simp [endResult_fault f]

/-- The frontend reads absence when no chain has an error and the end is one without. -/
theorem Backend.ends_enoent_iff (hb : b.feeds = entriesOf cs last) (hw : WellFed b.fed) :
    b.Ends errorEnoent ↔ ¬ b.chainFails ∧ ∃ error ∈ last, endResult error = errorEnoent := by
  have hcs : b.fed = cs := by rw [fed, hb, entriesOf_chains]
  rw [ends_iff hb (hcs ▸ hw), chainFails_iff, hcs, finalError]
  by_cases h : ∃ c ∈ cs, c.error ≠ 0
  · have hany : cs.any (·.error ≠ 0) = true := by simpa using h
    rw [if_pos hany]
    exact ⟨fun he => absurd he (by decide), fun ⟨hno, _⟩ => absurd h hno⟩
  · have hany : ¬ cs.any (·.error ≠ 0) = true := by simpa using h
    rw [if_neg hany]
    cases last with
    | none => simpa using (by decide : errorEnoent ≠ errorEinprogress)
    | some error => simpa [h] using eq_comm

/-- A sequence of calls has one end, so that a failure is reported unless it reads as absence. -/
theorem Backend.reports_iff (hb : b.feeds = entriesOf cs last) (hw : WellFed b.fed) :
    b.Reports ↔ (b.Ends errorEnoent → ¬ b.Fails ∧ b.Covered) ∧ b.OneEnd := by
  have hcs : b.fed = cs := by rw [fed, hb, entriesOf_chains]
  have hends := ends_iff hb (hcs ▸ hw)
  constructor
  · rintro ⟨hfail, habs, hone⟩
    refine ⟨fun he => ⟨fun hf => ?_, habs he⟩, hone⟩
    obtain ⟨error, herr, hne⟩ := hfail hf
    exact hne (((hends error).1 herr).trans ((hends errorEnoent).1 he).symm)
  · rintro ⟨hread, hone⟩
    refine ⟨fun hf => ⟨finalError cs last, (hends _).2 rfl, fun he => ?_⟩, fun he => (hread he).2,
      hone⟩
    exact (hread ((hends _).2 he.symm)).1 hf

/-- A backend whose absent end means that nothing has failed. -/
theorem Backend.reports_of (cs : List FedChain) (last : Option Nat)
    (hb : b.feeds = entriesOf cs last) (hw : WellFed b.fed)
    (hone : b.OneEnd) (hcov : b.resolved → ¬ b.scanFails → ¬ b.chainFails → b.Covered)
    (hlast : ∀ error ∈ last, endResult error = errorEnoent →
      b.resolved = true ∧ b.firstFails = false ∧ ¬ b.scanFails) : b.Reports := by
  rw [reports_iff hb hw, ends_enoent_iff hb hw]
  refine ⟨fun ⟨hchain, error, hmem, he⟩ => ?_, hone⟩
  obtain ⟨hres, hfirst, hscan⟩ := hlast error hmem he
  refine ⟨?_, hcov hres hscan hchain⟩
  rintro (h | h | h | h)
  · exact Bool.false_ne_true (h.symm.trans hres)
  · exact Bool.false_ne_true (hfirst.symm.trans h)
  · exact hscan h
  · exact hchain h

/-! ## The backends one by one -/

/-- The cluster backend reports its errors. -/
theorem Backend.ipcluster_reports (chain : Option FedChain)
    (hw : WellFed (Backend.ipcluster chain).fed) : (Backend.ipcluster chain).Reports := by
  cases chain with
  | none =>
    refine reports_of [] (some errorEio) rfl hw rfl (nofun) ?_
    simp [endResult_eio]
  | some c =>
    have hb : (Backend.ipcluster (some c)).feeds = entriesOf [c] none :=
      congrArg (fun f => [f]) (feed_own_error c)
    refine (reports_iff hb hw).2 ⟨fun he => ?_, rfl⟩
    obtain ⟨-, error, hnone, -⟩ := (ends_enoent_iff hb hw).1 he
    cases hnone

/-- A scan that ends behind its chains with its own error. -/
theorem Backend.scan_reports {scan : Scan} (hb : b.feeds = scanLoop scan) (hw : WellFed b.fed)
    (hscans : b.scans = true) (hres : b.resolved = true) (hfirst : b.firstFails = false)
    (hfails : b.scanFails ↔ scan.stop.isSome)
    (hcov : b.resolved → ¬ b.scanFails → ¬ b.chainFails → b.Covered) : b.Reports := by
  refine reports_of scan.chains (some scan.error) hb hw ?_ hcov ?_
  · rw [OneEnd, if_pos hscans]
    exact ⟨_, _, hb⟩
  · intro error hmem he
    cases hmem
    rw [endResult_scan] at he
    exact ⟨hres, hfirst, by simp [hfails, he]⟩

/-- A backend that feeds only an end with an error. -/
theorem Backend.fault_reports (hb : b.feeds = [feed none errorEio]) (hw : WellFed b.fed)
    (hcov : b.resolved → ¬ b.scanFails → ¬ b.chainFails → b.Covered) : b.Reports := by
  refine reports_of [] (some errorEio) hb hw ?_ hcov ?_
  · unfold OneEnd
    split
    · exact ⟨[], errorEio, hb⟩
    · rw [hb]
      rfl
  · simp [endResult_eio]

/-- A backend that feeds what one lookup returns. -/
theorem Backend.look_reports {look : Look} (hb : b.feeds = [feedLook look]) (hw : WellFed b.fed)
    (hscans : b.scans = false) (hres : b.resolved = true) (hfirst : b.firstFails = false)
    (hfails : b.scanFails ↔ look.fails)
    (hcov : b.resolved → ¬ b.scanFails → ¬ b.chainFails → b.Covered) : b.Reports := by
  have hone : b.OneEnd := by simp [OneEnd, hscans, hb]
  cases look with
  | found c =>
    refine reports_of [c] none ?_ hw hone hcov (by simp)
    rw [hb, feedLook, feed_own_error]
    rfl
  | missing =>
    refine reports_of [] (some errorEnoent) hb hw hone hcov fun _ _ _ => ?_
    exact ⟨hres, hfirst, by simp [hfails, Look.fails]⟩
  | failed f =>
    refine reports_of [] (some f.code) hb hw hone hcov ?_
    simp [endResult_fault f]

/-- The lookup of a name reports its errors. -/
theorem Backend.nresolve_reports (parent : Bool) (scan : Scan) (test : FedChain → Bool)
    (inode : Look) (hw : WellFed (Backend.nresolve parent scan test inode).fed) :
    (Backend.nresolve parent scan test inode).Reports := by
  have hcov (h₁ : (Backend.nresolve parent scan test inode).resolved = true)
      (h₂ : ¬ (Backend.nresolve parent scan test inode).scanFails)
      (h₃ : ¬ (Backend.nresolve parent scan test inode).chainFails) :
      (Backend.nresolve parent scan test inode).Covered := ⟨h₁, h₂, h₃⟩
  cases parent with
  | false => exact fault_reports rfl hw hcov
  | true =>
    cases hfind : scan.chains.find? test with
    | none =>
      have hb : (Backend.nresolve true scan test inode).feeds = entriesOf [] (some scan.error) := by
        simp [feeds, xopNresolve, hfind, entriesOf]
      refine reports_of _ _ hb hw (by simp [OneEnd, scans, hb, entriesOf]) hcov ?_
      intro error hmem he
      cases hmem
      rw [endResult_scan] at he
      exact ⟨rfl, rfl, by simp [scanFails, hfind, he]⟩
    | some c =>
      by_cases he : c.error = 0 ∧ c.type = .dirent
      · cases inode with
        | found c' =>
          have hb : (Backend.nresolve true scan test (.found c')).feeds = entriesOf [c'] none := by
            simp [feeds, xopNresolve, hfind, he, entriesOf, feed_own_error]
          exact reports_of _ _ hb hw (by simp [OneEnd, scans, hb, entriesOf]) hcov (by simp)
        | missing =>
          have hb : (Backend.nresolve true scan test .missing).feeds = entriesOf [] (some 0) := by
            simp [feeds, xopNresolve, hfind, he, entriesOf]
          refine reports_of _ _ hb hw (by simp [OneEnd, scans, hb, entriesOf]) hcov fun _ _ _ => ?_
          exact ⟨rfl, rfl, by simp [scanFails, hfind, Look.fails]⟩
        | failed f =>
          have hb : (Backend.nresolve true scan test (.failed f)).feeds =
              entriesOf [] (some f.code) := by
            simp [feeds, xopNresolve, hfind, he, entriesOf]
          refine reports_of _ _ hb hw (by simp [OneEnd, scans, hb, entriesOf]) hcov ?_
          simp [endResult_fault f]
      · have hb : (Backend.nresolve true scan test inode).feeds = entriesOf [c] none := by
          by_cases hz : c.error = 0
          · have ht : c.type ≠ .dirent := fun ht => he ⟨hz, ht⟩
            simp [feeds, xopNresolve, hfind, hz, ht, entriesOf]
          · simp [feeds, xopNresolve, hfind, hz, entriesOf, feed_own_error]
        exact reports_of _ _ hb hw (by simp [OneEnd, scans, hb, entriesOf]) hcov (by simp)

/-- So does a deletion. -/
theorem Backend.delete_reports (look : Look) (deleted : Option Fault)
    (hw : WellFed (Backend.delete true look deleted).fed) :
    (Backend.delete true look deleted).Reports := by
  have hcov (h₁ : (Backend.delete true look deleted).resolved = true)
      (h₂ : ¬ (Backend.delete true look deleted).scanFails)
      (h₃ : ¬ (Backend.delete true look deleted).chainFails) :
      (Backend.delete true look deleted).Covered := ⟨h₁, h₂, h₃⟩
  cases look with
  | found c =>
    refine reports_of [] (some (deleted.elim 0 (·.code))) rfl hw rfl hcov ?_
    intro error hmem he
    cases hmem
    cases deleted with
    | none => exact ⟨rfl, rfl, by simp [scanFails, Look.fails]⟩
    | some f => exact absurd he (endResult_fault f)
  | missing =>
    refine reports_of [] (some errorEnoent) rfl hw rfl hcov fun _ _ _ => ?_
    exact ⟨rfl, rfl, by simp [scanFails, Look.fails, Look.chain]⟩
  | failed f =>
    refine reports_of [] (some f.code) rfl hw rfl hcov ?_
    simp [endResult_fault f]

/-- The loop of `hammer2_xop_readdir` feeds the chains up to its bound. -/
theorem readdirLoop_eq (nmax error fed : Nat) (cs : List FedChain) :
    readdirLoop nmax error fed cs =
      if fed < nmax ∧ nmax ≤ fed + cs.length then entriesOf (cs.take (nmax - fed)) (some 0)
      else entriesOf cs (some error) := by
  induction cs generalizing fed with
  | nil =>
    rw [if_neg (by simp)]
    rfl
  | cons c cs ih =>
    rw [readdirLoop]
    by_cases hlast : fed + 1 = nmax
    · have hone : nmax - fed = 1 := by omega
      rw [if_pos hlast, if_pos (by simp only [List.length_cons]; omega), hone]
      rfl
    · rw [if_neg hlast, ih]
      by_cases hin : fed + 1 < nmax ∧ nmax ≤ fed + 1 + cs.length
      · have hsub : nmax - fed = (nmax - (fed + 1)) + 1 := by omega
        rw [if_pos hin, if_pos (by simp only [List.length_cons]; omega), hsub]
        rfl
      · rw [if_neg hin, if_neg (by simp only [List.length_cons]; omega)]
        rfl

section
variable (exact : Look) (rest : Scan) (nmax : Nat)

/-- The entries of `hammer2_xop_readdir` when the inode's chain is there. -/
theorem Backend.readdir_feeds : (Backend.readdir true exact rest nmax).feeds =
    if readdirBounded exact rest nmax then
      entriesOf ((exact.chain.toList ++ rest.chains).take nmax) (some 0)
    else entriesOf (exact.chain.toList ++ rest.chains) (some rest.error) := by
  simp only [feeds, xopReaddir, if_true, readdirLoop_eq, Nat.zero_add, Nat.sub_zero]
  rfl

/-- The chains that `hammer2_xop_readdir` feeds are those it is asked for. -/
theorem Backend.readdir_chainFails_iff : (Backend.readdir true exact rest nmax).chainFails ↔
    ∃ c ∈ readdirAsked exact rest nmax, c.error ≠ 0 := by
  have hfed : (Backend.readdir true exact rest nmax).fed = readdirAsked exact rest nmax := by
    rw [fed, readdir_feeds]
    by_cases hbound : readdirBounded exact rest nmax
    · rw [if_pos hbound, entriesOf_chains, readdirAsked, if_pos hbound.1]
    · rw [if_neg hbound, entriesOf_chains, readdirAsked]
      split
      · next hpos =>
        refine (List.take_of_length_le ?_).symm
        by_contra hlt
        exact hbound ⟨hpos, (Nat.lt_of_not_le hlt).le⟩
      · rfl
  rw [chainFails_iff, hfed]

/-- `hammer2_xop_readdir` reads as absence unless the scan behind the first lookup fails. -/
theorem Backend.readdir_ends (hw : WellFed (Backend.readdir true exact rest nmax).fed) :
    (Backend.readdir true exact rest nmax).OneEnd ∧
    ((Backend.readdir true exact rest nmax).Ends errorEnoent ↔
      ¬ (Backend.readdir true exact rest nmax).chainFails ∧
      ¬ (Backend.readdir true exact rest nmax).scanFails) := by
  have hb := readdir_feeds exact rest nmax
  by_cases hbound : readdirBounded exact rest nmax
  · rw [if_pos hbound] at hb
    refine ⟨⟨_, _, hb⟩, ?_⟩
    rw [ends_enoent_iff hb hw]
    simp [scanFails, hbound, endResult_zero]
  · rw [if_neg hbound] at hb
    refine ⟨⟨_, _, hb⟩, ?_⟩
    rw [ends_enoent_iff hb hw]
    simp [scanFails, hbound, endResult_scan]

/-- A readdir reports its errors if its scan is careful. -/
theorem Backend.readdir_reports_iff (parent : Bool)
    (hw : WellFed (Backend.readdir parent exact rest nmax).fed) :
    (Backend.readdir parent exact rest nmax).Reports ↔
      (Backend.readdir parent exact rest nmax).Careful := by
  cases parent with
  | false =>
    have hb : (Backend.readdir false exact rest nmax).feeds = entriesOf [] (some 0) := rfl
    have hends : (Backend.readdir false exact rest nmax).Ends errorEnoent :=
      (ends_iff hb ⟨.nil, nofun, nofun⟩ _).2 (by decide)
    constructor
    · intro hrep
      exact absurd (.inl rfl) (((reports_iff hb hw).1 hrep).1 hends).1
    · rintro ⟨h, -⟩
      cases h
  | true =>
    obtain ⟨hone, hends⟩ := readdir_ends exact rest nmax hw
    have hb : ∃ cs last, (Backend.readdir true exact rest nmax).feeds = entriesOf cs last := by
      rw [readdir_feeds]
      split <;> exact ⟨_, _, rfl⟩
    obtain ⟨cs, last, hb⟩ := hb
    rw [reports_iff hb hw, hends, Careful, ← readdir_chainFails_iff]
    constructor
    · rintro ⟨hread, -⟩
      refine ⟨rfl, fun hfirst => ?_⟩
      by_contra hno
      rw [not_or] at hno
      exact (hread ⟨hno.2, hno.1⟩).1 (.inr (.inl hfirst))
    · rintro ⟨-, hcare⟩
      refine ⟨fun ⟨hchain, hscan⟩ => ⟨?_, rfl, hscan, hchain⟩, hone⟩
      rintro (h | h | h | h)
      · cases h
      · exact (hcare h).elim hscan hchain
      · exact hscan h
      · exact hchain h

end

/-- A backend that feeds nothing feeds no end. -/
theorem Backend.not_reports_of_nil (hb : b.feeds = []) : ¬ b.Reports := by
  intro h
  have hone := h.oneEnd
  rw [OneEnd, hb] at hone
  split at hone
  · obtain ⟨cs, error, he⟩ := hone
    simp [entriesOf] at he
  · cases hone

/-- **An error reads as absence**, or the element gets no end, exactly when the inode's chain cannot
be resolved in `hammer2_xop_readdir`, `hammer2_xop_scanall`, `hammer2_xop_lookup` or
`hammer2_xop_delete`, or the first lookup of `hammer2_xop_readdir` fails and nothing behind it. -/
theorem backend_reports_iff (b : Backend) (hw : WellFed b.fed) : b.Reports ↔ b.Careful := by
  cases b with
  | ipcluster chain => exact iff_of_true (Backend.ipcluster_reports chain hw) trivial
  | readdir parent exact rest nmax => exact Backend.readdir_reports_iff exact rest nmax parent hw
  | nresolve parent scan test inode =>
    exact iff_of_true (Backend.nresolve_reports parent scan test inode hw) trivial
  | scanlhc parent scan =>
    refine iff_of_true ?_ trivial
    cases parent with
    | false => exact Backend.fault_reports rfl hw fun h₁ h₂ h₃ => ⟨h₁, h₂, h₃⟩
    | true => exact Backend.scan_reports rfl hw rfl rfl rfl Iff.rfl fun h₁ h₂ h₃ => ⟨h₁, h₂, h₃⟩
  | lookup parent look =>
    cases parent with
    | false => exact iff_of_false (Backend.not_reports_of_nil rfl) (by simp [Backend.Careful])
    | true =>
      refine iff_of_true ?_ rfl
      exact Backend.look_reports rfl hw rfl rfl rfl Iff.rfl fun h₁ h₂ h₃ => ⟨h₁, h₂, h₃⟩
  | delete parent look deleted =>
    cases parent with
    | false => exact iff_of_false (Backend.not_reports_of_nil rfl) (by simp [Backend.Careful])
    | true => exact iff_of_true (Backend.delete_reports look deleted hw) rfl
  | scanall parent scan =>
    cases parent with
    | false =>
      refine iff_of_false (fun h => ?_) (by simp [Backend.Careful])
      have hb : (Backend.scanall false scan).feeds = entriesOf [] (some 0) := rfl
      have hends := (Backend.ends_iff hb ⟨.nil, nofun, nofun⟩ errorEnoent).2 (by decide)
      exact (((Backend.reports_iff hb hw).1 h).1 hends).1 (.inl rfl)
    | true =>
      refine iff_of_true ?_ rfl
      exact Backend.scan_reports rfl hw rfl rfl rfl Iff.rfl fun h₁ h₂ h₃ => ⟨h₁, h₂, h₃⟩
  | bmap parent look =>
    refine iff_of_true ?_ trivial
    cases parent with
    | false => exact Backend.fault_reports rfl hw fun h₁ h₂ h₃ => ⟨h₁, h₂, h₃⟩
    | true => exact Backend.look_reports rfl hw rfl rfl rfl Iff.rfl fun h₁ h₂ h₃ => ⟨h₁, h₂, h₃⟩

end

/-! ## A directory whose chain cannot be read -/

/-- An I/O error. -/
def Fault.eio : Fault := ⟨errorEio, by decide, by decide, by decide, by decide⟩

/-- A directory entry. -/
def oneEntry : FedChain := ⟨0, .dirent, 5, 0, 1, 0, 0, false⟩

/-- A directory with an entry, whose scan fails behind it: the frontend gets the error. -/
theorem backend_reports_cut :
    let b := Backend.readdir true .missing ⟨[oneEntry], some .eio⟩ 0
    WellFed b.fed ∧ b.Careful ∧ b.Fails ∧ b.Reports := by
  have hw : WellFed (Backend.readdir true .missing ⟨[oneEntry], some .eio⟩ 0).fed := by
    refine ⟨List.pairwise_singleton _ oneEntry, ?_, ?_⟩ <;>
      exact fun c hc => (List.mem_singleton.1 hc) ▸ (by decide)
  have hcare : (Backend.readdir true .missing ⟨[oneEntry], some .eio⟩ 0).Careful := ⟨rfl, nofun⟩
  refine ⟨hw, hcare, .inr (.inr (.inl ⟨?_, rfl⟩)), (backend_reports_iff _ hw).2 hcare⟩
  exact fun h => absurd h.1 (by decide)

/-- A directory whose chain cannot be resolved reads as empty, whatever it holds. -/
theorem backend_absent :
    let b := Backend.readdir false .missing ⟨[oneEntry], none⟩ 0
    b.Fails ∧ b.Ends errorEnoent ∧ ¬ b.Covered ∧ (Backend.lookup false .missing).feeds = [] := by
  refine ⟨.inl rfl, ⟨1, ?_⟩, fun h => Bool.false_ne_true h.1, rfl⟩
  decide

end Hammer2
