import Hammer2.Xop.Collect

/-!
# The quorum of a cluster

`hammer2_cluster_check` looks at what the elements of a cluster hold for a key, or at their ends
when none holds a chain any more. Its first pass counts masters and slaves. The second looks for the
highest transaction id that a quorum of masters holds, by sweeps over the elements, each for the
highest id below that of the sweep before (`quorumLoop`). The third and fourth mark the elements
that agree with the quorum.

A sweep counts exactly the masters that hold its id (`sweep_spec`), and the loop ends with the
highest id a quorum holds, or there is none below `HAMMER2_TID_MAX` (`quorumLoop_spec`). At the end
of a scan the masters that ended with an error are counted as well, and the first error met is the
result: one `ENOENT` before it hides any other (`clusterCheck_unsafe`).

Reference: `hammer2_cluster.c:141-510`, `hammer2.h:435-490`.
-/

namespace Hammer2

/-! ## Elements -/

/-- `HAMMER2_PFSTYPE_*`. -/
inductive ElementKind
  | none | cache | slave | softSlave | softMaster | master | suproot | dummy
  deriving DecidableEq, Repr

/-- The element counts towards the quorum. -/
def ElementKind.votes : ElementKind → Bool
  | .master => true
  | .suproot => true
  | _ => false

/-- `HAMMER2_KEY_MAX`. -/
def keyMax : Nat := 2 ^ 64 - 1

/-- `HAMMER2_TID_MAX`. -/
def tidMax : Nat := 2 ^ 64 - 1

/-- What is read of a chain that an element has fed; `ref` tells the references apart. -/
structure FedChain where
  ref : Nat
  type : BrefType
  key : Nat
  keybits : Nat
  modifyTid : Nat
  bytes : Nat
  error : Nat
  pfsboundary : Bool
  deriving DecidableEq

/-- An entry of a FIFO, as `hammer2_xop_feed` makes it: a chain's own error is handed on. -/
structure Feed where
  chain : Option FedChain
  error : Nat
  fed : ∀ c, chain = some c → error = 0 → c.error = 0

/-- An entry without a chain. -/
theorem Feed.fed_none : ∀ c : FedChain, none = some c → 0 = 0 → c.error = 0 := by
  rintro _ ⟨⟩

/-- `hammer2_cluster_item_t`, with the type of its element. The flags are `CITEM_NULL`,
`CITEM_FEMOD` and `CITEM_INVALID`. -/
structure CItem extends Feed where
  kind : ElementKind
  null : Bool
  femod : Bool
  invalid : Bool

/-- `HAMMER2_CLUSTER_*`, as far as the check sets them. -/
structure ClusterFlags where
  wrhard : Bool
  rdhard : Bool
  nohard : Bool
  wrsoft : Bool
  rdsoft : Bool
  nosoft : Bool
  msynced : Bool
  ssynced : Bool
  deriving DecidableEq

/-- No flag. -/
def ClusterFlags.zero : ClusterFlags := ⟨false, false, false, false, false, false, false, false⟩

/-- `key == (hammer2_key_t)-1 || chain->bref.key == key`. -/
def FedChain.matchesKey (key : Nat) (c : FedChain) : Bool := key = keyMax ∨ c.key = key

/-! ## The first pass -/

/-- What the first pass finds. -/
structure Census where
  ttlmasters : Nat
  ttlslaves : Nat
  flags : ClusterFlags
  focus : Option FedChain
  focusIndex : Nat
  error : Nat

/-- The first pass at one element. -/
def censusStep (acc : Census) (p : CItem × Nat) : Census :=
  if p.1.chain.isSome ∧ p.1.error ≠ 0 then
    match p.1.kind with
    | .suproot => { acc with ttlmasters := acc.ttlmasters + 1 }
    | .master => { acc with ttlmasters := acc.ttlmasters + 1 }
    | .slave => { acc with ttlslaves := acc.ttlslaves + 1 }
    | _ => acc
  else
    match p.1.kind with
    | .master => { acc with ttlmasters := acc.ttlmasters + 1 }
    | .slave => { acc with ttlslaves := acc.ttlslaves + 1 }
    | .softMaster => { acc with flags := { acc.flags with wrsoft := true, rdsoft := true } }
    | .softSlave => { acc with flags := { acc.flags with rdsoft := true } }
    | .suproot =>
      { ttlmasters := acc.ttlmasters + 1
        ttlslaves := acc.ttlslaves
        flags := { acc.flags with wrhard := true, rdhard := true }
        focus := p.1.chain
        focusIndex := p.2
        error := p.1.error }
    | _ => acc

/-- The first pass. -/
def census (focusIndex : Nat) (items : List CItem) : Census :=
  items.zipIdx.foldl censusStep ⟨0, 0, .zero, none, focusIndex, 0⟩

/-! ## The second pass -/

/-- The variables of the second pass. -/
structure Vote where
  nmasters : Nat
  umasters : Nat
  xmasters : Nat
  nmastersKeymatch : Nat
  quorumTid : Nat
  focus : Option FedChain
  focusIndex : Nat
  error : Nat

/-- A master that holds a chain for the key. -/
def Vote.count (last : Nat) (v : Vote) (c : FedChain) (i : Nat) : Vote :=
  let v₁ := { v with nmastersKeymatch := v.nmastersKeymatch + 1 }
  let v₂ := if c.modifyTid < last ∧ v.quorumTid < c.modifyTid then
    { v₁ with nmasters := 0, quorumTid := c.modifyTid } else v₁
  if v₂.quorumTid = c.modifyTid then
    let v₃ := { v₂ with nmasters := v₂.nmasters + 1 }
    if c.error = 0 then { v₃ with focus := some c, focusIndex := i } else v₃
  else v₂

/-- A sweep at one element; `null` is `HAMMER2_CHECK_NULL` and `last` the id that the sweep before
has found. -/
def sweepStep (key : Nat) (null : Bool) (last : Nat) (v : Vote) (p : CItem × Nat) : Vote :=
  if p.1.kind.votes then
    match p.1.chain with
    | none =>
      if p.1.null = false then { v with umasters := v.umasters + 1 }
      else if disconnected p.1.error then { v with xmasters := v.xmasters + 1 }
      else if null then
        { v with
          nmasters := v.nmasters + 1
          nmastersKeymatch := v.nmastersKeymatch + 1
          error := if v.error = 0 then p.1.error else v.error }
      else v
    | some c =>
      if null then v
      else if c.matchesKey key then v.count last c p.2
      else v
  else v

/-- One sweep. The focus and the error stay from the sweep before. -/
def sweep (key : Nat) (null : Bool) (last : Nat) (items : List CItem) (v : Vote) : Vote :=
  items.zipIdx.foldl (sweepStep key null last)
    ⟨0, 0, 0, 0, 0, v.focus, v.focusIndex, v.error⟩

/-- The loop over the sweeps. Each but the last lowers `last` to an id that a master holds, so that
as many sweeps as there are elements, and one, are enough (`quorumLoop_spec`). -/
def quorumLoop (nquorum key : Nat) (null : Bool) (items : List CItem) : Nat → Nat → Vote → Vote
  | 0, _, v => v
  | n + 1, last, v =>
    if v.nmasters < nquorum ∧ last ≠ 0 then
      let v' := sweep key null last items v
      if nquorum ≤ v'.nmasters then v' else quorumLoop nquorum key null items n v'.quorumTid v'
    else v

/-! ## The third and the fourth pass -/

/-- The element agrees with the quorum. -/
def CItem.agrees (key tid : Nat) (it : CItem) : Bool :=
  it.chain.any fun c => c.key = key ∧ c.modifyTid = tid

/-- The third pass at one element. -/
def CItem.validate (key tid : Nat) (it : CItem) : CItem :=
  if it.agrees key tid then
    match it.kind with
    | .master => { it with femod := true, invalid := false }
    | .slave => { it with invalid := false }
    | .softMaster => { it with femod := true, invalid := false }
    | .softSlave => { it with invalid := false }
    | .suproot => { it with femod := true, invalid := false }
    | _ => it
  else it

/-- The flags that the third pass sets for an element that agrees. -/
def ClusterFlags.validate (f : ClusterFlags) : ElementKind → ClusterFlags
  | .master => { f with wrhard := true, rdhard := true }
  | .slave => { f with rdhard := true }
  | .suproot => { f with wrhard := true, rdhard := true }
  | _ => f

/-- The fourth pass at one element. -/
def CItem.compare (focus : FedChain) (it : CItem) : CItem :=
  match it.chain with
  | none => it
  | some c =>
    if c.ref = focus.ref ∨ it.invalid = true then it
    else if c.type ≠ focus.type ∨ c.key ≠ focus.key ∨ c.keybits ≠ focus.keybits ∨
        c.modifyTid ≠ focus.modifyTid ∨ c.bytes ≠ focus.bytes then { it with invalid := true }
    else it

/-! ## The check -/

/-- What the check leaves in the cluster, and its result. -/
structure Checked where
  result : Nat
  items : List CItem
  error : Nat
  focus : Option FedChain
  focusIndex : Nat
  /-- Set with the flags when the passes are gone through. -/
  ddflag : Option Bool
  flags : Option ClusterFlags
  /-- The masters found to agree. -/
  nmasters : Nat

/-- The error kept by a pass that takes the first one it meets. -/
def firstError (error : Nat) (items : List CItem) : Nat :=
  items.foldl (fun acc it => if acc = 0 then it.error else acc) error

/-- What the first pass does to the flags of an element. -/
def CItem.reset (it : CItem) : CItem := { it with femod := false, invalid := true }

/-- The second pass, behind the first. It does not read the flags that the first pass resets. -/
def secondPass (nmasters focusIndex : Nat) (items : List CItem) (key : Nat) (null : Bool) : Vote :=
  let cen := census focusIndex items
  quorumLoop (quorum nmasters) key null items (items.length + 1) tidMax
    ⟨0, 0, 0, 0, 0, cen.focus, cen.focusIndex, cen.error⟩

/-- The return without quorum. -/
def noQuorum (nmasters ttlmasters : Nat) (v : Vote) : Nat :=
  if quorum nmasters ≤ v.nmasters + v.umasters then errorEinprogress
  else if 0 < v.xmasters ∨ ttlmasters < nmasters then errorEnotconn
  else if v.nmastersKeymatch < quorum nmasters then errorEsrch
  else errorEdeadlk

/-- A return before the third pass. -/
def Vote.stop (v : Vote) (items : List CItem) (result error : Nat) : Checked :=
  ⟨result, items.map CItem.reset, error, v.focus, v.focusIndex, none, none, v.nmasters⟩

/-- The third and the fourth pass. -/
def validatePass (cen : Census) (items : List CItem) (key : Nat) (v : Vote) (focus : FedChain) :
    Checked :=
  let agree := items.filter (·.agrees key v.quorumTid)
  let error := firstError 0 agree
  let items₃ := items.map fun it => it.reset.validate key v.quorumTid
  let items₄ := if focus.pfsboundary then items₃ else items₃.map (·.compare focus)
  let flags := agree.foldl (fun f it => f.validate it.kind) cen.flags
  ⟨error, items₄, error, some focus, v.focusIndex, some (focus.type = .inode),
    some { flags with
      nosoft := flags.nosoft || cen.ttlslaves = 0
      nohard := flags.nohard || cen.ttlmasters = 0
      ssynced := agree.countP (·.kind = .slave) = cen.ttlslaves
      msynced := v.nmasters = cen.ttlmasters }, v.nmasters⟩

/-- `hammer2_cluster_check`; `focusIndex` is what the cluster has from before. -/
def clusterCheck (nmasters focusIndex : Nat) (items : List CItem) (key : Nat) (null : Bool) :
    Checked :=
  let cen := census focusIndex items
  let v := secondPass nmasters focusIndex items key null
  if v.nmasters < quorum nmasters then v.stop items (noQuorum nmasters cen.ttlmasters v) v.error
  else if null then
    let error := if v.error = 0 then errorEnoent else v.error
    v.stop items error error
  else
    match v.focus with
    | none => v.stop items errorEio v.error
    | some focus => validatePass cen items key v focus

/-! ## What the elements hold -/

/-- A master that holds `tid` for the key. -/
def CItem.holds (key tid : Nat) (it : CItem) : Bool :=
  it.kind.votes && it.chain.any fun c => c.matchesKey key && c.modifyTid == tid

/-- The masters that hold `tid` for the key. -/
def votes (items : List CItem) (key tid : Nat) : Nat := items.countP (·.holds key tid)

/-- A master whose chain is for the key. -/
def CItem.hasKey (key : Nat) (it : CItem) : Bool := it.kind.votes && it.chain.any (·.matchesKey key)

/-- A master that may still feed something. -/
def CItem.pending (it : CItem) : Bool := it.kind.votes && it.chain.isNone && !it.null

/-- A master that has ended as out of reach. -/
def CItem.cutOff (it : CItem) : Bool :=
  it.kind.votes && it.chain.isNone && it.null && disconnected it.error

/-- A master that has ended otherwise. -/
def CItem.ended (it : CItem) : Bool :=
  it.kind.votes && it.chain.isNone && it.null && !disconnected it.error

/-- A master that has ended with no error or `ENOENT`. -/
def CItem.cleanEnd (it : CItem) : Bool :=
  it.kind.votes && it.chain.isNone && it.null && (it.error == 0 || it.error == errorEnoent)

/-- The first error that the second pass meets at the end of a scan, behind that of the super-root
from the first pass. -/
def endError (items : List CItem) : Nat :=
  firstError (census 0 items).error (items.filter (·.ended))

section
variable {key tid last : Nat} {it : CItem} {c : FedChain} {ps : List (CItem × Nat)} {v v₀ : Vote}

/-- An element that has the key with a `modify_tid`. -/
theorem CItem.holds_iff : it.holds key tid = true ↔
    it.kind.votes = true ∧ ∃ c, it.chain = some c ∧ c.matchesKey key = true ∧
      c.modifyTid = tid := by
  simp [CItem.holds, Option.any_eq_true]

/-- An element that has the key. -/
theorem CItem.hasKey_iff : it.hasKey key = true ↔
    it.kind.votes = true ∧ ∃ c, it.chain = some c ∧ c.matchesKey key = true := by
  simp [CItem.hasKey, Option.any_eq_true]

/-! ## One sweep for a key -/

/-- What a sweep below `last` has found in the elements `ps`. -/
structure Swept (key last : Nat) (ps : List (CItem × Nat)) (v₀ v : Vote) : Prop where
  below : v.quorumTid = 0 ∨ v.quorumTid < last ∧ ∃ p ∈ ps, p.1.holds key v.quorumTid = true
  highest : ∀ p ∈ ps, ∀ tid < last, p.1.holds key tid = true → tid ≤ v.quorumTid
  nmasters : v.nmasters = ps.countP fun p => p.1.holds key v.quorumTid
  keymatch : v.nmastersKeymatch = ps.countP fun p => p.1.hasKey key
  umasters : v.umasters = ps.countP fun p => p.1.pending
  xmasters : v.xmasters = ps.countP fun p => p.1.cutOff
  error : v.error = v₀.error
  /-- An error-free chain with the id found is the focus if there is one. -/
  focus : (∃ p ∈ ps, p.1.holds key v.quorumTid = true ∧ ∀ c, p.1.chain = some c → c.error = 0) →
    ∃ p ∈ ps, p.1.holds key v.quorumTid = true ∧ p.1.chain = v.focus ∧ v.focusIndex = p.2 ∧
      ∀ c, p.1.chain = some c → c.error = 0

theorem Swept.nil : Swept key last [] v₀ ⟨0, 0, 0, 0, 0, v₀.focus, v₀.focusIndex, v₀.error⟩ :=
  ⟨.inl rfl, by simp, rfl, rfl, rfl, rfl, rfl, by simp⟩

variable {p : CItem × Nat} {i error : Nat}

/-- An element that holds no higher id than the one found, and not that one, changes only the other
counts. -/
theorem Swept.other (h : Swept key last ps v₀ v) (hno : p.1.holds key v.quorumTid = false)
    (hle : ∀ tid < last, p.1.holds key tid = true → tid ≤ v.quorumTid) :
    Swept key last (ps ++ [p]) v₀ { v with
      nmastersKeymatch := v.nmastersKeymatch + if p.1.hasKey key then 1 else 0
      umasters := v.umasters + if p.1.pending then 1 else 0
      xmasters := v.xmasters + if p.1.cutOff then 1 else 0 } := by
  refine ⟨?_, ?_, ?_, ?_, ?_, ?_, h.error, ?_⟩
  · exact h.below.imp_right fun ⟨hlt, q, hq, hh⟩ => ⟨hlt, q, List.mem_append_left _ hq, hh⟩
  · intro q hq tid hlt hh
    rcases List.mem_append.1 hq with hq | hq
    · exact h.highest q hq tid hlt hh
    · rw [List.mem_singleton.1 hq] at hh
      exact hle tid hlt hh
  · simp [List.countP_append, hno, ← h.nmasters]
  · simp [List.countP_append, List.countP_singleton, ← h.keymatch]
  · simp [List.countP_append, List.countP_singleton, ← h.umasters]
  · simp [List.countP_append, List.countP_singleton, ← h.xmasters]
  · rintro ⟨q, hq, hh, hc⟩
    rcases List.mem_append.1 hq with hq | hq
    · obtain ⟨q', hq', hrest⟩ := h.focus ⟨q, hq, hh, hc⟩
      exact ⟨q', List.mem_append_left _ hq', hrest⟩
    · rw [List.mem_singleton.1 hq, hno] at hh
      cases hh

/-- An element that is no master with a chain for the key. -/
theorem Swept.pass (h : Swept key last ps v₀ v) (hp : p.1.hasKey key = false) :
    Swept key last (ps ++ [p]) v₀ { v with
      umasters := v.umasters + if p.1.pending then 1 else 0
      xmasters := v.xmasters + if p.1.cutOff then 1 else 0 } := by
  have hno : ∀ tid, p.1.holds key tid = false := by
    intro tid
    by_contra hh
    obtain ⟨hv, c, hc, hm, -⟩ := CItem.holds_iff.1 (by simpa using hh)
    rw [CItem.hasKey_iff.2 ⟨hv, c, hc, hm⟩] at hp
    cases hp
  simpa [hp] using h.other (hno _) fun tid _ hh => by simp [hno] at hh

/-- A higher id starts a new count. -/
theorem Vote.count_higher (h : c.modifyTid < last ∧ v.quorumTid < c.modifyTid) :
    v.count last c i = { v with
      nmastersKeymatch := v.nmastersKeymatch + 1
      nmasters := 1
      quorumTid := c.modifyTid
      focus := if c.error = 0 then some c else v.focus
      focusIndex := if c.error = 0 then i else v.focusIndex } := by
  by_cases he : c.error = 0 <;> simp [Vote.count, h, he]

/-- The id of the count. -/
theorem Vote.count_same (h : v.quorumTid = c.modifyTid) :
    v.count last c i = { v with
      nmastersKeymatch := v.nmastersKeymatch + 1
      nmasters := v.nmasters + 1
      focus := if c.error = 0 then some c else v.focus
      focusIndex := if c.error = 0 then i else v.focusIndex } := by
  by_cases he : c.error = 0 <;> simp [Vote.count, h, he]

/-- Any other id. -/
theorem Vote.count_other (h : ¬ (c.modifyTid < last ∧ v.quorumTid < c.modifyTid))
    (hne : v.quorumTid ≠ c.modifyTid) :
    v.count last c i = { v with nmastersKeymatch := v.nmastersKeymatch + 1 } := by
  simp [Vote.count, h, hne]

/-- The focus goes to the last element if its chain is error-free, and else stays. -/
theorem Swept.refocus {focus : Option FedChain} (hc : p.1.chain = some c)
    (hp : p.1.holds key tid = true)
    (h : (∃ q ∈ ps, q.1.holds key tid = true ∧ ∀ d, q.1.chain = some d → d.error = 0) →
      ∃ q ∈ ps, q.1.holds key tid = true ∧ q.1.chain = focus ∧ i = q.2 ∧
        ∀ d, q.1.chain = some d → d.error = 0) :
    (∃ q ∈ ps ++ [p], q.1.holds key tid = true ∧ ∀ d, q.1.chain = some d → d.error = 0) →
      ∃ q ∈ ps ++ [p], q.1.holds key tid = true ∧
        q.1.chain = (if c.error = 0 then some c else focus) ∧
        (if c.error = 0 then p.2 else i) = q.2 ∧ ∀ d, q.1.chain = some d → d.error = 0 := by
  rintro ⟨q, hq, hh, hd⟩
  by_cases he : c.error = 0
  · exact ⟨p, by simp, hp, by simp [he, hc], by simp [he], by simpa [hc] using he⟩
  · simp only [if_neg he]
    rcases List.mem_append.1 hq with hq | hq
    · obtain ⟨q', hq', hrest⟩ := h ⟨q, hq, hh, hd⟩
      exact ⟨q', List.mem_append_left _ hq', hrest⟩
    · rw [List.mem_singleton.1 hq] at hd
      exact absurd (hd c hc) he

/-- A master with a chain for the key. -/
theorem Swept.count (h : Swept key last ps v₀ v) (hp : p.1.hasKey key = true)
    (hc : p.1.chain = some c) :
    Swept key last (ps ++ [p]) v₀ (v.count last c p.2) := by
  obtain ⟨hv, c', hc', hm⟩ := CItem.hasKey_iff.1 hp
  obtain rfl : c' = c := Option.some.inj (hc'.symm.trans hc)
  have hholds : ∀ tid, p.1.holds key tid = true ↔ tid = c'.modifyTid := by
    intro tid
    rw [CItem.holds_iff]
    constructor
    · rintro ⟨-, d, hd, -, rfl⟩
      rw [Option.some.inj (hd.symm.trans hc)]
    · rintro rfl
      exact ⟨hv, c', hc, hm, rfl⟩
  have hpend : p.1.pending = false := by simp [CItem.pending, hc]
  have hcut : p.1.cutOff = false := by simp [CItem.cutOff, hc]
  have hkeymatch : v.nmastersKeymatch + 1 = (ps ++ [p]).countP fun q => q.1.hasKey key := by
    simp [List.countP_append, hp, ← h.keymatch]
  have humasters : v.umasters = (ps ++ [p]).countP fun q => q.1.pending := by
    simp [List.countP_append, hpend, ← h.umasters]
  have hxmasters : v.xmasters = (ps ++ [p]).countP fun q => q.1.cutOff := by
    simp [List.countP_append, hcut, ← h.xmasters]
  by_cases hhigher : c'.modifyTid < last ∧ v.quorumTid < c'.modifyTid
  · -- No element before holds the new id.
    have hnew : ∀ q ∈ ps, q.1.holds key c'.modifyTid = false := by
      intro q hq
      by_contra hh
      have := h.highest q hq _ hhigher.1 (by simpa using hh)
      omega
    rw [Vote.count_higher hhigher]
    refine ⟨.inr ⟨hhigher.1, p, by simp, (hholds _).2 rfl⟩, ?_, ?_, hkeymatch, humasters, hxmasters,
      h.error, ?_⟩
    · intro q hq tid hlt hh
      rcases List.mem_append.1 hq with hq | hq
      · exact (h.highest q hq tid hlt hh).trans hhigher.2.le
      · rw [List.mem_singleton.1 hq] at hh
        exact ((hholds tid).1 hh).le
    · have hzero : (ps.countP fun q => q.1.holds key c'.modifyTid) = 0 :=
        List.countP_eq_zero.2 fun q hq => by simp [hnew q hq]
      simp [List.countP_append, hzero, (hholds _).2 rfl]
    · refine Swept.refocus hc (by simpa using (hholds _).2 rfl) ?_
      rintro ⟨q, hq, hh, -⟩
      rw [hnew q hq] at hh
      cases hh
  · by_cases hsame : v.quorumTid = c'.modifyTid
    · rw [Vote.count_same hsame]
      refine ⟨?_, ?_, ?_, hkeymatch, humasters, hxmasters, h.error, ?_⟩
      · exact h.below.imp_right fun ⟨hlt, q, hq, hh⟩ => ⟨hlt, q, List.mem_append_left _ hq, hh⟩
      · intro q hq tid hlt hh
        rcases List.mem_append.1 hq with hq | hq
        · exact h.highest q hq tid hlt hh
        · rw [List.mem_singleton.1 hq] at hh
          exact (((hholds tid).1 hh).trans hsame.symm).le
      · simp [List.countP_append, ← h.nmasters, (hholds _).2 hsame]
      · exact Swept.refocus hc ((hholds _).2 hsame) h.focus
    · rw [Vote.count_other hhigher hsame]
      have hno : p.1.holds key v.quorumTid = false := by
        by_contra hh
        exact hsame ((hholds _).1 (by simpa using hh))
      have hother := h.other hno fun tid hlt hh => by
        obtain rfl := (hholds tid).1 hh
        exact Nat.le_of_not_lt fun hlt' => hhigher ⟨hlt, hlt'⟩
      simpa [hp, hpend, hcut] using hother

/-- **A sweep** finds the highest id below `last` and counts the masters that hold it. -/
theorem sweep_spec (key last : Nat) (items : List CItem) (v : Vote) :
    Swept key last items.zipIdx v (sweep key false last items v) := by
  unfold sweep
  generalize items.zipIdx = ps
  induction ps using List.reverseRecOn with
  | nil => exact Swept.nil
  | append_singleton ps p ih =>
    rw [List.foldl_append, List.foldl_cons, List.foldl_nil]
    generalize List.foldl (sweepStep key false last) _ ps = w at ih ⊢
    unfold sweepStep
    by_cases hv : p.1.kind.votes = true
    · rw [if_pos hv]
      cases hc : p.1.chain with
      | none =>
        have hno : p.1.hasKey key = false := by simp [CItem.hasKey, hc]
        have := ih.pass hno
        by_cases hnull : p.1.null = false
        · simpa [CItem.pending, CItem.cutOff, hv, hc, hnull] using this
        · by_cases hd : disconnected p.1.error = true
          · simpa [CItem.pending, CItem.cutOff, hv, hc, hnull, hd] using this
          · simpa [CItem.pending, CItem.cutOff, hv, hc, hnull, hd] using this
      | some c =>
        by_cases hm : c.matchesKey key = true
        · simpa [hm] using ih.count (CItem.hasKey_iff.2 ⟨hv, c, hc, hm⟩) hc
        · have hno : p.1.hasKey key = false := by simp [CItem.hasKey, hc, hm]
          simpa [CItem.pending, CItem.cutOff, hc, hm] using ih.pass hno
    · have hno : p.1.hasKey key = false := by simp [CItem.hasKey, hv]
      simpa [CItem.pending, CItem.cutOff, hv] using ih.pass hno

/-! ## The loop -/

variable {items : List CItem} {nquorum : Nat}

theorem countP_zipIdx (f : CItem → Bool) : (items.zipIdx.countP fun p => f p.1) =
    items.countP f := by
  conv_rhs => rw [← List.zipIdx_map_fst 0 items, List.countP_map]
  rfl

theorem exists_mem_zipIdx (h : it ∈ items) : ∃ i, (it, i) ∈ items.zipIdx := by
  obtain ⟨i, hi, rfl⟩ := List.getElem_of_mem h
  exact ⟨i, List.mk_mem_zipIdx_iff_getElem?.2 (by simp [hi])⟩

/-- The masters that hold an id below `last`. -/
def belowTid (items : List CItem) (key last : Nat) : Nat :=
  items.countP fun it => it.kind.votes && it.chain.any fun c =>
    c.matchesKey key && c.modifyTid < last

/-- A lower `modify_tid` leaves fewer below it. -/
theorem belowTid_lt {tid : Nat} (hlt : tid < last) (hit : it ∈ items)
    (hh : it.holds key tid = true) :
    belowTid items key tid < belowTid items key last := by
  obtain ⟨hv, c, hc, hm, rfl⟩ := CItem.holds_iff.1 hh
  obtain ⟨l, r, rfl⟩ := List.append_of_mem hit
  have hle : ∀ xs : List CItem, belowTid xs key c.modifyTid ≤ belowTid xs key last := by
    intro xs
    refine List.countP_mono_left fun x _ hx => ?_
    simp only [Bool.and_eq_true, Option.any_eq_true, decide_eq_true_eq] at hx ⊢
    obtain ⟨hx, d, hd, hdm, hdt⟩ := hx
    exact ⟨hx, d, hd, hdm, hdt.trans hlt⟩
  have hl := hle l
  have hr := hle r
  unfold belowTid at *
  simp only [List.countP_append, List.countP_cons, hv, hc, hm, hlt, Option.any_some, Bool.and_true,
    Bool.true_and, decide_true, if_true, lt_irrefl, decide_false, Bool.false_eq_true, if_false]
  omega

/-- How the loop ends: with a sweep below `stop` that finds a quorum or no id any more, and no id
from there up to `last` has a quorum. -/
structure Looped (nquorum key last : Nat) (items : List CItem) (v₀ v : Vote) (stop : Nat) :
    Prop where
  pos : stop ≠ 0
  le : stop ≤ last
  swept : ∃ w : Vote, w.error = v₀.error ∧ Swept key stop items.zipIdx w v
  none_above : ∀ tid, stop ≤ tid → tid < last → votes items key tid < nquorum
  found : nquorum ≤ v.nmasters ∨ v.quorumTid = 0

/-- The sweep counts the votes for its `modify_tid`. -/
theorem Swept.nmasters_eq (h : Swept key last items.zipIdx v₀ v) :
    v.nmasters = votes items key v.quorumTid :=
  h.nmasters.trans (countP_zipIdx _)

/-- No id between the one found and the bound is held at all. -/
theorem Swept.votes_eq_zero (h : Swept key last items.zipIdx v₀ v) (hlt : tid < last)
    (hgt : v.quorumTid < tid) : votes items key tid = 0 := by
  refine List.countP_eq_zero.2 fun x hx hh => ?_
  obtain ⟨i, hi⟩ := exists_mem_zipIdx hx
  have := h.highest (x, i) hi tid hlt (by simpa using hh)
  omega

/-- The loop goes down the transaction ids until a quorum is found. -/
theorem quorumLoop_spec (nquorum key : Nat) (items : List CItem) (n : Nat) : ∀ last v,
    belowTid items key last < n → last ≠ 0 → v.nmasters < nquorum →
    ∃ stop, Looped nquorum key last items v (quorumLoop nquorum key false items n last v) stop := by
  induction n with
  | zero => exact fun _ _ h => absurd h (Nat.not_lt_zero _)
  | succ n ih =>
    intro last v hn hlast hv
    have hsweep := sweep_spec key last items v
    rw [quorumLoop, if_pos ⟨hv, hlast⟩]
    generalize sweep key false last items v = w at hsweep ⊢
    dsimp only
    by_cases hq : nquorum ≤ w.nmasters
    · rw [if_pos hq]
      exact ⟨last, hlast, le_rfl, ⟨v, rfl, hsweep⟩, fun tid h h' => absurd h (by omega), .inl hq⟩
    · rw [if_neg hq]
      by_cases h0 : w.quorumTid = 0
      · -- No id is left: the loop ends here.
        have hend : quorumLoop nquorum key false items n w.quorumTid w = w := by
          cases n with
          | zero => rfl
          | succ n => rw [quorumLoop, if_neg (by simp [h0])]
        rw [hend]
        exact ⟨last, hlast, le_rfl, ⟨v, rfl, hsweep⟩, fun tid h h' => absurd h (by omega), .inr h0⟩
      · obtain ⟨hlt, p, hp, hh⟩ := hsweep.below.resolve_left h0
        have hless := belowTid_lt hlt (List.fst_mem_of_mem_zipIdx hp) hh
        obtain ⟨stop, hloop⟩ := ih w.quorumTid w (by omega) h0 (by omega)
        refine ⟨stop, hloop.pos, hloop.le.trans hlt.le, ?_, fun tid h h' => ?_, hloop.found⟩
        · obtain ⟨u, hu, hsw⟩ := hloop.swept
          exact ⟨u, hu.trans hsweep.error, hsw⟩
        · rcases Nat.lt_trichotomy tid w.quorumTid with hcmp | hcmp | hcmp
          · exact hloop.none_above tid h hcmp
          · rw [hcmp, ← hsweep.nmasters_eq]
            omega
          · rw [hsweep.votes_eq_zero h' hcmp]
            omega

/-! ## The end of a scan -/

theorem firstError_append : firstError error (items ++ [it]) =
    if firstError error items = 0 then it.error else firstError error items := by
  rw [firstError, List.foldl_append]
  rfl

/-- The first error is 0 if no element has one. -/
theorem firstError_eq_zero_iff :
    firstError error items = 0 ↔ error = 0 ∧ ∀ it ∈ items, it.error = 0 := by
  unfold firstError
  induction items generalizing error with
  | nil => simp
  | cons x xs ih =>
    rw [List.foldl_cons, ih]
    by_cases h : error = 0 <;> simp [h]

/-- A sweep at the end of a scan counts the masters that have ended within reach. -/
theorem sweep_null (last : Nat) (items : List CItem) (v : Vote) :
    sweep key true last items v =
      { nmasters := items.countP (·.ended)
        umasters := items.countP (·.pending)
        xmasters := items.countP (·.cutOff)
        nmastersKeymatch := items.countP (·.ended)
        quorumTid := 0
        focus := v.focus
        focusIndex := v.focusIndex
        error := firstError v.error (items.filter (·.ended)) } := by
  have hsweep : ∀ ps : List (CItem × Nat), ps.foldl (sweepStep key true last)
      ⟨0, 0, 0, 0, 0, v.focus, v.focusIndex, v.error⟩ =
      ⟨ps.countP (·.1.ended), ps.countP (·.1.pending), ps.countP (·.1.cutOff),
        ps.countP (·.1.ended), 0, v.focus, v.focusIndex,
        firstError v.error ((ps.map Prod.fst).filter (·.ended))⟩ := by
    intro ps
    induction ps using List.reverseRecOn with
    | nil => rfl
    | append_singleton ps p ih =>
      rw [List.foldl_append, ih, List.foldl_cons, List.foldl_nil]
      unfold sweepStep
      simp only [List.countP_append, List.countP_singleton, List.map_append, List.filter_append,
        List.map_cons, List.map_nil]
      by_cases hv : p.1.kind.votes = true
      · cases hc : p.1.chain with
        | none =>
          by_cases hnull : p.1.null = false
          · have he : p.1.ended = false := by simp [CItem.ended, hnull]
            have hp : p.1.pending = true := by simp [CItem.pending, hv, hc, hnull]
            have hx : p.1.cutOff = false := by simp [CItem.cutOff, hnull]
            simp [hv, hnull, he, hp, hx]
          · have hp : p.1.pending = false := by simp [CItem.pending, hnull]
            by_cases hd : disconnected p.1.error = true
            · have he : p.1.ended = false := by simp [CItem.ended, hd]
              have hx : p.1.cutOff = true := by simp [CItem.cutOff, hv, hc, hnull, hd]
              simp [hv, hnull, he, hp, hx, hd]
            · have he : p.1.ended = true := by simp [CItem.ended, hv, hc, hnull, hd]
              have hx : p.1.cutOff = false := by simp [CItem.cutOff, hd]
              simp [hv, hnull, he, hp, hx, hd, firstError_append]
        | some c =>
          have he : p.1.ended = false := by simp [CItem.ended, hc]
          have hp : p.1.pending = false := by simp [CItem.pending, hc]
          have hx : p.1.cutOff = false := by simp [CItem.cutOff, hc]
          simp [hv, he, hp, hx]
      · have he : p.1.ended = false := by simp [CItem.ended, hv]
        have hp : p.1.pending = false := by simp [CItem.pending, hv]
        have hx : p.1.cutOff = false := by simp [CItem.cutOff, hv]
        simp [hv, he, hp, hx]
  rw [sweep, hsweep, List.zipIdx_map_fst]
  simp only [countP_zipIdx]

/-- At the end of a scan one sweep is all there is. -/
theorem quorumLoop_null (n : Nat) (hlast : last ≠ 0) (hv : v.nmasters < nquorum) :
    quorumLoop nquorum key true items (n + 1) last v = sweep key true last items v := by
  rw [quorumLoop, if_pos ⟨hv, hlast⟩]
  dsimp only
  split
  · rfl
  · cases n with
    | zero => rfl
    | succ n => rw [quorumLoop, if_neg (by simp [sweep_null])]

/-- The error of the first pass does not depend on the focus from before. -/
theorem census_error (focusIndex : Nat) (items : List CItem) :
    (census focusIndex items).error = (census 0 items).error := by
  unfold census
  generalize items.zipIdx = ps
  induction ps using List.reverseRecOn with
  | nil => rfl
  | append_singleton ps p ih =>
    rw [List.foldl_append, List.foldl_append, List.foldl_cons, List.foldl_nil, List.foldl_cons,
      List.foldl_nil]
    unfold censusStep
    split
    · cases p.1.kind <;> exact ih
    · cases p.1.kind <;> first | exact ih | rfl

/-! ## The second pass -/

/-- `tid` is the highest id that a quorum of masters holds for the key, of those the check looks
for. -/
def BestTid (nmasters : Nat) (items : List CItem) (key tid : Nat) : Prop :=
  tid < tidMax ∧ quorum nmasters ≤ votes items key tid ∧
    ∀ t < tidMax, quorum nmasters ≤ votes items key t → t ≤ tid

variable {nmasters focusIndex : Nat}

/-- There is one best transaction id. -/
theorem BestTid.unique {t : Nat} (h : BestTid nmasters items key tid)
    (h' : BestTid nmasters items key t) : tid = t :=
  Nat.le_antisymm (h'.2.2 tid h.1 h.2.1) (h.2.2 t h'.1 h'.2.1)

/-- What the second pass finds for a key. -/
structure Voted (nmasters : Nat) (items : List CItem) (key : Nat) (v : Vote) : Prop where
  nmasters_eq : v.nmasters = votes items key v.quorumTid
  best : quorum nmasters ≤ v.nmasters → BestTid nmasters items key v.quorumTid
  none : v.nmasters < quorum nmasters → ∀ t < tidMax, votes items key t < quorum nmasters
  umasters : v.umasters = items.countP (·.pending)
  xmasters : v.xmasters = items.countP (·.cutOff)
  keymatch : v.nmastersKeymatch = items.countP (·.hasKey key)
  focus : (∃ it ∈ items, it.holds key v.quorumTid = true ∧ it.error = 0) →
    ∃ it ∈ items, it.holds key v.quorumTid = true ∧ it.chain = v.focus ∧
      ∀ c, it.chain = some c → c.error = 0

/-- The second pass decides the vote on a key. -/
theorem secondPass_key (nmasters focusIndex : Nat) (items : List CItem) (key : Nat) :
    Voted nmasters items key (secondPass nmasters focusIndex items key false) := by
  obtain ⟨stop, hloop⟩ := quorumLoop_spec (quorum nmasters) key items (items.length + 1) tidMax
    ⟨0, 0, 0, 0, 0, (census focusIndex items).focus, (census focusIndex items).focusIndex,
      (census focusIndex items).error⟩
    (Nat.lt_succ_of_le List.countP_le_length) (by decide) (Nat.succ_pos _)
  obtain ⟨w, -, hsw⟩ := hloop.swept
  rw [secondPass]
  generalize quorumLoop _ _ _ _ _ _ _ = v at hloop hsw ⊢
  have hpos : 0 < stop := Nat.pos_of_ne_zero hloop.pos
  have hbelow : v.quorumTid < stop := hsw.below.elim (fun h => h ▸ hpos) fun h => h.1
  have hmax : ∀ t < tidMax, v.quorumTid < t → votes items key t < quorum nmasters := by
    intro t ht hlt
    rcases Nat.lt_or_ge t stop with hts | hts
    · rw [hsw.votes_eq_zero hts hlt]
      exact Nat.succ_pos _
    · exact hloop.none_above t hts ht
  refine ⟨hsw.nmasters_eq, fun hq => ⟨hbelow.trans_le hloop.le, hsw.nmasters_eq ▸ hq, ?_⟩, ?_,
    hsw.umasters.trans (countP_zipIdx _), hsw.xmasters.trans (countP_zipIdx _),
    hsw.keymatch.trans (countP_zipIdx _), ?_⟩
  · intro t ht htq
    by_contra hlt
    exact absurd (hmax t ht (by omega)) (by omega)
  · intro hq t ht
    have h0 : v.quorumTid = 0 := hloop.found.resolve_left (by omega)
    rcases Nat.eq_zero_or_pos t with rfl | hpos
    · rw [← h0, ← hsw.nmasters_eq]
      exact hq
    · exact hmax t ht (h0 ▸ hpos)
  · rintro ⟨x, hx, hh, he⟩
    obtain ⟨k, hk⟩ := exists_mem_zipIdx hx
    obtain ⟨q, hq, hqh, hqc, -, hqe⟩ := hsw.focus ⟨(x, k), hk, hh, fun c hc => x.fed c hc he⟩
    exact ⟨q.1, List.fst_mem_of_mem_zipIdx hq, hqh, hqc, hqe⟩

/-- If there is a quorum, there is a best one. -/
theorem exists_bestTid (h : ∃ t < tidMax, quorum nmasters ≤ votes items key t) :
    ∃ tid, BestTid nmasters items key tid := by
  have hv := secondPass_key nmasters 0 items key
  obtain ⟨t, ht, hq⟩ := h
  refine ⟨_, hv.best (Nat.le_of_not_lt fun hlt => ?_)⟩
  exact absurd (hv.none hlt t ht) (Nat.not_lt.2 hq)

/-- What the second pass finds at the end of a scan. -/
theorem secondPass_null (nmasters focusIndex : Nat) (items : List CItem) (key : Nat) :
    ∃ focus i, secondPass nmasters focusIndex items key true =
      { nmasters := items.countP (·.ended)
        umasters := items.countP (·.pending)
        xmasters := items.countP (·.cutOff)
        nmastersKeymatch := items.countP (·.ended)
        quorumTid := 0
        focus := focus
        focusIndex := i
        error := endError items } := by
  refine ⟨(census focusIndex items).focus, (census focusIndex items).focusIndex, ?_⟩
  rw [secondPass, quorumLoop_null _ (by decide) (Nat.succ_pos _), sweep_null,
    endError, census_error focusIndex]

/-! ## The result -/

/-- Without a quorum the result is an error other than `ENOENT`. -/
theorem noQuorum_ne (ttlmasters : Nat) (v : Vote) :
    noQuorum nmasters ttlmasters v ≠ 0 ∧ noQuorum nmasters ttlmasters v ≠ errorEnoent := by
  unfold noQuorum
  split_ifs <;> decide

/-- The key is no wildcard for the masters. -/
def KeyExact (items : List CItem) (key : Nat) : Prop :=
  key ≠ keyMax ∨ ∀ it ∈ items, it.kind.votes = true → ∀ c, it.chain = some c → c.key = key

/-- The elements that agree with the quorum at `tid` have no error. -/
def AgreeFree (items : List CItem) (key tid : Nat) : Prop :=
  ∀ it ∈ items, it.agrees key tid = true → it.error = 0

/-- An element with the best transaction id agrees. -/
theorem KeyExact.agrees (hkey : KeyExact items key) (hit : it ∈ items)
    (hh : it.holds key tid = true) : it.agrees key tid = true := by
  obtain ⟨hv, c, hc, hm, rfl⟩ := CItem.holds_iff.1 hh
  have hck : c.key = key := by
    rcases hkey with hk | hk
    · simpa [FedChain.matchesKey, hk] using hm
    · exact hk it hit hv c hc
  simp [CItem.agrees, hc, hck]

/-- A quorum has a member. -/
theorem exists_of_votes (h : quorum nmasters ≤ votes items key tid) :
    ∃ it ∈ items, it.holds key tid = true := by
  have : 0 < votes items key tid := Nat.lt_of_lt_of_le (Nat.succ_pos _) h
  simpa using List.countP_pos_iff.1 this

/-- **The check succeeds** exactly when a quorum holds an id and no element that agrees with the
highest such id has an error. -/
theorem clusterCheck_eq_zero_iff (nmasters focusIndex : Nat) (hkey : KeyExact items key) :
    (clusterCheck nmasters focusIndex items key false).result = 0 ↔
      ∃ tid, BestTid nmasters items key tid ∧ AgreeFree items key tid := by
  have hv := secondPass_key nmasters focusIndex items key
  unfold clusterCheck
  generalize secondPass nmasters focusIndex items key false = v at hv ⊢
  dsimp only
  by_cases hq : v.nmasters < quorum nmasters
  · rw [if_pos hq]
    refine ⟨fun h => absurd h (noQuorum_ne _ v).1, ?_⟩
    rintro ⟨tid, hbest, -⟩
    have := hv.none hq tid hbest.1
    have := hbest.2.1
    omega
  · have hbest := hv.best (Nat.le_of_not_lt hq)
    have hfree : AgreeFree items key v.quorumTid ↔
        firstError 0 (items.filter (·.agrees key v.quorumTid)) = 0 := by
      simp [firstError_eq_zero_iff, AgreeFree]
    have huniq : (∃ tid, BestTid nmasters items key tid ∧ AgreeFree items key tid) ↔
        AgreeFree items key v.quorumTid := by
      refine ⟨?_, fun hf => ⟨_, hbest, hf⟩⟩
      rintro ⟨tid, hb, hf⟩
      rwa [hb.unique hbest] at hf
    rw [if_neg hq, if_neg (by simp), huniq]
    cases hf : v.focus with
    | some focus => exact hfree.symm
    | none =>
      refine ⟨fun h => absurd h (by decide : errorEio ≠ 0), fun hff => ?_⟩
      obtain ⟨x, hx, hh⟩ := exists_of_votes hbest.2.1
      obtain ⟨y, hy, hyh, hyc, -⟩ := hv.focus ⟨x, hx, hh, hff x hx (hkey.agrees hx hh)⟩
      obtain ⟨-, c, hc, -⟩ := CItem.holds_iff.1 hyh
      rw [hf, hc] at hyc
      cases hyc

/-- The focus of a check that succeeds. -/
theorem clusterCheck_focus (focusIndex : Nat) (hkey : KeyExact items key)
    (hbest : BestTid nmasters items key tid) (hfree : AgreeFree items key tid) :
    ∃ it ∈ items, it.holds key tid = true ∧
      it.chain = (clusterCheck nmasters focusIndex items key false).focus ∧
      ∀ c, it.chain = some c → c.error = 0 := by
  have hv := secondPass_key nmasters focusIndex items key
  unfold clusterCheck
  generalize secondPass nmasters focusIndex items key false = v at hv ⊢
  dsimp only
  by_cases hq : v.nmasters < quorum nmasters
  · have := hv.none hq tid hbest.1
    have := hbest.2.1
    omega
  · obtain rfl := hbest.unique (hv.best (Nat.le_of_not_lt hq))
    obtain ⟨x, hx, hh⟩ := exists_of_votes hbest.2.1
    obtain ⟨y, hy, hyh, hyc, hye⟩ := hv.focus ⟨x, hx, hh, hfree x hx (hkey.agrees hx hh)⟩
    refine ⟨y, hy, hyh, hyc.trans ?_, hye⟩
    rw [if_neg hq, if_neg (by simp)]
    cases hf : v.focus with
    | some focus => rfl
    | none => exact hf.symm

/-- The result at the end of a scan. -/
theorem clusterCheck_null (nmasters focusIndex : Nat) (items : List CItem) (key : Nat) :
    (clusterCheck nmasters focusIndex items key true).nmasters = items.countP (·.ended) ∧
      ((clusterCheck nmasters focusIndex items key true).result = errorEnoent ↔
        quorum nmasters ≤ items.countP (·.ended) ∧
          (endError items = 0 ∨ endError items = errorEnoent)) ∧
      (clusterCheck nmasters focusIndex items key true).result ≠ 0 := by
  obtain ⟨focus, i, hv⟩ := secondPass_null nmasters focusIndex items key
  unfold clusterCheck
  rw [hv]
  dsimp only
  by_cases hq : items.countP (·.ended) < quorum nmasters
  · rw [if_pos hq]
    refine ⟨rfl, ⟨fun h => absurd h (noQuorum_ne _ _).2, fun h => absurd h.1 (by omega)⟩,
      (noQuorum_ne _ _).1⟩
  · rw [if_neg hq, if_pos rfl]
    by_cases h0 : endError items = 0
    · simp [Vote.stop, h0, Nat.le_of_not_lt hq, errorEnoent]
    · simp [Vote.stop, h0, Nat.le_of_not_lt hq]

/-- The first pass counts the masters. -/
theorem census_ttlmasters (focusIndex : Nat) (items : List CItem) :
    (census focusIndex items).ttlmasters = items.countP (·.kind.votes) := by
  rw [← countP_zipIdx, census]
  generalize items.zipIdx = ps
  induction ps using List.reverseRecOn with
  | nil => rfl
  | append_singleton ps p ih =>
    rw [List.foldl_append, List.foldl_cons, List.foldl_nil, List.countP_append,
      List.countP_singleton, ← ih]
    unfold censusStep
    split <;> cases p.1.kind <;> rfl

/-- The error of the first pass is that of an element, if it is one. -/
theorem census_error_mem (focusIndex : Nat) (items : List CItem) :
    (census focusIndex items).error = 0 ∨
      ∃ it ∈ items, it.error = (census focusIndex items).error := by
  have hmem : ∀ p ∈ items.zipIdx, p.1 ∈ items := fun p hp => List.fst_mem_of_mem_zipIdx hp
  unfold census
  generalize items.zipIdx = ps at hmem ⊢
  induction ps using List.reverseRecOn with
  | nil => exact .inl rfl
  | append_singleton ps p ih =>
    rw [List.foldl_append, List.foldl_cons, List.foldl_nil]
    have ih := ih fun q hq => hmem q (List.mem_append_left _ hq)
    unfold censusStep
    split
    · cases p.1.kind <;> exact ih
    · cases p.1.kind <;> first | exact ih | exact .inr ⟨p.1, hmem p (by simp), rfl⟩

/-- The first error is that of an element. -/
theorem firstError_mem (error : Nat) (items : List CItem) :
    firstError error items = error ∨ ∃ it ∈ items, it.error = firstError error items := by
  induction items using List.reverseRecOn with
  | nil => exact .inl rfl
  | append_singleton xs x ih =>
    rw [firstError_append]
    split
    · exact .inr ⟨x, by simp, rfl⟩
    · exact ih.imp_right fun ⟨y, hy, he⟩ => ⟨y, List.mem_append_left _ hy, he⟩

/-- Without a quorum on an id, and no master missing, cut off or still to answer, the key is
skipped. -/
theorem clusterCheck_skips (focusIndex : Nat)
    (hnone : ∀ t < tidMax, votes items key t < quorum nmasters)
    (hpending : items.countP (·.pending) = 0) (hcut : items.countP (·.cutOff) = 0)
    (hall : nmasters ≤ items.countP (·.kind.votes)) :
    (clusterCheck nmasters focusIndex items key false).result = errorEsrch ∨
      (clusterCheck nmasters focusIndex items key false).result = errorEdeadlk := by
  have hv := secondPass_key nmasters focusIndex items key
  unfold clusterCheck
  generalize secondPass nmasters focusIndex items key false = v at hv ⊢
  have hq : v.nmasters < quorum nmasters := by
    by_contra hq
    have hbest := hv.best (Nat.le_of_not_lt hq)
    exact absurd (hnone _ hbest.1) (Nat.not_lt.2 hbest.2.1)
  dsimp only
  rw [if_pos hq, census_ttlmasters, Vote.stop, noQuorum]
  dsimp only
  rw [hv.umasters, hv.xmasters, hpending, hcut, if_neg (by omega), if_neg (by omega)]
  split
  · exact .inl rfl
  · exact .inr rfl

/-- When every element has ended well, the scan is over. -/
theorem clusterCheck_atEnd (focusIndex key : Nat)
    (hend : ∀ it ∈ items, it.chain = none ∧ it.null = true ∧
    (it.error = 0 ∨ it.error = errorEnoent))
    (hall : nmasters ≤ items.countP (·.kind.votes)) :
    (clusterCheck nmasters focusIndex items key true).result = errorEnoent ∨
      (clusterCheck nmasters focusIndex items key true).result = errorEsrch := by
  have hconn : ∀ it ∈ items, disconnected it.error = false := by
    intro it hit
    rcases (hend it hit).2.2 with h | h <;> rw [h] <;> decide
  have hended : items.countP (·.ended) = items.countP (·.kind.votes) := by
    refine List.countP_congr fun it hit => ?_
    simp [CItem.ended, (hend it hit).1, (hend it hit).2.1, hconn it hit]
  have herr : endError items = 0 ∨ endError items = errorEnoent := by
    have hcensus : (census 0 items).error = 0 ∨ (census 0 items).error = errorEnoent := by
      rcases census_error_mem 0 items with h | ⟨it, hit, h⟩
      · exact .inl h
      · rw [← h]
        exact (hend it hit).2.2
    rcases firstError_mem (census 0 items).error (items.filter (·.ended)) with h | ⟨it, hit, h⟩
    · rw [endError, h]
      exact hcensus
    · rw [endError, ← h]
      exact (hend it (List.mem_of_mem_filter hit)).2.2
  by_cases hq : quorum nmasters ≤ items.countP (·.ended)
  · exact .inl ((clusterCheck_null nmasters focusIndex items key).2.1.2 ⟨hq, herr⟩)
  · -- Only a cluster without masters has no quorum here.
    right
    have hzero : ∀ f : CItem → Bool, (∀ it ∈ items, f it = false) → items.countP f = 0 :=
      fun f hf => List.countP_eq_zero.2 fun it hit => by simp [hf it hit]
    have hpending : items.countP (·.pending) = 0 :=
      hzero _ fun it hit => by simp [CItem.pending, (hend it hit).2.1]
    have hcut : items.countP (·.cutOff) = 0 :=
      hzero _ fun it hit => by simp [CItem.cutOff, hconn it hit]
    obtain ⟨focus, i, hv⟩ := secondPass_null nmasters focusIndex items key
    unfold clusterCheck
    rw [hv]
    dsimp only
    rw [if_pos (by omega), census_ttlmasters, Vote.stop, noQuorum]
    dsimp only
    rw [hpending, hcut, if_neg (by omega), if_neg (by omega), if_pos (by omega)]

/-! ## Safety -/

/-- A master that holds `tid` for this very key. -/
def CItem.holdsExact (key tid : Nat) (it : CItem) : Bool :=
  it.kind.votes && it.chain.any fun c => c.key == key && c.modifyTid == tid

/-- A quorum decision is backed by the masters. -/
structure QuorumSafe (nmasters : Nat) (items : List CItem) (key : Nat) (null : Bool) (r : Checked) :
    Prop where
  /-- A key is returned with the highest id a quorum holds, and one of its chains. -/
  agreed : r.result = 0 → ∃ tid, quorum nmasters ≤ items.countP (·.holdsExact key tid) ∧
    (∀ t, quorum nmasters ≤ items.countP (·.holdsExact key t) → t ≤ tid) ∧
    ∃ it ∈ items, it.holdsExact key tid = true ∧ it.chain = r.focus ∧
      ∀ c, it.chain = some c → c.error = 0
  /-- The end of a scan is returned when a quorum has ended well. -/
  finished : null = true → r.result = errorEnoent → quorum nmasters ≤ items.countP (·.cleanEnd)
  /-- Only masters with a chain for the key, or at the end those that ended within reach, count. -/
  counted : r.nmasters ≤ items.countP fun it => if null then it.ended else it.hasKey key

/-- No master ends a scan with an error hidden behind the `ENOENT` of another, unless enough end
well; and no second quorum for a key holds an id that the check does not look for. -/
def VotesClear (nmasters : Nat) (items : List CItem) (key : Nat) (null : Bool) : Prop :=
  if null then
    quorum nmasters ≤ items.countP (·.cleanEnd) ∨ items.countP (·.ended) < quorum nmasters ∨
      endError items ≠ errorEnoent
  else
    (∀ tid ≥ tidMax, votes items key tid < quorum nmasters) ∨
      ¬ ∃ tid, BestTid nmasters items key tid ∧ AgreeFree items key tid

/-- With exact keys the two tests agree. -/
theorem KeyExact.holdsExact_iff (hkey : KeyExact items key) (hit : it ∈ items) :
    it.holdsExact key tid = true ↔ it.holds key tid = true := by
  simp only [CItem.holdsExact, CItem.holds, Bool.and_eq_true, Option.any_eq_true, beq_iff_eq]
  refine and_congr_right fun hv => exists_congr fun c => and_congr_right fun hc =>
    and_congr_left fun _ => ?_
  rcases hkey with hk | hk
  · simp [FedChain.matchesKey, hk]
  · simp [FedChain.matchesKey, hk it hit hv c hc]

/-- And so do the votes. -/
theorem KeyExact.votes_eq (hkey : KeyExact items key) (tid : Nat) :
    items.countP (·.holdsExact key tid) = votes items key tid :=
  List.countP_congr fun _ hx => hkey.holdsExact_iff hx

/-- The masters that the check counts hold a chain for the key. -/
theorem clusterCheck_nmasters_le (nmasters focusIndex : Nat) (items : List CItem) (key : Nat) :
    (clusterCheck nmasters focusIndex items key false).nmasters ≤ items.countP (·.hasKey key) := by
  have hv := secondPass_key nmasters focusIndex items key
  have hle : (secondPass nmasters focusIndex items key false).nmasters ≤
      items.countP (·.hasKey key) := by
    rw [hv.nmasters_eq]
    refine List.countP_mono_left fun x _ hx => ?_
    obtain ⟨hvotes, c, hc, hm, -⟩ := CItem.holds_iff.1 hx
    exact CItem.hasKey_iff.2 ⟨hvotes, c, hc, hm⟩
  unfold clusterCheck
  generalize secondPass nmasters focusIndex items key false = v at hle ⊢
  dsimp only
  split
  · exact hle
  · rw [if_neg (by simp)]
    cases v.focus <;> exact hle

/-- An element that ended without an error. -/
theorem cleanEnd_of_ended (h : it.ended = true) (he : it.error = 0) : it.cleanEnd = true := by
  simp only [CItem.ended, Bool.and_eq_true] at h
  simp [CItem.cleanEnd, h.1.1.1, h.1.1.2, h.1.2, he]

/-- When no error is met, all that have ended have ended well. -/
theorem ended_le_cleanEnd (h : endError items = 0) :
    items.countP (·.ended) ≤ items.countP (·.cleanEnd) := by
  refine List.countP_mono_left fun x hx hxe => cleanEnd_of_ended hxe ?_
  exact (firstError_eq_zero_iff.1 h).2 x (List.mem_filter.2 ⟨hx, hxe⟩)

/-- A key whose elements agree: the decision is safe unless a quorum holds an id out of the range of
the check. -/
theorem quorumSafe_key_iff (hkey : KeyExact items key) :
    QuorumSafe nmasters items key false (clusterCheck nmasters focusIndex items key false) ↔
      VotesClear nmasters items key false := by
  have hzero := clusterCheck_eq_zero_iff nmasters focusIndex hkey
  rw [VotesClear, if_neg (by simp)]
  constructor
  · intro h
    by_cases hex : ∃ tid, BestTid nmasters items key tid ∧ AgreeFree items key tid
    · left
      -- The focus has the id the check found, which is below `tidMax`.
      obtain ⟨tid, -, hmax, x, hxm, hx, hfocus, -⟩ := h.agreed (hzero.2 hex)
      obtain ⟨best, hbest, hfree⟩ := hex
      obtain ⟨y, -, hy, hyf, -⟩ := clusterCheck_focus focusIndex hkey hbest hfree
      obtain ⟨-, c, hc, -, rfl⟩ := CItem.holds_iff.1 hy
      obtain ⟨-, d, hd, -, rfl⟩ := CItem.holds_iff.1 ((hkey.holdsExact_iff hxm).1 hx)
      obtain rfl : d = c := Option.some.inj (hd.symm.trans (hfocus.trans (hyf.symm.trans hc)))
      intro t ht
      by_contra hvotes
      have := hmax t (by rw [hkey.votes_eq]; omega)
      have := hbest.1
      omega
    · exact .inr hex
  · intro h
    refine ⟨fun h0 => ?_, nofun,
    by simpa using clusterCheck_nmasters_le nmasters focusIndex items key⟩
    have hex := hzero.1 h0
    have hhigh := h.resolve_right (not_not.2 hex)
    obtain ⟨tid, hbest, hfree⟩ := hex
    obtain ⟨x, hxm, hx, hfocus, herr⟩ := clusterCheck_focus focusIndex hkey hbest hfree
    refine ⟨tid, by rw [hkey.votes_eq]; exact hbest.2.1, fun t ht => ?_,
      x, hxm, (hkey.holdsExact_iff hxm).2 hx, hfocus, herr⟩
    rw [hkey.votes_eq] at ht
    rcases Nat.lt_or_ge t tidMax with hlt | hge
    · exact hbest.2.2 t hlt ht
    · have := hhigh t hge
      omega

/-- **A quorum decision is safe** exactly when `VotesClear`, for every number of elements of any
types in any states and every number of masters. -/
theorem clusterCheck_safe_iff (nmasters focusIndex : Nat) (items : List CItem) (key : Nat)
    (null : Bool) (hkey : null = true ∨ KeyExact items key) :
    QuorumSafe nmasters items key null (clusterCheck nmasters focusIndex items key null) ↔
      VotesClear nmasters items key null := by
  cases null with
  | false => exact quorumSafe_key_iff (hkey.resolve_left (by simp))
  | true =>
    obtain ⟨hn, henoent, hne⟩ := clusterCheck_null nmasters focusIndex items key
    rw [VotesClear, if_pos rfl]
    constructor
    · intro h
      by_cases hq : items.countP (·.ended) < quorum nmasters
      · exact .inr (.inl hq)
      · by_cases he : endError items = errorEnoent
        · exact .inl (h.finished rfl (henoent.2 ⟨Nat.le_of_not_lt hq, .inr he⟩))
        · exact .inr (.inr he)
    · intro h
      refine ⟨fun h0 => absurd h0 hne, fun _ hr => ?_, ?_⟩
      · obtain ⟨hq, he⟩ := henoent.1 hr
        rcases he with he | he
        · exact hq.trans (ended_le_cleanEnd he)
        · rcases h with h | h | h
          · exact h
          · omega
          · exact absurd he h
      · simp [hn]

end

/-- An end of the stream of an element of type `kind`. -/
def CItem.atEnd (kind : ElementKind) (error : Nat) : CItem :=
  ⟨⟨none, error, nofun⟩, kind, true, false, false⟩

/-- Two of three masters end a scan with `ENOENT`, and the third cannot be reached. -/
theorem clusterCheck_safe_two :
    QuorumSafe 3 [.atEnd .master errorEnoent, .atEnd .master errorEtimedout,
      .atEnd .master errorEnoent] keyMax true
      (clusterCheck 3 0 [.atEnd .master errorEnoent, .atEnd .master errorEtimedout,
        .atEnd .master errorEnoent] keyMax true) :=
  (clusterCheck_safe_iff 3 0 _ keyMax true (.inl rfl)).2 (.inl (by decide))

/-- One of three masters ends a scan with `ENOENT`, the second with an I/O error, and the third
cannot be reached: the scan is over. -/
theorem clusterCheck_unsafe :
    (clusterCheck 3 0 [.atEnd .master errorEnoent, .atEnd .master errorEio,
        .atEnd .master errorEtimedout] keyMax true).result = errorEnoent ∧
      ¬ QuorumSafe 3 [.atEnd .master errorEnoent, .atEnd .master errorEio,
        .atEnd .master errorEtimedout] keyMax true
        (clusterCheck 3 0 [.atEnd .master errorEnoent, .atEnd .master errorEio,
          .atEnd .master errorEtimedout] keyMax true) := by
  have hr : (clusterCheck 3 0 [.atEnd .master errorEnoent, .atEnd .master errorEio,
      .atEnd .master errorEtimedout] keyMax true).result = errorEnoent := by decide
  exact ⟨hr, fun h => absurd (h.finished rfl hr) (by decide)⟩

end Hammer2
