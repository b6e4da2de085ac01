import Hammer2.Xop.Cluster

/-!
# Collecting a scan of the cluster

The elements of a cluster feed their chains into one FIFO each, in ascending order of keys, and an
end behind them. `hammer2_xop_collect` merges them: it advances every element to its first chain at
or past `collect_key`, has the quorum decide on the lowest key among these, and goes on behind it. A
key without quorum is skipped.

The chain an element stands at is the first of its stream at or past `collect_key` (`StandsAt`), so
that the votes on the lowest key are the votes of the whole streams (`votes_streams`). From this a
turn either returns a key the masters agree on, or skips one they do not agree on, or finds the end
(`Collector.turn_spec`); the calls together return exactly the agreed keys, and every reference is
dropped once (`collect_agreed`).

Reference: `hammer2_admin.c:500-639`, `hammer2_admin.c:657-820`.
-/

namespace Hammer2

/-! ## Feeding -/

/-- The entry that `hammer2_xop_feed` makes. -/
def feed (chain : Option FedChain) (error : Nat) : Feed where
  chain := chain
  error := if error = 0 then chain.elim 0 (·.error) else error
  fed := by
    rintro c rfl h
    by_cases he : error = 0
    · simpa [he] using h
    · simp [he] at h

theorem feed_none_error (error : Nat) : (feed none error).error = error := by
  by_cases h : error = 0 <;> simp [feed, h]

/-- What an element feeds in a scan: error-free chains with ascending keys, then an end. -/
structure ScanStream where
  kind : ElementKind
  chains : List FedChain
  last : Nat
  free : ∀ c ∈ chains, c.error = 0
  ascending : chains.Pairwise (·.key < ·.key)
  bounded : ∀ c ∈ chains, c.key < keyMax
  ends : last = 0 ∨ last = errorEnoent

/-- The entries of the FIFO when the chains `cs` and the end have not been taken. -/
def ScanStream.entries (s : ScanStream) (cs : List FedChain) : List Feed :=
  cs.map (fun c => feed (some c) 0) ++ [feed none s.last]

/-! ## Collecting -/

/-- What `hammer2_xop_collect` works on: the elements with the entries left in their FIFOs, and the
references it has dropped. -/
structure Collector where
  nmasters : Nat
  elements : List (CItem × List Feed)
  collectKey : Nat
  focus : Option FedChain
  focusIndex : Nat
  dropped : List FedChain

/-- A cluster operation whose elements have fed their streams. -/
def Collector.start (nmasters : Nat) (streams : List ScanStream) : Collector where
  nmasters := nmasters
  elements := streams.map fun s =>
    (⟨⟨none, 0, Feed.fed_none⟩, s.kind, false, false, false⟩, s.entries s.chains)
  collectKey := 0
  focus := none
  focusIndex := 0
  dropped := []

/-- The element stands at a chain that is not before `key`. -/
def CItem.keeps (key : Nat) (it : CItem) : Bool := it.chain.any (key ≤ ·.key)

/-- The element with an entry of its FIFO. -/
def CItem.take (it : CItem) (f : Feed) : CItem :=
  { it with toFeed := f, null := it.null || f.chain.isNone }

/-- The element without a chain; the flag that says it has ended is retained. -/
def CItem.exhaust (it : CItem) : CItem := { it with toFeed := ⟨none, it.error, nofun⟩ }

/-- The first loop of `hammer2_xop_collect` at one element: what it stands at, the entries left and
the references dropped. -/
def advance (key : Nat) (it : CItem) : List Feed → CItem × List Feed × List FedChain
  | [] => if it.keeps key then (it, [], []) else (it.exhaust, [], it.chain.toList)
  | f :: fs =>
    if it.keeps key then (it, f :: fs, [])
    else
      let r := advance key (it.take f) fs
      (r.1, r.2.1, it.chain.toList ++ r.2.2)

/-- The lowest key the elements stand at. -/
def lowestKey (items : List CItem) : Nat :=
  items.foldl (fun lo it => match it.chain with
    | some c => if c.key < lo then c.key else lo
    | none => lo) keyMax

/-- The elements advanced. -/
def Collector.moved (s : Collector) : List (CItem × List Feed × List FedChain) :=
  s.elements.map fun e => advance s.collectKey e.1 e.2

/-- What the advanced elements stand at. -/
def Collector.items (s : Collector) : List CItem := s.moved.map (·.1)

/-- The quorum's decision on the lowest key. -/
def Collector.check (s : Collector) : Checked :=
  clusterCheck s.nmasters s.focusIndex s.items (lowestKey s.items) (s.items.all (·.chain.isNone))

/-- What a turn leaves. -/
def Collector.after (s : Collector) : Collector where
  nmasters := s.nmasters
  elements := s.check.items.zip (s.moved.map (·.2.1))
  collectKey := if lowestKey s.items = keyMax then keyMax else lowestKey s.items + 1
  focus := s.check.focus
  focusIndex := s.check.focusIndex
  dropped := s.dropped ++ s.moved.flatMap (·.2.2)

/-- One turn of `hammer2_xop_collect`: the error to return, or `none` to go round again. -/
def Collector.turn (s : Collector) : Option Nat :=
  if s.check.result = errorEsrch ∨ s.check.result = errorEdeadlk then
    if lowestKey s.items ≠ keyMax then none else some errorEnoent
  else some s.check.result

/-- `hammer2_xop_collect`: the error, what is left and the number of turns, if `n` turns are
enough. -/
def Collector.collect : Nat → Collector → Option (Nat × Collector × Nat)
  | 0, _ => none
  | n + 1, s =>
    match s.turn with
    | some error => some (error, s.after, 1)
    | none => (collect n s.after).map fun r => (r.1, r.2.1, r.2.2 + 1)

/-- The references dropped once `hammer2_xop_retire` has cleaned up: those the elements stand at,
and those left in the FIFOs. -/
def Collector.retire (s : Collector) : List FedChain :=
  s.dropped ++ s.elements.flatMap (fun e => e.1.chain.toList) ++
    s.elements.flatMap (fun e => e.2.filterMap (·.chain))

/-- Calls that return the chains `cs` and then the end, in `n` turns, each within `fuel`. -/
inductive Collector.Calls (fuel : Nat) : Collector → List FedChain → Nat → Collector → Prop
  | done {s s' : Collector} {n : Nat} : s.collect fuel = some (errorEnoent, s', n) →
      Calls fuel s [] n s'
  | found {s t s' : Collector} {c : FedChain} {cs : List FedChain} {n m : Nat} :
      s.collect fuel = some (0, t, n) → t.focus = some c → Calls fuel t cs m s' →
      Calls fuel s (c :: cs) (n + m) s'

/-! ## References -/

section
variable {key : Nat} {it : CItem} {fs : List Feed} {items : List CItem}

/-- Advancing an element drops references in the order in which they were fed. -/
theorem advance_refs (key : Nat) (it : CItem) (fs : List Feed) :
    (advance key it fs).2.2 ++ ((advance key it fs).1.chain.toList ++
      (advance key it fs).2.1.filterMap (·.chain)) =
        it.chain.toList ++ fs.filterMap (·.chain) := by
  induction fs generalizing it with
  | nil =>
    unfold advance
    split
    · simp
    · simp [CItem.exhaust]
  | cons f fs ih =>
    unfold advance
    split
    · simp
    · simp only [List.append_assoc, ih]
      cases hf : f.chain <;> simp [CItem.take, hf]

/-- What taking an entry preserves holds where the element comes to stand: at a chain that is not
before `key`, or behind the last entry, where it loses its chain. -/
theorem advance_rule {Q : CItem → List Feed → Prop}
    (htake : ∀ {it f fs}, Q it (f :: fs) → it.keeps key = false → Q (it.take f) fs) (h : Q it fs) :
    (Q (advance key it fs).1 (advance key it fs).2.1 ∧ (advance key it fs).1.keeps key = true) ∨
      ∃ e : CItem, Q e [] ∧ e.keeps key = false ∧ (advance key it fs).1 = e.exhaust ∧
        (advance key it fs).2.1 = [] := by
  induction fs generalizing it with
  | nil =>
    cases hk : it.keeps key with
    | true => exact .inl (by simpa [advance, hk] using h)
    | false => exact .inr ⟨it, h, hk, by simp [advance, hk], by simp [advance, hk]⟩
  | cons f fs ih =>
    cases hk : it.keeps key with
    | true => exact .inl (by simpa [advance, hk] using h)
    | false =>
      rw [advance, if_neg (by simp [hk])]
      exact ih (htake h hk)

/-- What the check leaves alone of an element. -/
def CItem.core (it : CItem) : Feed × ElementKind × Bool := (it.toFeed, it.kind, it.null)

theorem CItem.core_validate (key tid : Nat) (it : CItem) :
    (it.validate key tid).core = it.core := by
  unfold CItem.validate
  split
  · split <;> rfl
  · rfl

theorem CItem.core_compare (focus : FedChain) (it : CItem) : (it.compare focus).core = it.core := by
  unfold CItem.compare
  split
  · rfl
  · split_ifs <;> rfl

/-- The check changes no more of the elements than their flags. -/
theorem clusterCheck_core (nmasters focusIndex : Nat) (items : List CItem) (key : Nat)
    (null : Bool) :
    (clusterCheck nmasters focusIndex items key null).items.map CItem.core =
      items.map CItem.core := by
  have hreset : (items.map CItem.reset).map CItem.core = items.map CItem.core := by
    rw [List.map_map]
    rfl
  have hvalidate : ∀ tid, (items.map fun it => it.reset.validate key tid).map CItem.core =
      items.map CItem.core := by
    intro tid
    rw [List.map_map]
    exact List.map_congr_left fun it _ => (CItem.core_validate key tid it.reset).trans rfl
  unfold clusterCheck
  generalize secondPass nmasters focusIndex items key null = v
  dsimp only
  split
  · exact hreset
  · split
    · exact hreset
    · cases v.focus with
      | none => exact hreset
      | some focus =>
        unfold validatePass
        dsimp only
        split
        · exact hvalidate _
        · rw [List.map_map, ← hvalidate v.quorumTid]
          exact List.map_congr_left fun it _ => CItem.core_compare focus it

variable {moved : List (CItem × List Feed × List FedChain)} {α : Type*} {fuel n : Nat}
  {P : α → CItem × List Feed × List FedChain → Prop} {Q : α → CItem × List Feed → Prop}
  {xs : List α}

/-- The elements of a turn, with their FIFOs, from what they had advanced to. -/
theorem forall₂_zip_core (h : List.Forall₂ P xs moved)
    (hQ : ∀ x m it, P x m → it.core = m.1.core → Q x (it, m.2.1)) :
    ∀ its : List CItem, its.map CItem.core = (moved.map (·.1)).map CItem.core →
      List.Forall₂ Q xs (its.zip (moved.map (·.2.1))) := by
  induction h with
  | nil =>
    intro its _
    simp
  | cons hm _ ih =>
    intro its hits
    cases its with
    | nil => cases hits
    | cons it its =>
      simp only [List.map_cons, List.cons.injEq] at hits
      exact .cons (hQ _ _ it hm hits.1) (ih its hits.2)

/-- The elements after a turn, from what they had advanced to. -/
theorem Collector.forall₂_after {s : Collector} (h : List.Forall₂ P xs s.moved)
    (hQ : ∀ x m it, P x m → it.core = m.1.core → Q x (it, m.2.1)) :
    List.Forall₂ Q xs s.after.elements :=
  forall₂_zip_core h hQ _ (clusterCheck_core ..)

/-- The check leaves the chains and queues of the elements. -/
theorem Collector.moved_after (s : Collector) :
    List.Forall₂ (fun m (e : CItem × List Feed) => e.1.chain = m.1.chain ∧ e.2 = m.2.1)
      s.moved s.after.elements := by
  refine Collector.forall₂_after (P := fun m m' => m = m') (List.forall₂_same.2 fun _ _ => rfl) ?_
  rintro m _ it rfl hit
  exact ⟨congrArg (fun p => p.1.chain) hit, rfl⟩

/-- A turn drops no reference twice and loses none. -/
theorem Collector.retire_after (s : Collector) : s.after.retire.Perm s.retire := by
  have hflat : ∀ {moved : List (CItem × List Feed × List FedChain)} {es : List (CItem × List Feed)},
      List.Forall₂ (fun m e => e.1.chain = m.1.chain ∧ e.2 = m.2.1) moved es →
      es.flatMap (fun e => e.1.chain.toList) = moved.flatMap (fun m => m.1.chain.toList) ∧
        es.flatMap (fun e => e.2.filterMap (·.chain)) =
          moved.flatMap (fun m => m.2.1.filterMap (·.chain)) := by
    intro moved es h
    induction h with
    | nil => exact ⟨rfl, rfl⟩
    | cons hm _ ih => simp [hm.1, hm.2, ih.1, ih.2]
  have hmoved :
    s.moved.flatMap (fun m => m.2.2 ++ (m.1.chain.toList ++ m.2.1.filterMap (·.chain))) =
      s.elements.flatMap fun e => e.1.chain.toList ++ e.2.filterMap (·.chain) := by
    simp only [Collector.moved, List.flatMap_map, advance_refs]
  rw [Collector.retire, Collector.retire, (hflat s.moved_after).1, (hflat s.moved_after).2,
    List.append_assoc, List.append_assoc, Collector.after, List.append_assoc]
  refine List.Perm.append_left _ ?_
  have hinner := (List.flatMap_append_perm s.moved (fun m => m.1.chain.toList)
    fun m => m.2.1.filterMap (·.chain)).append_left (s.moved.flatMap (·.2.2))
  have houter := List.flatMap_append_perm s.moved (·.2.2)
    fun m => m.1.chain.toList ++ m.2.1.filterMap (·.chain)
  have hback := List.flatMap_append_perm s.elements (fun e => e.1.chain.toList)
    fun e => e.2.filterMap (·.chain)
  exact (hinner.trans houter).trans (hmoved ▸ hback.symm)

/-! ## Where the elements stand -/

variable {t : ScanStream} {c : FedChain}

/-- An element stands at the first chain of its stream at or past `key`, or at the end. -/
structure StandsAt (key : Nat) (t : ScanStream) (it : CItem) (fs : List Feed) : Prop where
  kind : it.kind = t.kind
  place : (∃ pre c post, t.chains = pre ++ c :: post ∧ (∀ d ∈ pre, d.key < key) ∧ key ≤ c.key ∧
      it.chain = some c ∧ it.error = 0 ∧ it.null = false ∧ fs = t.entries post) ∨
    (∀ d ∈ t.chains, d.key < key) ∧ it.chain = none ∧ it.null = true ∧ it.error = t.last ∧ fs = []

/-- An element has not gone past the first chain of its stream at or past `key`. -/
structure Tracks (key : Nat) (t : ScanStream) (it : CItem) (fs : List Feed) : Prop where
  kind : it.kind = t.kind
  place : (∃ pre post, t.chains = pre ++ post ∧ (∀ d ∈ pre, d.key < key) ∧
      it.chain = none ∧ it.null = false ∧ fs = t.entries post) ∨
    (∃ pre c post, t.chains = pre ++ c :: post ∧ (∀ d ∈ pre, d.key < key) ∧
      it.chain = some c ∧ it.error = 0 ∧ it.null = false ∧ fs = t.entries post) ∨
    (∀ d ∈ t.chains, d.key < key) ∧ it.chain = none ∧ it.null = true ∧ it.error = t.last ∧ fs = []

/-- A chain that the element stands at stays in its place for a higher key. -/
theorem StandsAt.tracks {key' : Nat} (h : StandsAt key t it fs) (hle : key ≤ key') :
    Tracks key' t it fs := by
  refine ⟨h.kind, ?_⟩
  rcases h.place with ⟨pre, c, post, hsplit, hpre, -, hrest⟩ | ⟨hall, hrest⟩
  · exact .inr (.inl ⟨pre, c, post, hsplit, fun d hd => (hpre d hd).trans_le hle, hrest⟩)
  · exact .inr (.inr ⟨fun d hd => (hall d hd).trans_le hle, hrest⟩)

/-- Taking an entry, when the element does not stand at a chain past `key`. -/
theorem Tracks.take {f : Feed} (h : Tracks key t it (f :: fs)) (hkeeps : it.keeps key = false) :
    Tracks key t (it.take f) fs := by
  -- Of the chains not taken, `post`, the next entry is the first one or the end.
  have hnext : ∀ pre post : List FedChain, t.chains = pre ++ post → (∀ d ∈ pre, d.key < key) →
      it.null = false → f :: fs = t.entries post → Tracks key t (it.take f) fs := by
    intro pre post hsplit hpre hnull heq
    refine ⟨h.kind, ?_⟩
    cases post with
    | nil =>
      obtain ⟨rfl, rfl⟩ := List.cons.inj heq
      rw [List.append_nil] at hsplit
      exact .inr (.inr ⟨hsplit ▸ hpre, rfl, by simp [CItem.take, feed],
        feed_none_error t.last, rfl⟩)
    | cons c post =>
      obtain ⟨rfl, rfl⟩ := List.cons.inj heq
      have hfree : c.error = 0 := t.free c (by simp [hsplit])
      exact .inr (.inl ⟨pre, c, post, hsplit, hpre, rfl, by simp [CItem.take, feed, hfree],
        by simp [CItem.take, feed, hnull], rfl⟩)
  rcases h.place with ⟨pre, post, hsplit, hpre, -, hnull, heq⟩ |
    ⟨pre, c, post, hsplit, hpre, hc, -, hnull, heq⟩ | ⟨-, -, -, -, heq⟩
  · exact hnext pre post hsplit hpre hnull heq
  · refine hnext (pre ++ [c]) post (by simp [hsplit]) (fun d hd => ?_) hnull heq
    rcases List.mem_append.1 hd with hd | hd
    · exact hpre d hd
    · rw [List.mem_singleton.1 hd]
      simpa [CItem.keeps, hc] using hkeeps
  · cases heq

/-- **Advancing an element** takes it to the first chain of its stream at or past `key`. -/
theorem Tracks.advance (h : Tracks key t it fs) :
    StandsAt key t (advance key it fs).1 (advance key it fs).2.1 := by
  rcases advance_rule (fun ht hk => Tracks.take ht hk) h with ⟨ht, hk⟩ | ⟨e, ht, hk, hit, hfs⟩
  · refine ⟨ht.kind, ?_⟩
    rcases ht.place with ⟨_, _, -, -, hc, -⟩ | ⟨pre, c, post, hsplit, hpre, hc, hrest⟩ | ⟨-, hc, -⟩
    · simp [CItem.keeps, hc] at hk
    · exact .inl ⟨pre, c, post, hsplit, hpre, by simpa [CItem.keeps, hc] using hk, hc, hrest⟩
    · simp [CItem.keeps, hc] at hk
  · rw [hit, hfs]
    refine ⟨ht.kind, ?_⟩
    rcases ht.place with ⟨_, _, -, -, -, -, heq⟩ | ⟨_, _, _, -, -, -, -, -, heq⟩ |
      ⟨hall, -, hnull, herr, -⟩
    · simp [ScanStream.entries] at heq
    · simp [ScanStream.entries] at heq
    · exact .inr ⟨hall, rfl, hnull, herr, rfl⟩

/-! ## The votes of the streams -/

/-- A master whose stream has `tid` for the key. -/
def ScanStream.holds (key tid : Nat) (t : ScanStream) : Bool :=
  t.kind.votes && t.chains.any fun c => c.key == key && c.modifyTid == tid

/-- The masters whose streams have `tid` for the key. -/
def streamVotes (streams : List ScanStream) (key tid : Nat) : Nat :=
  streams.countP (·.holds key tid)

/-- A quorum of masters agrees on the key. -/
def AgreedKey (nmasters : Nat) (streams : List ScanStream) (key : Nat) : Prop :=
  ∃ tid, quorum nmasters ≤ streamVotes streams key tid

variable {lo : Nat}

/-- A stream has a key between `key` and the chain its element stands at only there. -/
theorem StandsAt.mem_iff (h : StandsAt key t it fs) (hlo : key ≤ lo)
    (hlow : ∀ c, it.chain = some c → lo ≤ c.key) (hd : c.key = lo) :
    c ∈ t.chains ↔ it.chain = some c := by
  rcases h.place with ⟨pre, b, post, hsplit, hpre, hkey, hb, -⟩ | ⟨hall, hn, -⟩
  · have hasc := t.ascending
    rw [hsplit, List.pairwise_append, List.pairwise_cons] at hasc
    have hlob := hlow b hb
    rw [hb, Option.some_inj, hsplit, List.mem_append, List.mem_cons]
    constructor
    · rintro (hc | rfl | hc)
      · have := hpre c hc
        omega
      · rfl
      · have := hasc.2.1.1 c hc
        omega
    · rintro rfl
      exact .inr (.inl rfl)
  · rw [hn]
    refine ⟨fun hc => ?_, nofun⟩
    have := hall c hc
    omega

/-- The vote of an element on the lowest key is that of its stream. -/
theorem StandsAt.holds_iff (h : StandsAt key t it fs) (hlo : key ≤ lo) (hmax : lo ≠ keyMax)
    (hlow : ∀ c, it.chain = some c → lo ≤ c.key) (tid : Nat) :
    it.holds lo tid = true ↔ t.holds lo tid = true := by
  rw [CItem.holds_iff, h.kind]
  simp only [ScanStream.holds, Bool.and_eq_true, List.any_eq_true, beq_iff_eq]
  refine and_congr_right fun _ => exists_congr fun c => ?_
  constructor
  · rintro ⟨hc, hm, htid⟩
    have hck : c.key = lo := by simpa [FedChain.matchesKey, hmax] using hm
    exact ⟨(h.mem_iff hlo hlow hck).2 hc, hck, htid⟩
  · rintro ⟨hc, hck, htid⟩
    exact ⟨(h.mem_iff hlo hlow hck).1 hc, by simp [FedChain.matchesKey, hck], htid⟩

/-- **The votes on the lowest key are those of the streams.** -/
theorem votes_streams {streams : List ScanStream}
    (h : List.Forall₂ (fun t m => StandsAt key t m.1 m.2.1) streams moved) (hlo : key ≤ lo)
    (hmax : lo ≠ keyMax) (hlow : ∀ m ∈ moved, ∀ c, m.1.chain = some c → lo ≤ c.key) (tid : Nat) :
    votes (moved.map (·.1)) lo tid = streamVotes streams lo tid := by
  unfold votes streamVotes
  induction h with
  | nil => rfl
  | cons hm _ ih =>
    have hiff := hm.holds_iff hlo hmax (hlow _ List.mem_cons_self) tid
    rw [List.map_cons, List.countP_cons, List.countP_cons,
      ih fun m hm' => hlow m (List.mem_cons_of_mem _ hm')]
    simp only [hiff]

/-! ## A turn -/

theorem exists_of_forall₂ {β : Type*} {R : α → β → Prop} {ys : List β} (h : List.Forall₂ R xs ys) :
    ∀ x ∈ xs, ∃ y ∈ ys, R x y := by
  induction h with
  | nil => exact nofun
  | cons hR _ ih =>
    intro x hx
    rcases List.mem_cons.1 hx with rfl | hx
    · exact ⟨_, List.mem_cons_self, hR⟩
    · exact (ih x hx).imp fun y hy => ⟨List.mem_cons_of_mem _ hy.1, hy.2⟩

theorem lowestKey_append (items : List CItem) (it : CItem) :
    lowestKey (items ++ [it]) = match it.chain with
      | some c => if c.key < lowestKey items then c.key else lowestKey items
      | none => lowestKey items := by
  rw [lowestKey, List.foldl_append]
  rfl

/-- No element has a key below the lowest. -/
theorem lowestKey_le : ∀ it ∈ items, ∀ c, it.chain = some c → lowestKey items ≤ c.key := by
  induction items using List.reverseRecOn with
  | nil => simp
  | append_singleton items x ih =>
    intro it hit c hc
    rw [lowestKey_append]
    rcases List.mem_append.1 hit with hit | hit
    · have hle := ih it hit c hc
      split
      · split <;> omega
      · exact hle
    · rw [List.mem_singleton.1 hit] at hc
      rw [hc]
      dsimp only
      split <;> omega

/-- The lowest key is that of an element, if there is any. -/
theorem lowestKey_mem (items : List CItem) : lowestKey items = keyMax ∨
    ∃ it ∈ items, ∃ c, it.chain = some c ∧ c.key = lowestKey items := by
  induction items using List.reverseRecOn with
  | nil => exact .inl rfl
  | append_singleton items x ih =>
    have hold : lowestKey items = keyMax ∨
        ∃ it ∈ items ++ [x], ∃ c, it.chain = some c ∧ c.key = lowestKey items :=
      ih.imp_right fun ⟨it, hit, hc⟩ => ⟨it, List.mem_append_left _ hit, hc⟩
    rw [lowestKey_append]
    cases hx : x.chain with
    | none => exact hold
    | some c =>
      dsimp only
      split
      · exact .inr ⟨x, by simp, c, hx, rfl⟩
      · exact hold

variable {nmasters : Nat} {streams : List ScanStream} {s : Collector}

/-- The collector has not gone past the streams' chains at or past `collect_key`. -/
structure Follows (nmasters : Nat) (streams : List ScanStream) (s : Collector) : Prop where
  nmasters_eq : s.nmasters = nmasters
  bounded : s.collectKey ≤ keyMax
  tracks : List.Forall₂ (fun t e => Tracks s.collectKey t e.1 e.2) streams s.elements

/-- The collector starts with the streams. -/
theorem follows_start (nmasters : Nat) (streams : List ScanStream) :
    Follows nmasters streams (.start nmasters streams) := by
  refine ⟨rfl, Nat.zero_le _, ?_⟩
  rw [Collector.start, List.forall₂_map_right_iff]
  exact List.forall₂_same.2 fun t _ => ⟨rfl, .inl ⟨[], t.chains, rfl, nofun, rfl, rfl, rfl⟩⟩

/-- After a move every element stands at its next chain. -/
theorem Follows.stands (h : Follows nmasters streams s) :
    List.Forall₂ (fun t m => StandsAt s.collectKey t m.1 m.2.1) streams s.moved := by
  rw [Collector.moved, List.forall₂_map_right_iff]
  exact h.tracks.imp fun _ _ ht => ht.advance

/-- The key a turn decides on: the lowest of the streams at or past `collect_key`. -/
structure NextKey (streams : List ScanStream) (key lo : Nat) : Prop where
  le : key ≤ lo
  lt : lo < keyMax
  present : ∃ t ∈ streams, ∃ c ∈ t.chains, c.key = lo
  least : ∀ t ∈ streams, ∀ c ∈ t.chains, key ≤ c.key → lo ≤ c.key

/-- The streams have no chain at or past `collect_key`. -/
def Exhausted (streams : List ScanStream) (key : Nat) : Prop :=
  ∀ t ∈ streams, ∀ c ∈ t.chains, c.key < key

/-- A stream of an element that stands at the lowest key or behind it has no key in between. -/
theorem StandsAt.least (h : StandsAt key t it fs) (hlow : ∀ c, it.chain = some c → lo ≤ c.key) :
    ∀ d ∈ t.chains, key ≤ d.key → lo ≤ d.key := by
  intro d hd hkey
  rcases h.place with ⟨pre, b, post, hsplit, hpre, -, hb, -⟩ | ⟨hall, -⟩
  · have hasc := t.ascending
    have hlob := hlow b hb
    rw [hsplit, List.pairwise_append, List.pairwise_cons] at hasc
    rw [hsplit, List.mem_append, List.mem_cons] at hd
    rcases hd with hd | rfl | hd
    · have := hpre d hd
      omega
    · exact hlob
    · have := hasc.2.1.1 d hd
      omega
  · have := hall d hd
    omega

/-- The chain of an element is one of its stream. -/
theorem StandsAt.mem (h : StandsAt key t it fs) (hc : it.chain = some c) :
    c ∈ t.chains ∧ key ≤ c.key := by
  rcases h.place with ⟨pre, b, post, hsplit, -, hkey, hb, -⟩ | ⟨-, hn, -⟩
  · obtain rfl : b = c := Option.some_inj.1 (hb.symm.trans hc)
    exact ⟨by simp [hsplit], hkey⟩
  · cases hn.symm.trans hc

/-- An element without a chain has passed its stream. -/
theorem StandsAt.lt_of_none (h : StandsAt key t it fs) (hc : it.chain = none) :
    ∀ d ∈ t.chains, d.key < key := by
  rcases h.place with ⟨pre, b, post, -, -, -, hb, -⟩ | ⟨hall, -⟩
  · cases hb.symm.trans hc
  · exact hall

/-- A turn finds the next key, or that there is none. -/
theorem Follows.lowest (h : Follows nmasters streams s) :
    NextKey streams s.collectKey (lowestKey s.items) ∧ s.items.all (·.chain.isNone) = false ∨
      Exhausted streams s.collectKey ∧ lowestKey s.items = keyMax ∧
        s.items.all (·.chain.isNone) = true := by
  have hitem := exists_of_forall₂ h.stands
  have hstream : ∀ it ∈ s.items, ∃ t ∈ streams, ∃ fs, StandsAt s.collectKey t it fs := by
    intro it hit
    obtain ⟨m, hm, rfl⟩ := List.mem_map.1 hit
    obtain ⟨t, ht, hst⟩ := exists_of_forall₂ (List.Forall₂.flip h.stands) m hm
    exact ⟨t, ht, m.2.1, hst⟩
  cases hall : s.items.all (·.chain.isNone) with
  | true =>
    have hnone : ∀ it ∈ s.items, it.chain = none := by simpa using hall
    refine .inr ⟨?_, ?_, rfl⟩
    · intro t ht
      obtain ⟨m, hm, hst⟩ := hitem t ht
      exact hst.lt_of_none (hnone _ (List.mem_map_of_mem hm))
    · rcases lowestKey_mem s.items with hmax | ⟨it, hit, c, hc, -⟩
      · exact hmax
      · cases (hnone it hit).symm.trans hc
  | false =>
    obtain ⟨x, hx, b, hb⟩ : ∃ it ∈ s.items, ∃ c, it.chain = some c := by
      simpa [Option.isNone_iff_eq_none, Option.ne_none_iff_exists'] using hall
    obtain ⟨t, -, fs, hst⟩ := hstream x hx
    have hlt : lowestKey s.items < keyMax :=
      (lowestKey_le x hx b hb).trans_lt (t.bounded b (hst.mem hb).1)
    obtain ⟨it, hit, c, hc, hkey⟩ := (lowestKey_mem s.items).resolve_left hlt.ne
    obtain ⟨t, ht, fs, hst⟩ := hstream it hit
    refine .inl ⟨⟨hkey ▸ (hst.mem hc).2, hlt, ⟨t, ht, c, (hst.mem hc).1, hkey⟩, ?_⟩, rfl⟩
    intro u hu
    obtain ⟨m, hm, hsu⟩ := hitem u hu
    exact hsu.least (lowestKey_le m.1 (List.mem_map_of_mem hm))

/-- What an element has when it stands at the first chain past `key`: it has a chain without error,
or has ended well. -/
theorem StandsAt.clean (h : StandsAt key t it fs) :
    (it.chain = none → it.null = true) ∧ (it.chain ≠ none → it.error = 0) ∧
      (it.error = 0 ∨ it.error = errorEnoent) := by
  rcases h.place with ⟨pre, b, post, -, -, -, hb, herr, -⟩ | ⟨-, hn, hnull, herr, -⟩
  · exact ⟨fun hc => absurd (hb.symm.trans hc) nofun, fun _ => herr, .inl herr⟩
  · exact ⟨fun _ => hnull, fun hc => absurd hn hc, herr ▸ t.ends⟩

/-- The items of a turn have a chain without error, or have ended well. -/
theorem Follows.clean (h : Follows nmasters streams s) : ∀ it ∈ s.items,
    (it.chain = none → it.null = true) ∧ (it.chain ≠ none → it.error = 0) ∧
      (it.error = 0 ∨ it.error = errorEnoent) := by
  intro it hit
  obtain ⟨m, hm, rfl⟩ := List.mem_map.1 hit
  obtain ⟨t, -, hst⟩ := exists_of_forall₂ (List.Forall₂.flip h.stands) m hm
  exact hst.clean

/-- The masters among the elements are those of the streams. -/
theorem Follows.countP_votes (h : Follows nmasters streams s) :
    s.items.countP (·.kind.votes) = streams.countP (·.kind.votes) := by
  have hstands := h.stands
  unfold Collector.items
  generalize s.moved = moved at hstands
  clear h
  induction hstands with
  | nil => rfl
  | cons hst _ ih => simp only [List.map_cons, List.countP_cons, ih, hst.kind]

/-- The ids of the streams are below the one the check starts from. -/
def TidsBounded (streams : List ScanStream) : Prop :=
  ∀ t ∈ streams, ∀ c ∈ t.chains, c.modifyTid < tidMax

theorem quorum_pos (nmasters : Nat) : 0 < quorum nmasters := by
  unfold quorum
  omega

/-- An id with a vote is that of a chain. -/
theorem exists_of_streamVotes {tid : Nat} (h : 0 < streamVotes streams lo tid) :
    ∃ t ∈ streams, t.kind.votes = true ∧ ∃ c ∈ t.chains, c.key = lo ∧ c.modifyTid = tid := by
  obtain ⟨t, ht, hh⟩ := List.countP_pos_iff.1 h
  simp only [ScanStream.holds, Bool.and_eq_true, List.any_eq_true, beq_iff_eq] at hh
  exact ⟨t, ht, hh.1, hh.2⟩

/-- A chain that a quorum of masters agrees on. -/
def AgreedChain (nmasters : Nat) (streams : List ScanStream) (c : FedChain) : Prop :=
  (∃ t ∈ streams, t.kind.votes = true ∧ c ∈ t.chains) ∧
    quorum nmasters ≤ streamVotes streams c.key c.modifyTid

/-- The votes for the lowest key are those of the streams. -/
theorem Follows.votes_eq (h : Follows nmasters streams s)
    (hnext : NextKey streams s.collectKey (lowestKey s.items)) (tid : Nat) :
    votes s.items (lowestKey s.items) tid = streamVotes streams (lowestKey s.items) tid :=
  votes_streams h.stands hnext.le hnext.lt.ne
    (fun m hm => lowestKey_le m.1 (List.mem_map_of_mem hm)) tid

/-- A turn on a key that the masters agree on returns a chain of theirs. -/
theorem Follows.returns (h : Follows nmasters streams s)
    (hnext : NextKey streams s.collectKey (lowestKey s.items))
    (hnull : s.items.all (·.chain.isNone) = false) (htids : TidsBounded streams)
    (hagreed : AgreedKey nmasters streams (lowestKey s.items)) :
    ∃ c, s.turn = some 0 ∧ s.after.focus = some c ∧ c.key = lowestKey s.items ∧
      AgreedChain nmasters streams c := by
  have hkey : KeyExact s.items (lowestKey s.items) := .inl hnext.lt.ne
  obtain ⟨t, hvotes⟩ := hagreed
  obtain ⟨u, hu, -, d, hd, -, rfl⟩ := exists_of_streamVotes ((quorum_pos _).trans_le hvotes)
  rw [← h.votes_eq hnext] at hvotes
  obtain ⟨tid, hbest⟩ := exists_bestTid ⟨d.modifyTid, htids u hu d hd, hvotes⟩
  have hfree : AgreeFree s.items (lowestKey s.items) tid := by
    intro it hit hagrees
    refine (h.clean it hit).2.1 fun hn => ?_
    simp [CItem.agrees, hn] at hagrees
  have hzero : s.check.result = 0 := by
    rw [Collector.check, hnull, h.nmasters_eq]
    exact (clusterCheck_eq_zero_iff nmasters s.focusIndex hkey).2 ⟨tid, hbest, hfree⟩
  obtain ⟨it, hit, hholds, hfocus, -⟩ := clusterCheck_focus s.focusIndex hkey hbest hfree
  obtain ⟨hv, c, hc, hm, rfl⟩ := CItem.holds_iff.1 hholds
  have hck : c.key = lowestKey s.items := by
    simpa [FedChain.matchesKey, hnext.lt.ne] using hm
  refine ⟨c, ?_, ?_, hck, ?_, ?_⟩
  · rw [Collector.turn, hzero, if_neg (by decide)]
  · rw [Collector.after, Collector.check, hnull, h.nmasters_eq]
    exact hfocus.symm.trans hc
  · obtain ⟨m, hm', rfl⟩ := List.mem_map.1 hit
    obtain ⟨t', ht', hst⟩ := exists_of_forall₂ (List.Forall₂.flip h.stands) m hm'
    exact ⟨t', ht', hst.kind ▸ hv, (hst.mem hc).1⟩
  · rw [hck, ← h.votes_eq hnext]
    exact hbest.2.1

/-- A turn on a key that the masters do not agree on goes round again. -/
theorem Follows.skips (h : Follows nmasters streams s)
    (hnext : NextKey streams s.collectKey (lowestKey s.items))
    (hnull : s.items.all (·.chain.isNone) = false)
    (hall : nmasters ≤ streams.countP (·.kind.votes))
    (hagreed : ¬ AgreedKey nmasters streams (lowestKey s.items)) : s.turn = none := by
  have hzero : ∀ f : CItem → Bool, (∀ it ∈ s.items, f it = false) → s.items.countP f = 0 :=
    fun f hf => List.countP_eq_zero.2 fun it hit => by simp [hf it hit]
  have hpending : s.items.countP (·.pending) = 0 := by
    refine hzero _ fun it hit => ?_
    cases hc : it.chain with
    | none => simp [CItem.pending, (h.clean it hit).1 hc]
    | some c => simp [CItem.pending, hc]
  have hcut : s.items.countP (·.cutOff) = 0 := by
    refine hzero _ fun it hit => ?_
    have hconn : disconnected it.error = false := by
      rcases (h.clean it hit).2.2 with he | he <;> rw [he] <;> decide
    simp [CItem.cutOff, hconn]
  have hskip : s.check.result = errorEsrch ∨ s.check.result = errorEdeadlk := by
    rw [Collector.check, hnull, h.nmasters_eq]
    refine clusterCheck_skips s.focusIndex (fun t _ => ?_) hpending hcut (h.countP_votes ▸ hall)
    rw [h.votes_eq hnext]
    exact Nat.lt_of_not_le fun hq => hagreed ⟨t, hq⟩
  rw [Collector.turn, if_pos hskip, if_pos hnext.lt.ne]

/-- A turn behind the last key returns `ENOENT`. -/
theorem Follows.ends (h : Follows nmasters streams s) (hmax : lowestKey s.items = keyMax)
    (hnull : s.items.all (·.chain.isNone) = true)
    (hall : nmasters ≤ streams.countP (·.kind.votes)) : s.turn = some errorEnoent := by
  have hnone : ∀ it ∈ s.items, it.chain = none := by simpa using hnull
  have hresult : s.check.result = errorEnoent ∨ s.check.result = errorEsrch := by
    rw [Collector.check, hnull, h.nmasters_eq]
    refine clusterCheck_atEnd s.focusIndex _ (fun it hit => ?_) (h.countP_votes ▸ hall)
    have hclean := h.clean it hit
    exact ⟨hnone it hit, hclean.1 (hnone it hit), hclean.2.2⟩
  rw [Collector.turn, hmax]
  rcases hresult with hr | hr
  · rw [hr, if_neg (by decide)]
  · rw [if_pos (.inl hr), if_neg (by simp)]

/-- A turn keeps the collector in step with the streams. -/
theorem Follows.after (h : Follows nmasters streams s) : Follows nmasters streams s.after := by
  have hkey : s.collectKey ≤ s.after.collectKey ∧ s.after.collectKey ≤ keyMax := by
    rw [Collector.after]
    dsimp only
    rcases h.lowest with ⟨hnext, -⟩ | ⟨-, hmax, -⟩
    · rw [if_neg hnext.lt.ne]
      exact ⟨hnext.le.trans (Nat.le_succ _), hnext.lt⟩
    · rw [if_pos hmax]
      exact ⟨h.bounded, le_refl _⟩
  refine ⟨h.nmasters_eq, hkey.2, Collector.forall₂_after h.stands fun t m it hst hcore => ?_⟩
  obtain ⟨hfeed, hkind, hnull⟩ : it.toFeed = m.1.toFeed ∧ it.kind = m.1.kind ∧
      it.null = m.1.null := by simpa [CItem.core] using hcore
  refine StandsAt.tracks ⟨hkind.trans hst.kind, ?_⟩ hkey.1
  rw [hfeed, hnull]
  exact hst.place

/-- The chains of the streams at or past `key`. -/
def chainsLeft (streams : List ScanStream) (key : Nat) : Nat :=
  (streams.flatMap (·.chains)).countP (key ≤ ·.key)

/-- Each key leaves fewer chains. -/
theorem NextKey.chainsLeft_lt (h : NextKey streams key lo) :
    chainsLeft streams (lo + 1) < chainsLeft streams key := by
  obtain ⟨t, ht, c, hc, rfl⟩ := h.present
  have hsub : chainsLeft streams (c.key + 1) =
      ((streams.flatMap (·.chains)).filter (key ≤ ·.key)).countP (c.key + 1 ≤ ·.key) := by
    rw [List.countP_filter, chainsLeft]
    refine List.countP_congr fun d _ => ?_
    have := h.le
    simp only [decide_eq_true_eq, Bool.and_eq_true]
    omega
  rw [hsub, chainsLeft, List.countP_eq_length_filter (p := fun d : FedChain => key ≤ d.key),
    List.countP_lt_length_iff]
  refine ⟨c, ?_, by simp⟩
  simpa using ⟨⟨t, ht, hc⟩, h.le⟩

/-- No key that the masters agree on lies before the next one. -/
theorem NextKey.not_agreed (h : NextKey streams key lo) :
    ∀ k, key ≤ k → k < lo → ¬ AgreedKey nmasters streams k := by
  rintro k hk hlt ⟨tid, hq⟩
  obtain ⟨t, ht, -, c, hc, rfl, -⟩ := exists_of_streamVotes ((quorum_pos _).trans_le hq)
  exact absurd (h.least t ht c hc hk) (Nat.not_le.2 hlt)

/-- Past the streams nothing is agreed on. -/
theorem Exhausted.not_agreed (h : Exhausted streams key) :
    ∀ k, key ≤ k → ¬ AgreedKey nmasters streams k := by
  rintro k hk ⟨tid, hq⟩
  obtain ⟨t, ht, -, c, hc, rfl, -⟩ := exists_of_streamVotes ((quorum_pos _).trans_le hq)
  exact absurd (h t ht c hc) (Nat.not_lt.2 hk)

/-- **A turn** returns the next key if the masters agree on it and skips it otherwise, or returns
the end behind the last one. -/
theorem Collector.turn_spec (h : Follows nmasters streams s)
    (hall : nmasters ≤ streams.countP (·.kind.votes)) (htids : TidsBounded streams) :
    (∃ lo, NextKey streams s.collectKey lo ∧ s.after.collectKey = lo + 1 ∧
      ((∃ c, s.turn = some 0 ∧ s.after.focus = some c ∧ c.key = lo ∧
        AgreedChain nmasters streams c) ∨ s.turn = none ∧ ¬ AgreedKey nmasters streams lo)) ∨
      Exhausted streams s.collectKey ∧ s.turn = some errorEnoent ∧
        Exhausted streams s.after.collectKey := by
  rcases h.lowest with ⟨hnext, hnull⟩ | ⟨hex, hmax, hnull⟩
  · refine .inl ⟨_, hnext, if_neg hnext.lt.ne, ?_⟩
    by_cases hagreed : AgreedKey nmasters streams (lowestKey s.items)
    · exact .inl (h.returns hnext hnull htids hagreed)
    · exact .inr ⟨h.skips hnext hnull hall hagreed, hagreed⟩
  · refine .inr ⟨hex, h.ends hmax hnull hall, fun t ht c hc => ?_⟩
    rw [Collector.after, if_pos hmax]
    exact t.bounded c hc

/-! ## The calls -/

/-- A call of `n` turns returns the chain `c`, the first that the masters agree on. -/
structure Returned (nmasters : Nat) (streams : List ScanStream) (fuel : Nat) (s : Collector)
    (c : FedChain) (n : Nat) : Prop where
  returns : s.collect fuel = some (0, Collector.after^[n] s, n)
  focus : (Collector.after^[n] s).focus = some c
  agreed : AgreedChain nmasters streams c
  le : s.collectKey ≤ c.key
  next : (Collector.after^[n] s).collectKey = c.key + 1
  skipped : ∀ k, s.collectKey ≤ k → k < c.key → ¬ AgreedKey nmasters streams k
  turns : n + chainsLeft streams (c.key + 1) ≤ chainsLeft streams s.collectKey

/-- A call of `n` turns finds no more keys that the masters agree on. -/
structure Finished (nmasters : Nat) (streams : List ScanStream) (fuel : Nat) (s : Collector)
    (n : Nat) : Prop where
  ends : s.collect fuel = some (errorEnoent, Collector.after^[n] s, n)
  exhausted : Exhausted streams (Collector.after^[n] s).collectKey
  skipped : ∀ k, s.collectKey ≤ k → ¬ AgreedKey nmasters streams k
  turns : n ≤ chainsLeft streams s.collectKey + 1

/-- The collector follows the streams through all calls. -/
theorem Follows.iterate (h : Follows nmasters streams s) (n : Nat) :
    Follows nmasters streams (Collector.after^[n] s) := by
  induction n generalizing s with
  | zero => exact h
  | succ n ih => exact ih h.after

/-- The keys before the next one are skipped, and the next one when the masters do not agree on
it. -/
theorem NextKey.skipped (h : NextKey streams key lo)
    (hlo : ¬ AgreedKey nmasters streams lo) {k : Nat}
    (hk : key ≤ k) (hrest : lo + 1 ≤ k → ¬ AgreedKey nmasters streams k) :
    ¬ AgreedKey nmasters streams k := by
  rcases Nat.lt_trichotomy k lo with hlt | rfl | hgt
  · exact h.not_agreed k hk hlt
  · exact hlo
  · exact hrest hgt

/-- **A call** returns the next key that the masters agree on, or the end. -/
theorem Collector.collect_spec (hall : nmasters ≤ streams.countP (·.kind.votes))
    (htids : TidsBounded streams) (h : Follows nmasters streams s)
    (hfuel : chainsLeft streams s.collectKey < fuel) :
    (∃ c n, Returned nmasters streams fuel s c n) ∨ ∃ n, Finished nmasters streams fuel s n := by
  induction fuel generalizing s with
  | zero => omega
  | succ fuel ih =>
    rcases turn_spec h hall htids with ⟨lo, hnext, hkey, ⟨c, hturn, hfocus, rfl, hagreed⟩ |
      ⟨hturn, hnot⟩⟩ | ⟨hex, hturn, hex'⟩
    · left
      have hlt := hnext.chainsLeft_lt
      refine ⟨c, 1, ?_, hfocus, hagreed, hnext.le, hkey, hnext.not_agreed, by omega⟩
      rw [collect, hturn]
      rfl
    · have hlt := hnext.chainsLeft_lt
      have hle := hnext.le
      rw [← hkey] at hlt
      have hcall : s.collect (fuel + 1) =
          (s.after.collect fuel).map fun r => (r.1, r.2.1, r.2.2 + 1) := by
        rw [collect, hturn]
      rcases ih h.after (by omega) with ⟨c, n, hr⟩ | ⟨n, hf⟩
      · have hck := hr.le
        refine .inl ⟨c, n + 1, ?_, hr.focus, hr.agreed, by omega, hr.next, ?_, ?_⟩
        · rw [hcall, hr.returns]
          rfl
        · exact fun k hk hlt => hnext.skipped hnot hk fun hgt => hr.skipped k (hkey ▸ hgt) hlt
        · have := hr.turns
          omega
      · refine .inr ⟨n + 1, ?_, hf.exhausted, ?_, ?_⟩
        · rw [hcall, hf.ends]
          rfl
        · exact fun k hk => hnext.skipped hnot hk fun hgt => hf.skipped k (hkey ▸ hgt)
        · have := hf.turns
          omega
    · refine .inr ⟨1, ?_, hex', hex.not_agreed, by omega⟩
      rw [collect, hturn]
      rfl

/-- What the calls from `s` on return: the chains `cs`, then the end, in `n` turns. -/
structure Collected (nmasters : Nat) (streams : List ScanStream) (fuel : Nat) (s : Collector)
    (cs : List FedChain) (n : Nat) : Prop where
  calls : s.Calls fuel cs n (Collector.after^[n] s)
  exhausted : Exhausted streams (Collector.after^[n] s).collectKey
  turns : n ≤ chainsLeft streams s.collectKey + 1
  ascending : cs.Pairwise (·.key < ·.key)
  agreed : ∀ c ∈ cs, s.collectKey ≤ c.key ∧ AgreedChain nmasters streams c
  complete : ∀ k, s.collectKey ≤ k → AgreedKey nmasters streams k → ∃ c ∈ cs, c.key = k

/-- The chain of a call goes before those of the calls behind it. -/
theorem Returned.collected {m : Nat} {cs : List FedChain}
    (hr : Returned nmasters streams fuel s c n)
    (hcs : Collected nmasters streams fuel (Collector.after^[n] s) cs m) :
    Collected nmasters streams fuel s (c :: cs) (n + m) := by
  have hiter : Collector.after^[m] (Collector.after^[n] s) = Collector.after^[n + m] s := by
    rw [← Function.iterate_add_apply, Nat.add_comm]
  have hle := hr.le
  refine ⟨?_, hiter ▸ hcs.exhausted, ?_, ?_, ?_, ?_⟩
  · exact .found hr.returns hr.focus (hiter ▸ hcs.calls)
  · have hn := hr.turns
    have hm := hcs.turns
    rw [hr.next] at hm
    omega
  · refine List.pairwise_cons.2 ⟨fun d hd => ?_, hcs.ascending⟩
    have := (hcs.agreed d hd).1
    rw [hr.next] at this
    omega
  · intro d hd
    rcases List.mem_cons.1 hd with rfl | hd
    · exact ⟨hle, hr.agreed⟩
    · have := (hcs.agreed d hd).1
      rw [hr.next] at this
      exact ⟨by omega, (hcs.agreed d hd).2⟩
  · intro k hk hagreed
    rcases Nat.lt_trichotomy k c.key with hlt | rfl | hgt
    · exact absurd hagreed (hr.skipped k hk hlt)
    · exact ⟨c, List.mem_cons_self, rfl⟩
    · obtain ⟨d, hd, rfl⟩ := hcs.complete k (by rw [hr.next]; omega) hagreed
      exact ⟨d, List.mem_cons_of_mem _ hd, rfl⟩

/-- A scan at its end has collected all. -/
theorem Finished.collected (hf : Finished nmasters streams fuel s n) :
    Collected nmasters streams fuel s [] n :=
  ⟨.done hf.ends, hf.exhausted, hf.turns, .nil, nofun, fun k hk h => absurd h (hf.skipped k hk)⟩

/-- Calls with enough fuel reach the end. -/
theorem exists_collected (hall : nmasters ≤ streams.countP (·.kind.votes))
    (htids : TidsBounded streams) (fuel left : Nat) (h : Follows nmasters streams s)
    (hleft : chainsLeft streams s.collectKey ≤ left) (hfuel : left < fuel) :
    ∃ cs n, Collected nmasters streams fuel s cs n := by
  induction left using Nat.strong_induction_on generalizing s with
  | _ left ih =>
    rcases Collector.collect_spec hall htids h (hleft.trans_lt hfuel) with ⟨c, n, hr⟩ | ⟨n, hf⟩
    · -- A call takes a turn at least.
      have hpos : n ≠ 0 := by
        rintro rfl
        have := hr.le
        have := hr.next
        simp only [Function.iterate_zero, id_eq] at this
        omega
      have hturns := hr.turns
      have hrest := hr.next
      obtain ⟨cs, m, hcs⟩ := ih (chainsLeft streams (c.key + 1)) (by omega) (h.iterate n)
        (by rw [hrest]) (by omega)
      exact ⟨_, _, hr.collected hcs⟩
    · exact ⟨[], n, hf.collected⟩

/-- No chain gets lost between the fifos and the elements. -/
theorem Collector.retire_iterate (s : Collector) (n : Nat) :
    (Collector.after^[n] s).retire.Perm s.retire := by
  induction n generalizing s with
  | zero => exact .refl _
  | succ n ih => exact (ih s.after).trans s.retire_after

/-- At the start all chains are in the fifos. -/
theorem Collector.retire_start (nmasters : Nat) (streams : List ScanStream) :
    (start nmasters streams).retire = streams.flatMap (·.chains) := by
  have hentries : ∀ t : ScanStream, (t.entries t.chains).filterMap (·.chain) = t.chains := by
    intro t
    simp [ScanStream.entries, feed, List.filterMap_append, List.filterMap_map]
  simp [retire, start, List.flatMap_map, hentries]

/-- Behind the last key every call returns `ENOENT`. -/
theorem Follows.stays_ended (h : Follows nmasters streams s)
    (hall : nmasters ≤ streams.countP (·.kind.votes)) (htids : TidsBounded streams)
    (hex : Exhausted streams s.collectKey) (m : Nat) :
    (Collector.after^[m] s).collect 1 = some (errorEnoent, Collector.after^[m + 1] s, 1) := by
  induction m generalizing s with
  | zero =>
    rcases Collector.turn_spec h hall htids with ⟨lo, hnext, -⟩ | ⟨-, hturn, -⟩
    · obtain ⟨t, ht, c, hc, rfl⟩ := hnext.present
      exact absurd (hex t ht c hc) (Nat.not_lt.2 hnext.le)
    · simp only [Function.iterate_zero, id_eq, Collector.collect, hturn]
      rfl
  | succ m ih =>
    rcases Collector.turn_spec h hall htids with ⟨lo, hnext, -⟩ | ⟨-, -, hex'⟩
    · obtain ⟨t, ht, c, hc, rfl⟩ := hnext.present
      exact absurd (hex t ht c hc) (Nat.not_lt.2 hnext.le)
    · exact ih h.after hex'

/-- **Collecting a scan** of a cluster that has its masters: the calls return the keys on which a
quorum agrees, each once and in ascending order, and then `ENOENT` for good, in at most one turn
more than there are chains; at any time `hammer2_xop_retire` leaves every reference dropped once. -/
theorem collect_agreed (nmasters : Nat) (streams : List ScanStream)
    (hall : nmasters ≤ streams.countP (·.kind.votes)) (htids : TidsBounded streams) :
    let fed := streams.flatMap (·.chains)
    let s := Collector.start nmasters streams
    ∃ cs n, s.Calls (fed.length + 1) cs n (Collector.after^[n] s) ∧ n ≤ fed.length + 1 ∧
      cs.Pairwise (·.key < ·.key) ∧ (∀ c ∈ cs, AgreedChain nmasters streams c) ∧
      (∀ key, AgreedKey nmasters streams key → ∃ c ∈ cs, c.key = key) ∧
      (∀ m, (Collector.after^[m] (Collector.after^[n] s)).collect 1 =
        some (errorEnoent, Collector.after^[m + 1] (Collector.after^[n] s), 1)) ∧
      ∀ m, (Collector.after^[m] s).retire.Perm fed := by
  intro fed s
  have hfollows := follows_start nmasters streams
  have hleft : chainsLeft streams 0 = fed.length := by simp [chainsLeft, fed]
  obtain ⟨cs, n, h⟩ := exists_collected hall htids (fed.length + 1) fed.length hfollows hleft.le
    (Nat.lt_succ_self _)
  refine ⟨cs, n, h.calls, hleft ▸ h.turns, h.ascending, fun c hc => (h.agreed c hc).2,
    fun key => h.complete key (Nat.zero_le _), ?_, ?_⟩
  · exact (hfollows.iterate n).stays_ended hall htids h.exhausted
  · exact fun m => (s.retire_iterate m).trans (.of_eq (Collector.retire_start nmasters streams))

/-- An inode at `key`, modified by `tid`. -/
def inodeAt (key tid : Nat) : FedChain := ⟨0, .inode, key, 0, tid, 0, 0, false⟩

/-- A master that feeds `chains`. -/
def masterScan (chains : List FedChain) (free : ∀ c ∈ chains, c.error = 0 := by decide)
    (ascending : chains.Pairwise (·.key < ·.key) := by decide)
    (bounded : ∀ c ∈ chains, c.key < keyMax := by decide) : ScanStream :=
  ⟨.master, chains, 0, free, ascending, bounded, .inl rfl⟩

/-- Three masters: two agree on the key 5, one is behind there and has a key of its own. -/
def threeScans : List ScanStream :=
  [masterScan [inodeAt 5 8], masterScan [inodeAt 5 7, inodeAt 6 9], masterScan [inodeAt 5 8]]

/-- Three masters that agree on key 5. -/
theorem collect_agreed_three :
    ∃ cs n, (Collector.start 3 threeScans).Calls 5 cs n
      (Collector.after^[n] (Collector.start 3 threeScans)) ∧ n ≤ 5 ∧ ∃ c ∈ cs, c.key = 5 := by
  obtain ⟨cs, n, hcalls, hn, -, -, hcomplete, -⟩ :=
    collect_agreed 3 threeScans (by decide) (by unfold TidsBounded; decide)
  exact ⟨cs, n, hcalls, hn, hcomplete 5 ⟨8, by decide⟩⟩

/-- With one of three masters missing, a key that one of the others lacks ends the scan with
`ENOTCONN`; and a key that all masters have under the highest id is skipped. -/
theorem collect_not_agreed :
    (∀ fuel, ¬ ∃ cs n s', (Collector.start 3 [masterScan [inodeAt 5 8], masterScan []]).Calls
      fuel cs n s') ∧
    AgreedKey 1 [masterScan [inodeAt 5 tidMax]] 5 ∧
      ∃ s', (Collector.start 1 [masterScan [inodeAt 5 tidMax]]).Calls 2 [] 2 s' := by
  have hturn : (Collector.start 3 [masterScan [inodeAt 5 8], masterScan []]).turn =
      some errorEnotconn := by decide
  have hcall : ∀ fuel error s' n, (Collector.start 3 [masterScan [inodeAt 5 8],
      masterScan []]).collect fuel = some (error, s', n) → error = errorEnotconn := by
    rintro (_ | fuel) error s' n h
    · cases h
    · rw [Collector.collect, hturn] at h
      exact (congrArg Prod.fst (Option.some_inj.1 h)).symm
  refine ⟨?_, ⟨tidMax, by decide⟩, _, .done rfl⟩
  rintro fuel ⟨cs, n, s', h⟩
  cases h with
  | done h | found h => exact absurd (hcall _ _ _ _ h) (by decide)

end

end Hammer2
