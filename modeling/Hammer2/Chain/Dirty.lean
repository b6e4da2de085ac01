import Hammer2.Lib.Run
import Hammer2.Lib.Count

/-!
# The counts of dirty chains

Two counters follow the `MODIFIED` flag of the chains: `hammer2_count_chain_modified` for all of
them, and `inmem_dirty_chains` of each PFS for its own. A writer that finds the count of its PFS at
the limit marks the word of the count as waited for (its top bit) and sleeps; whoever takes the
count down to two thirds of the limit finds the mark and wakes it up. Between two thirds and the
limit the writer could go on, but sleeps until its timeout (`Gap`).

The flag is set by `hammer2_chain_modify` and `hammer2_voldata_modify`, and cleared by the flush, by
the last drop of a chain without parent, by a deduplication, by an unmount, and by
`hammer2_chain_modify` itself when no block can be allocated. The last two leave the PFS's count as
it is. The PFS of a chain is also set and unset apart from these (`hammer2_pfsalloc`,
`hammer2_pfsdealloc`), whatever the flag.

As long as a chain is counted to the PFS it belongs to (`DirtySys.Inv`) the counts are exact, and as
long as no count is taken into the gap under a writer that sleeps, a writer sleeps only while a
limit holds it back (`dirty_exact`).

Reference: `hammer2_chain.c:1439-1661`, `hammer2_chain.c:563-843`, `hammer2_flush.c:630-668`,
`hammer2_vfsops.c:385-395`, `hammer2_vfsops.c:506-507`, `hammer2_vfsops.c:961-993`,
`hammer2_vfsops.c:2396-2464`.
-/

namespace Hammer2

open Transition Function

/-- `HAMMER2_DIRTYCHAIN_WAITING`, the bit above the count. -/
def dirtychainWaiting : Nat := 2 ^ 31

/-- What the counting reads of a chain: `assigned` is a block in `bref.data_off`, `sized` that
`bytes` is not 0, `static` one of `vchain` and `fchain`. `counted` is the PFS whose count was raised
when `MODIFIED` was set. -/
structure DirtyChain where
  modified : Bool
  dedupable : Bool
  assigned : Bool
  sized : Bool
  static : Bool
  pmp : Option Nat
  counted : Option Nat
  deriving DecidableEq

/-- Where a writer is in `hammer2_pfs_memory_wait`. -/
inductive DirtyWriter
  | awake
  | marked (p : Nat)
  | asleep (p : Nat)
  deriving DecidableEq

/-- The chains that exist, the counts, and the writers. -/
structure DirtySys where
  limitChains : Nat
  limitInodes : Nat
  ids : Finset Nat
  chain : Nat → DirtyChain
  /-- `hammer2_count_chain_modified`. -/
  count : Int
  /-- `inmem_dirty_chains` of each PFS. -/
  word : Nat → Nat
  sideq : Nat → Nat
  writer : Nat → DirtyWriter

namespace DirtySys

/-- The low 31 bits of `inmem_dirty_chains`. -/
def inmem (s : DirtySys) (p : Nat) : Nat := s.word p % dirtychainWaiting

/-- `hammer2_pfs_memory_inc`. -/
def memoryInc (s : DirtySys) : Option Nat → DirtySys
  | none => s
  | some p => { s with word := update s.word p ((s.word p + 1) % 2 ^ 32) }

/-- The test of `hammer2_pfs_memory_wakeup`, on the word found and the word left. -/
def wakes (s : DirtySys) (p found left : Nat) : Prop :=
  dirtychainWaiting ≤ found ∧ left % dirtychainWaiting ≤ s.limitChains * 2 / 3 ∧
    s.sideq p ≤ s.limitInodes * 2 / 3

instance (s : DirtySys) (p found left : Nat) : Decidable (s.wakes p found left) :=
  inferInstanceAs (Decidable (_ ∧ _))

/-- `hammer2_pfs_memory_wakeup` with a count of -1. -/
def memoryWakeup (s : DirtySys) : Option Nat → DirtySys
  | none => s
  | some p =>
    let left := (s.word p + 2 ^ 32 - 1) % 2 ^ 32
    if s.wakes p (s.word p) left then
      { s with
        word := update s.word p (left % dirtychainWaiting)
        writer := fun w => if s.writer w = .asleep p then .awake else s.writer w }
    else { s with word := update s.word p left }

/-- `MODIFIED` is set and both counts are raised. -/
def setModified (s : DirtySys) (i : Nat) : DirtySys :=
  { s with
    chain := update s.chain i { s.chain i with modified := true, counted := (s.chain i).pmp }
    count := s.count + 1 }.memoryInc (s.chain i).pmp

/-- `MODIFIED` is cleared and the count of all chains lowered. -/
def clearModified (s : DirtySys) (i : Nat) : DirtySys :=
  { s with
    chain := update s.chain i { s.chain i with modified := false, counted := none }
    count := s.count - 1 }

/-- `MODIFIED` is cleared and both counts are lowered. -/
def retire (s : DirtySys) (i : Nat) : DirtySys :=
  (s.clearModified i).memoryWakeup (s.chain i).pmp

/-- What `hammer2_chain_modify` meets: the data cannot be read, the block may be overwritten in
place (`newmod` is 0), a block to deduplicate to is given, no block can be allocated, emergency
mode. -/
structure ModifyCase where
  loadFails : Bool
  inPlace : Bool
  dedup : Bool
  allocFails : Bool
  emergency : Bool
  deriving DecidableEq

/-- A new block is wanted. -/
def wantsBlock (c : DirtyChain) (x : ModifyCase) : Bool :=
  !c.static && c.sized && (!c.assigned || if c.modified then c.dedupable else !x.inPlace)

/-- The chain once `hammer2_freemap_alloc` was called; it forgets that it was deduplicated. -/
def allocated (s : DirtySys) (i : Nat) (x : ModifyCase) : DirtySys :=
  { s with
    chain := update s.chain i { s.chain i with
      dedupable := false
      assigned := (s.chain i).assigned || !x.allocFails } }

/-- The chain once it was given the block of another. -/
def deduplicated (s : DirtySys) (i : Nat) : DirtySys :=
  { s with chain := update s.chain i { s.chain i with dedupable := true, assigned := true } }

/-- `hammer2_chain_modify`. -/
def modify (s : DirtySys) (i : Nat) (x : ModifyCase) : DirtySys :=
  if x.loadFails then s
  else
    let c := s.chain i
    let t := if c.modified then s else s.setModified i
    if wantsBlock c x then
      if x.dedup then (t.retire i).deduplicated i
      else if x.allocFails && !x.emergency then
        let u := t.allocated i x
        if c.modified then u else u.clearModified i
      else t.allocated i x
    else t

/-- The steps. `flush` is the part of `hammer2_flush_core` that disposes of the flag, `lastdrop`
that of `hammer2_chain_lastdrop` for a chain without parent, which then frees it, `scrap` that of an
unmount; `attach` and `detach` set and unset the PFS of a chain. -/
inductive Act
  | alloc (i : Nat) (c : DirtyChain)
  | modify (i : Nat) (x : ModifyCase)
  | voldataModify (i : Nat)
  | flush (i : Nat)
  | lastdrop (i : Nat)
  | scrap (i : Nat)
  | free (i : Nat)
  | attach (i p : Nat)
  | detach (i : Nat)
  | sideq (p n : Nat)
  | mark (w p : Nat)
  | test (w : Nat)
  | timeout (w : Nat)

/-- Nothing holds a writer of the PFS back. -/
def clear (s : DirtySys) (p : Nat) : Prop :=
  s.inmem p < s.limitChains ∧ s.sideq p < s.limitInodes

instance (s : DirtySys) (p : Nat) : Decidable (s.clear p) := inferInstanceAs (Decidable (_ ∧ _))

/-- One step. A step on a chain that does not exist does nothing. -/
def next (s : DirtySys) : Act → DirtySys
  | .alloc i c =>
    if i ∈ s.ids then s
    else { s with
      ids := insert i s.ids
      chain := update s.chain i { c with modified := false, counted := none } }
  | .modify i x => if i ∈ s.ids then s.modify i x else s
  | .voldataModify i => if i ∈ s.ids ∧ (s.chain i).modified = false then s.setModified i else s
  | .flush i => if i ∈ s.ids ∧ (s.chain i).modified = true then s.retire i else s
  | .lastdrop i =>
    if i ∈ s.ids then
      let t := if (s.chain i).modified then s.retire i else s
      { t with ids := t.ids.erase i }
    else s
  | .scrap i => if i ∈ s.ids ∧ (s.chain i).modified = true then s.clearModified i else s
  | .free i => if (s.chain i).modified then s else { s with ids := s.ids.erase i }
  | .attach i p => { s with chain := update s.chain i { s.chain i with pmp := some p } }
  | .detach i => { s with chain := update s.chain i { s.chain i with pmp := none } }
  | .sideq p n => { s with sideq := update s.sideq p n }
  | .mark w p =>
    if s.clear p then { s with writer := update s.writer w .awake }
    else { s with
      word := update s.word p (s.word p % dirtychainWaiting + dirtychainWaiting)
      writer := update s.writer w (.marked p) }
  | .test w =>
    match s.writer w with
    | .marked p => { s with writer := update s.writer w (if s.clear p then .awake else .asleep p) }
    | _ => s
  | .timeout w => { s with writer := update s.writer w .awake }

/-! ## What is asked -/

/-- The number of chains with a property. -/
def dirty (s : DirtySys) (q : DirtyChain → Bool) : Nat := (s.ids.filter fun i => q (s.chain i)).card

/-- `MODIFIED`, and counted to the PFS. -/
def countedTo (p : Nat) (c : DirtyChain) : Bool := c.modified && c.counted = some p

/-- The counts are those of the chains. -/
structure Exact (s : DirtySys) : Prop where
  total : s.count = s.dirty (·.modified)
  each : ∀ p, s.inmem p = s.dirty (countedTo p)

/-- A writer sleeps only as long as a limit holds it back: it is woken up whenever the counts of its
PFS fall below their limits. -/
def Wakes (s : DirtySys) : Prop := ∀ w p, s.writer w = .asleep p → ¬ s.clear p

/-- A decrement takes the PFS below its limits, but not to two thirds of them. -/
def Gap (s : DirtySys) (p : Nat) : Prop :=
  s.inmem p - 1 < s.limitChains ∧ s.sideq p < s.limitInodes ∧
    ¬ (s.inmem p - 1 ≤ s.limitChains * 2 / 3 ∧ s.sideq p ≤ s.limitInodes * 2 / 3)

/-- No writer sleeps on the PFS of the chain, or its retirement does not end in the gap. -/
def Rouses (s : DirtySys) (i : Nat) : Prop :=
  ∀ w p, (s.chain i).pmp = some p → s.writer w = .asleep p → ¬ s.Gap p

/-- What the steps have to meet: no allocation fails for a chain of a PFS that becomes dirty; the
PFS of a chain is set and unset when it is not dirty, and no dirty chain of a PFS is scrapped; a
writer that goes to sleep finds its mark; under a writer that sleeps, no dirty chain is retired into
the gap and `sideq_count` is not what falls below its limit. The chains are fewer than the count can
hold. -/
def Fits (s : DirtySys) : Act → Prop
  | .alloc _ _ => s.ids.card + 1 < dirtychainWaiting
  | .modify i x =>
    (x.allocFails → (s.chain i).modified = false → (s.chain i).pmp = none) ∧
      (x.dedup → (s.chain i).modified = true → s.Rouses i)
  | .flush i => (s.chain i).modified = true → s.Rouses i
  | .lastdrop i => (s.chain i).modified = true → s.Rouses i
  | .scrap i => (s.chain i).pmp = none
  | .attach i _ => (s.chain i).modified = false
  | .detach i => (s.chain i).modified = false
  | .sideq p n =>
    ∀ w, s.writer w = .asleep p → ¬ (s.inmem p < s.limitChains ∧ n < s.limitInodes)
  | .test w => ∀ p, s.writer w = .marked p → ¬ s.clear p → dirtychainWaiting ≤ s.word p
  | _ => True

/-- No chain, and no writer. -/
def start (limitChains limitInodes : Nat) : DirtySys where
  limitChains := limitChains
  limitInodes := limitInodes
  ids := ∅
  chain := fun _ => ⟨false, false, false, false, false, none, none⟩
  count := 0
  word := fun _ => 0
  sideq := fun _ => 0
  writer := fun _ => .awake

/-! ## Counting chains -/

/-- A chain that is dirty is counted to the PFS it belongs to, and a writer asleep has its mark. -/
structure Inv (s : DirtySys) : Prop extends s.Exact where
  agree : ∀ i ∈ s.ids, (s.chain i).modified = true → (s.chain i).counted = (s.chain i).pmp
  word_lt : ∀ p, s.word p < 2 ^ 32
  card_lt : s.ids.card < dirtychainWaiting
  flagged : ∀ w p, s.writer w = .asleep p → dirtychainWaiting ≤ s.word p

section
variable {s t : DirtySys} {i p : Nat} {c : DirtyChain} {q : DirtyChain → Bool}

/-- A change of one chain changes a count by that chain. -/
theorem dirty_update (hi : i ∈ s.ids) (hids : t.ids = s.ids) (hchain : t.chain = update s.chain i c)
    (q : DirtyChain → Bool) :
    t.dirty q + (if q (s.chain i) then 1 else 0) = s.dirty q + if q c then 1 else 0 := by
  have hnew : q c = q (t.chain i) := by rw [hchain, update_self]
  rw [dirty, dirty, hids, hnew]
  refine Count.card_change (p := fun j => q (s.chain j) = true) (q := fun j => q (t.chain j) = true)
    hi fun j _ hne => ?_
  rw [hchain, update_of_ne hne]

theorem dirty_le_card (s : DirtySys) (q : DirtyChain → Bool) : s.dirty q ≤ s.ids.card :=
  Finset.card_filter_le _ _

/-- A chain that is not dirty comes or goes. -/
theorem Inv.of_ids (h : s.Inv) (ids : Finset Nat)
    (hchain : ∀ j ∈ ids, j ∈ s.ids → t.chain j = s.chain j) (hids : t.ids = ids)
    (hcount : t.count = s.count) (hword : t.word = s.word) (hwriter : t.writer = s.writer)
    (hcard : ids.card < dirtychainWaiting)
    (hnew : ∀ j ∈ ids, j ∉ s.ids → (t.chain j).modified = false)
    (hgone : ∀ j ∈ s.ids, j ∉ ids → (s.chain j).modified = false) : t.Inv := by
  have hsame (q : DirtyChain → Bool) (hq : ∀ c, q c = true → c.modified = true) :
      t.dirty q = s.dirty q := by
    rw [dirty, dirty, hids]
    congr 1
    ext j
    rw [Finset.mem_filter, Finset.mem_filter]
    constructor
    · rintro ⟨hj, hqj⟩
      have hold : j ∈ s.ids := by
        by_contra hno
        exact Bool.false_ne_true ((hnew j hj hno).symm.trans (hq _ hqj))
      exact ⟨hold, hchain j hj hold ▸ hqj⟩
    · rintro ⟨hj, hqj⟩
      have hnow : j ∈ ids := by
        by_contra hno
        exact Bool.false_ne_true ((hgone j hj hno).symm.trans (hq _ hqj))
      exact ⟨hnow, (hchain j hnow hj).symm ▸ hqj⟩
  refine ⟨⟨?_, fun p => ?_⟩, fun j hj hm => ?_, fun p => hword ▸ h.word_lt p, hids ▸ hcard,
    fun w p hw => hword ▸ h.flagged w p (hwriter ▸ hw)⟩
  · rw [hcount, h.total, hsame _ fun _ => id]
  · rw [inmem, hword, hsame _ fun c hc => by simpa [countedTo] using (Bool.and_eq_true _ _ ▸ hc).1]
    exact h.each p
  · rw [hids] at hj
    have hold : j ∈ s.ids := by
      by_contra hno
      exact Bool.false_ne_true ((hnew j hj hno).symm.trans hm)
    rw [hchain j hj hold] at hm ⊢
    exact h.agree j hold hm

/-- A change of one chain, with the counts that go with it. -/
theorem Inv.recount (h : s.Inv) (hi : i ∈ s.ids) (hids : t.ids = s.ids)
    (hchain : t.chain = update s.chain i c) (hc : c.modified = true → c.counted = c.pmp)
    (hcount : t.count + (if (s.chain i).modified then 1 else 0 : Nat) =
      s.count + (if c.modified then 1 else 0 : Nat))
    (hinmem : ∀ p, t.inmem p + (if countedTo p (s.chain i) then 1 else 0) =
      s.inmem p + if countedTo p c then 1 else 0)
    (hlt : ∀ p, t.word p < 2 ^ 32)
    (hflag : ∀ w p, t.writer w = .asleep p → dirtychainWaiting ≤ t.word p) : t.Inv := by
  have hdirty := dirty_update hi hids hchain
  refine ⟨⟨?_, fun p => ?_⟩, fun j hj hm => ?_, hlt, hids ▸ h.card_lt, hflag⟩
  · have hd := hdirty (·.modified)
    have htotal := h.total
    omega
  · have hd := hdirty (countedTo p)
    have heach := h.each p
    have hp := hinmem p
    omega
  · rw [hids] at hj
    rw [hchain] at hm ⊢
    by_cases hji : j = i
    · rw [hji, update_self] at hm ⊢
      exact hc hm
    · rw [update_of_ne hji] at hm ⊢
      exact h.agree j hj hm

/-- A change of a chain that the counting does not see. -/
theorem Inv.edit (h : s.Inv) (hids : t.ids = s.ids) (hcount : t.count = s.count)
    (hword : t.word = s.word) (hwriter : t.writer = s.writer)
    (hchain : t.chain = update s.chain i c) (hmod : c.modified = (s.chain i).modified)
    (hpmp : c.modified = true → c.pmp = (s.chain i).pmp)
    (hcounted : c.counted = (s.chain i).counted) : t.Inv := by
  by_cases hi : i ∈ s.ids
  · refine h.recount hi hids hchain (fun hm => ?_) (by rw [hcount, hmod]) (fun p => ?_)
      (fun p => hword ▸ h.word_lt p) fun w p hw => hword ▸ h.flagged w p (hwriter ▸ hw)
    · rw [hcounted, hpmp hm]
      exact h.agree i hi (hmod ▸ hm)
    · rw [inmem, inmem, hword, countedTo, countedTo, hmod, hcounted]
  · refine h.of_ids s.ids (fun j hj _ => ?_) hids hcount hword hwriter h.card_lt
      (fun j hj hno => absurd hj hno) fun j hj hno => absurd hj hno
    rw [hchain, update_of_ne (ne_of_mem_of_not_mem hj hi)]

/-! ## The word of a PFS -/

/-- What `hammer2_pfs_memory_inc` does to the counts and marks. -/
theorem memoryInc_word {o : Option Nat} (hlt : ∀ p, s.word p < 2 ^ 32)
    (hroom : ∀ p, o = some p → s.inmem p + 1 < dirtychainWaiting) (p : Nat) :
    (s.memoryInc o).inmem p = s.inmem p + (if o = some p then 1 else 0) ∧
      (s.memoryInc o).word p < 2 ^ 32 ∧
      (dirtychainWaiting ≤ s.word p → dirtychainWaiting ≤ (s.memoryInc o).word p) := by
  have hlt := hlt p
  cases o with
  | none => exact ⟨by simp [memoryInc], hlt, id⟩
  | some p' =>
    by_cases hp : p' = p
    · subst hp
      have hroom := hroom p' rfl
      unfold inmem at hroom ⊢
      simp only [memoryInc, update_self, if_true]
      unfold dirtychainWaiting at hroom ⊢
      omega
    · have hword : (s.memoryInc (some p')).word p = s.word p := update_of_ne (Ne.symm hp) _ _
      exact ⟨by simp [inmem, hword, hp], hword ▸ hlt, fun h => hword ▸ h⟩

@[simp] theorem memoryInc_ids (o : Option Nat) : (s.memoryInc o).ids = s.ids := by
  cases o <;> rfl

@[simp] theorem memoryInc_chain (o : Option Nat) : (s.memoryInc o).chain = s.chain := by
  cases o <;> rfl

@[simp] theorem memoryInc_count (o : Option Nat) : (s.memoryInc o).count = s.count := by
  cases o <;> rfl

@[simp] theorem memoryInc_writer (o : Option Nat) : (s.memoryInc o).writer = s.writer := by
  cases o <;> rfl

@[simp] theorem memoryWakeup_ids (o : Option Nat) : (s.memoryWakeup o).ids = s.ids := by
  cases o with
  | none => rfl
  | some p =>
    simp only [memoryWakeup]
    split <;> rfl

@[simp] theorem memoryWakeup_chain (o : Option Nat) : (s.memoryWakeup o).chain = s.chain := by
  cases o with
  | none => rfl
  | some p =>
    simp only [memoryWakeup]
    split <;> rfl

@[simp] theorem memoryWakeup_count (o : Option Nat) : (s.memoryWakeup o).count = s.count := by
  cases o with
  | none => rfl
  | some p =>
    simp only [memoryWakeup]
    split <;> rfl

/-- A decrement changes the word of its own PFS only. -/
theorem memoryWakeup_word_ne {p' : Nat} (hne : p' ≠ p) :
    (s.memoryWakeup (some p)).word p' = s.word p' := by
  simp only [memoryWakeup]
  split <;> exact update_of_ne hne _ _

/-- What `hammer2_pfs_memory_wakeup` does to the counts; the writers that are left asleep have their
marks. -/
theorem memoryWakeup_word {o : Option Nat} (hlt : ∀ p, s.word p < 2 ^ 32)
    (hpos : ∀ p, o = some p → 0 < s.inmem p)
    (hflag : ∀ w p, s.writer w = .asleep p → dirtychainWaiting ≤ s.word p) (p : Nat) :
    (s.memoryWakeup o).inmem p + (if o = some p then 1 else 0) = s.inmem p ∧
      (s.memoryWakeup o).word p < 2 ^ 32 ∧
      ∀ w, (s.memoryWakeup o).writer w = .asleep p →
        dirtychainWaiting ≤ (s.memoryWakeup o).word p := by
  have hlt := hlt p
  cases o with
  | none => exact ⟨by simp [memoryWakeup], hlt, fun w => hflag w p⟩
  | some p' =>
    by_cases hp : p' = p
    · subst hp
      have hpos := hpos p' rfl
      unfold inmem at hpos ⊢
      simp only [memoryWakeup, if_true]
      split
      · simp only [update_self]
        unfold dirtychainWaiting at hpos ⊢
        refine ⟨by omega, by omega, fun w hw => ?_⟩
        split at hw
        · cases hw
        · next hno => exact absurd hw hno
      · simp only [update_self]
        refine ⟨?_, by omega, fun w hw => ?_⟩
        · unfold dirtychainWaiting at hpos ⊢
          omega
        · have := hflag w p' hw
          unfold dirtychainWaiting at *
          omega
    · have hword := memoryWakeup_word_ne (s := s) (Ne.symm hp)
      refine ⟨by simp [inmem, hword, hp], hword ▸ hlt, fun w hw => hword ▸ hflag w p ?_⟩
      simp only [memoryWakeup] at hw
      split at hw
      · dsimp only at hw
        split at hw
        · cases hw
        · exact hw
      · exact hw

/-- With a mark for every writer asleep the wakeup reaches them all. -/
theorem memoryWakeup_wakes (hflag : ∀ w p, s.writer w = .asleep p → dirtychainWaiting ≤ s.word p)
    (hcount : (s.memoryWakeup (some p)).inmem p ≤ s.limitChains * 2 / 3)
    (hsideq : s.sideq p ≤ s.limitInodes * 2 / 3) (w : Nat) :
    (s.memoryWakeup (some p)).writer w ≠ .asleep p := by
  intro hw
  unfold inmem at hcount
  simp only [memoryWakeup] at hw hcount
  split at hw
  · dsimp only at hw
    split at hw
    · cases hw
    · next hno => exact hno hw
  · next hno =>
    rw [if_neg hno] at hcount
    simp only [update_self] at hcount
    exact hno ⟨hflag w p hw, hcount, hsideq⟩

/-! ## Setting and clearing the flag -/

/-- A chain that becomes dirty is counted. -/
theorem Inv.setModified (h : s.Inv) (hi : i ∈ s.ids) (hm : (s.chain i).modified = false) :
    (s.setModified i).Inv := by
  have hchain : (s.setModified i).chain =
      update s.chain i { s.chain i with modified := true, counted := (s.chain i).pmp } := by
    simp [DirtySys.setModified]
  have hids : (s.setModified i).ids = s.ids := by simp [DirtySys.setModified]
  have hroom : ∀ p, (s.chain i).pmp = some p → s.inmem p + 1 < dirtychainWaiting := by
    intro p hp
    have hd := dirty_update hi hids hchain (countedTo p)
    have hle := dirty_le_card (s.setModified i) (countedTo p)
    have hcard := h.card_lt
    rw [if_neg (by simp [countedTo, hm]), if_pos (by simp [countedTo, hp])] at hd
    rw [hids] at hle
    rw [h.each p]
    omega
  have hword := memoryInc_word (s := { s with
    chain := update s.chain i { s.chain i with modified := true, counted := (s.chain i).pmp }
    count := s.count + 1 }) h.word_lt hroom
  refine h.recount hi hids hchain (fun _ => rfl) (by simp [DirtySys.setModified, hm]) (fun p => ?_)
    (fun p => (hword p).2.1) fun w p hw => (hword p).2.2 (h.flagged w p ?_)
  · have hp : (s.setModified i).inmem p = s.inmem p + _ := (hword p).1
    simpa [countedTo, hm] using hp
  · simpa [DirtySys.setModified] using hw

/-- A chain that is no longer dirty is taken off the counts. -/
theorem Inv.retire (h : s.Inv) (hi : i ∈ s.ids) (hm : (s.chain i).modified = true) :
    (s.retire i).Inv := by
  have hchain : (s.retire i).chain =
      update s.chain i { s.chain i with modified := false, counted := none } := by
    simp [DirtySys.retire, clearModified]
  have hids : (s.retire i).ids = s.ids := by simp [DirtySys.retire, clearModified]
  have hpos : ∀ p, (s.chain i).pmp = some p → 0 < (s.clearModified i).inmem p := by
    intro p hp
    have hd := dirty_update hi hids hchain (countedTo p)
    rw [if_pos (by simp [countedTo, hm, h.agree i hi hm, hp])] at hd
    exact Nat.lt_of_lt_of_eq (by simp [countedTo] at hd ⊢; omega) (h.each p).symm
  have hcount : (s.retire i).count + 1 = s.count := by
    have hd := dirty_update hi hids hchain (·.modified)
    have hc : (s.retire i).count = s.count - 1 := by simp [DirtySys.retire, clearModified]
    rw [hc, h.total]
    simp [hm] at hd
    omega
  have hword := memoryWakeup_word (s := s.clearModified i) h.word_lt hpos h.flagged
  refine h.recount hi hids hchain nofun (by simpa [hm] using hcount) (fun p => ?_)
    (fun p => (hword p).2.1) fun w p => (hword p).2.2 w
  have hp : (s.retire i).inmem p + _ = s.inmem p := (hword p).1
  simpa [countedTo, hm, h.agree i hi hm] using hp

/-- Clearing the flag of a chain without PFS needs no wakeup. -/
theorem Inv.clearModified (h : s.Inv) (hi : i ∈ s.ids) (hm : (s.chain i).modified = true)
    (hp : (s.chain i).pmp = none) : (s.clearModified i).Inv := by
  have hret : s.retire i = s.clearModified i := by simp [DirtySys.retire, hp, memoryWakeup]
  exact hret ▸ h.retire hi hm

/-- The outcome of the allocation keeps the counts. -/
theorem Inv.allocated (h : s.Inv) (x : ModifyCase) : (s.allocated i x).Inv :=
  h.edit rfl rfl rfl rfl rfl rfl (fun _ => rfl) rfl

/-- Taking a dedup hit keeps the counts. -/
theorem Inv.deduplicated (h : s.Inv) : (s.deduplicated i).Inv :=
  h.edit rfl rfl rfl rfl rfl rfl (fun _ => rfl) rfl

theorem chain_setModified : ((s.setModified i).chain i) =
    { s.chain i with modified := true, counted := (s.chain i).pmp } := by
  simp [setModified]

/-! ## The steps -/

/-- `hammer2_chain_modify` keeps the counts, unless it has to give up on a chain of a PFS. -/
theorem Inv.modify (h : s.Inv) (hi : i ∈ s.ids) {x : ModifyCase}
    (hfit : x.allocFails → (s.chain i).modified = false → (s.chain i).pmp = none) :
    (s.modify i x).Inv := by
  unfold DirtySys.modify
  split
  · exact h
  · dsimp only
    generalize ht : (if (s.chain i).modified then s else s.setModified i) = t
    -- the chain is dirty by the time a block is wanted
    obtain ⟨hinv, hi', hm', hp'⟩ : t.Inv ∧ i ∈ t.ids ∧ (t.chain i).modified = true ∧
        (t.chain i).pmp = (s.chain i).pmp := by
      subst ht
      split
      · next hm => exact ⟨h, hi, hm, rfl⟩
      · next hm =>
        refine ⟨h.setModified hi (by simpa using hm), by simpa [DirtySys.setModified] using hi, ?_⟩
        rw [chain_setModified]
        exact ⟨rfl, rfl⟩
    split
    · split
      · exact (hinv.retire hi' hm').deduplicated
      · split
        · next hfail =>
          split
          · exact hinv.allocated x
          · next hm =>
            have hfails : x.allocFails = true := by
              rw [Bool.and_eq_true] at hfail
              exact hfail.1
            refine (hinv.allocated x).clearModified hi' ?_ ?_
            · simp [DirtySys.allocated, hm']
            · simp [DirtySys.allocated, hp', hfit hfails (by simpa using hm)]
        · exact hinv.allocated x
    · exact hinv

/-- A clean chain goes without a change of the counts. -/
theorem Inv.erase (h : s.Inv) (hm : (s.chain i).modified = false) :
    Inv { s with ids := s.ids.erase i } := by
  refine h.of_ids (t := { s with ids := s.ids.erase i }) _ (fun _ _ _ => rfl) rfl rfl rfl rfl
    (lt_of_le_of_lt (Finset.card_erase_le) h.card_lt) (fun j hj hno => ?_) fun j hj hno => ?_
  · exact absurd (Finset.mem_of_mem_erase hj) hno
  · rw [Finset.mem_erase, not_and] at hno
    have hji : j = i := by
      by_contra hne
      exact hno hne hj
    exact hji ▸ hm

/-- A step of the writers, which only adds marks. -/
theorem Inv.of_writers (h : s.Inv) (hids : t.ids = s.ids) (hchain : t.chain = s.chain)
    (hcount : t.count = s.count) (hinmem : ∀ p, t.inmem p = s.inmem p)
    (hlt : ∀ p, t.word p < 2 ^ 32)
    (hflag : ∀ w p, t.writer w = .asleep p → dirtychainWaiting ≤ t.word p) : t.Inv := by
  have hsame (q : DirtyChain → Bool) : t.dirty q = s.dirty q := by rw [dirty, dirty, hids, hchain]
  refine ⟨⟨?_, fun p => ?_⟩, fun j hj hm => ?_, hlt, hids ▸ h.card_lt, hflag⟩
  · rw [hcount, h.total, hsame]
  · rw [hinmem, hsame]
    exact h.each p
  · rw [hids] at hj
    rw [hchain] at hm ⊢
    exact h.agree j hj hm

/-- A writer's mark keeps the invariant. -/
theorem Inv.mark (h : s.Inv) (w p : Nat) : (s.next (.mark w p)).Inv := by
  simp only [next]
  split
  · refine h.of_writers rfl rfl rfl (fun _ => rfl) h.word_lt fun w' p' hw => h.flagged w' p' ?_
    by_cases hww : w' = w
    · simp [hww] at hw
    · simpa [hww] using hw
  · refine h.of_writers rfl rfl rfl (fun p' => ?_) (fun p' => ?_) fun w' p' hw => ?_
    · simp only [inmem]
      by_cases hpp : p' = p
      · subst hpp
        rw [update_self, Nat.add_mod_right, Nat.mod_mod]
      · rw [update_of_ne hpp]
    · dsimp only
      by_cases hpp : p' = p
      · subst hpp
        rw [update_self]
        unfold dirtychainWaiting
        omega
      · rw [update_of_ne hpp]
        exact h.word_lt p'
    · dsimp only at hw ⊢
      by_cases hpp : p' = p
      · subst hpp
        rw [update_self]
        exact Nat.le_add_left _ _
      · rw [update_of_ne hpp]
        refine h.flagged w' p' ?_
        by_cases hww : w' = w
        · simp [hww] at hw
        · simpa [hww] using hw

/-- A writer's test keeps the invariant. -/
theorem Inv.test (h : s.Inv) {w : Nat} (hfit : s.Fits (.test w)) : (s.next (.test w)).Inv := by
  simp only [next]
  split
  · next p hw =>
    refine h.of_writers rfl rfl rfl (fun _ => rfl) h.word_lt fun w' p' hw' => ?_
    dsimp only at hw' ⊢
    by_cases hww : w' = w
    · subst hww
      rw [update_self] at hw'
      split at hw'
      · cases hw'
      · next hno =>
        cases hw'
        exact hfit _ hw hno
    · rw [update_of_ne hww] at hw'
      exact h.flagged w' p' hw'
  · exact h

/-- **One step** that meets its condition keeps the counts. -/
theorem Inv.next (h : s.Inv) {a : Act} (hfit : s.Fits a) : (s.next a).Inv := by
  cases a with
  | alloc i c =>
    simp only [DirtySys.next]
    split
    · exact h
    · next hi =>
      refine h.of_ids (insert i s.ids) (fun j _ hj => ?_) rfl rfl rfl rfl ?_
        (fun j hj hno => ?_) fun j hj hno => absurd (Finset.mem_insert_of_mem hj) hno
      · exact update_of_ne (ne_of_mem_of_not_mem hj hi) _ _
      · rw [Finset.card_insert_of_notMem hi]
        exact hfit
      · have hji : j = i := (Finset.mem_insert.1 hj).resolve_right hno
        simp [hji]
  | modify i x =>
    simp only [DirtySys.next]
    split
    · next hi => exact h.modify hi hfit.1
    · exact h
  | voldataModify i =>
    simp only [DirtySys.next]
    split
    · next hi => exact h.setModified hi.1 hi.2
    · exact h
  | flush i =>
    simp only [DirtySys.next]
    split
    · next hi => exact h.retire hi.1 hi.2
    · exact h
  | lastdrop i =>
    simp only [DirtySys.next]
    split
    · next hi =>
      by_cases hm : (s.chain i).modified = true
      · rw [if_pos hm]
        exact (h.retire hi hm).erase (by simp [DirtySys.retire, DirtySys.clearModified])
      · rw [if_neg hm]
        exact h.erase (by simpa using hm)
    · exact h
  | scrap i =>
    simp only [DirtySys.next]
    split
    · next hi => exact h.clearModified hi.1 hi.2 hfit
    · exact h
  | free i =>
    simp only [DirtySys.next]
    split
    · exact h
    · next hm => exact h.erase (by simpa using hm)
  | attach i p | detach i =>
    exact h.edit rfl rfl rfl rfl rfl rfl (fun hm => absurd (hm.symm.trans hfit) nofun) rfl
  | sideq p n => exact h.of_writers rfl rfl rfl (fun _ => rfl) h.word_lt h.flagged
  | mark w p => exact h.mark w p
  | test w => exact h.test hfit
  | timeout w =>
    refine h.of_writers rfl rfl rfl (fun _ => rfl) h.word_lt fun w' p' hw => h.flagged w' p' ?_
    by_cases hww : w' = w
    · simp [DirtySys.next, hww] at hw
    · simpa [DirtySys.next, hww] using hw

/-! ## The writers that sleep -/

/-- What holds a writer back is not changed by a step that lowers no count and puts none to
sleep. -/
theorem Wakes.mono (h : s.Wakes) (hchains : t.limitChains = s.limitChains)
    (hinodes : t.limitInodes = s.limitInodes) (hsideq : t.sideq = s.sideq)
    (hinmem : ∀ p, s.inmem p ≤ t.inmem p)
    (hwriter : ∀ w p, t.writer w = .asleep p → s.writer w = .asleep p) : t.Wakes := by
  rintro w p hw ⟨hlt, hside⟩
  refine h w p (hwriter w p hw) ⟨?_, ?_⟩
  · exact lt_of_le_of_lt (hinmem p) (hchains ▸ hlt)
  · rw [← hsideq, ← hinodes]
    exact hside

@[simp] theorem memoryInc_limits (o : Option Nat) :
    (s.memoryInc o).limitChains = s.limitChains ∧ (s.memoryInc o).limitInodes = s.limitInodes ∧
      (s.memoryInc o).sideq = s.sideq := by
  cases o <;> exact ⟨rfl, rfl, rfl⟩

@[simp] theorem memoryWakeup_limits (o : Option Nat) :
    (s.memoryWakeup o).limitChains = s.limitChains ∧
      (s.memoryWakeup o).limitInodes = s.limitInodes ∧ (s.memoryWakeup o).sideq = s.sideq := by
  cases o with
  | none => exact ⟨rfl, rfl, rfl⟩
  | some p =>
    simp only [memoryWakeup]
    split <;> exact ⟨rfl, rfl, rfl⟩

/-- A wakeup puts no writer to sleep. -/
theorem memoryWakeup_asleep {o : Option Nat} {w : Nat}
    (hw : (s.memoryWakeup o).writer w = .asleep p) : s.writer w = .asleep p := by
  cases o with
  | none => exact hw
  | some p' =>
    simp only [memoryWakeup] at hw
    split at hw
    · dsimp only at hw
      split at hw
      · cases hw
      · exact hw
    · exact hw

/-- A chain that becomes dirty raises the count of its PFS. -/
theorem inmem_setModified (h : s.Inv) (hi : i ∈ s.ids)
    (hm : (s.chain i).modified = false) (p : Nat) :
    (s.setModified i).inmem p = s.inmem p + if (s.chain i).pmp = some p then 1 else 0 := by
  have hchain : (s.setModified i).chain =
      update s.chain i { s.chain i with modified := true, counted := (s.chain i).pmp } := by
    simp [setModified]
  have hd := dirty_update hi (t := s.setModified i) (by simp [setModified]) hchain (countedTo p)
  rw [if_neg (by simp [countedTo, hm])] at hd
  rw [(h.setModified hi hm).each, h.each]
  simpa [countedTo] using hd

/-- A chain that is retired lowers the count of its PFS. -/
theorem inmem_retire (h : s.Inv) (hi : i ∈ s.ids) (hm : (s.chain i).modified = true) (p : Nat) :
    (s.retire i).inmem p + (if (s.chain i).pmp = some p then 1 else 0) = s.inmem p := by
  have hchain : (s.retire i).chain =
      update s.chain i { s.chain i with modified := false, counted := none } := by
    simp [retire, clearModified]
  have hd := dirty_update hi (t := s.retire i) (by simp [retire, clearModified])
    hchain (countedTo p)
  rw [(h.retire hi hm).each, h.each]
  simpa [countedTo, hm, h.agree i hi hm] using hd

/-- A count that rises leaves nobody asleep who should wake. -/
theorem Wakes.setModified (h : s.Wakes) (hinv : s.Inv) (hi : i ∈ s.ids)
    (hm : (s.chain i).modified = false) : (s.setModified i).Wakes := by
  refine h.mono ?_ ?_ ?_ (fun p => ?_) fun w p hw => ?_
  · exact (memoryInc_limits _).1
  · exact (memoryInc_limits _).2.1
  · exact (memoryInc_limits _).2.2
  · rw [inmem_setModified hinv hi hm]
    exact Nat.le_add_right _ _
  · simpa [DirtySys.setModified] using hw

/-- Outside the gap a decrement below the limits is one to two thirds of them, and finds the
marks. -/
theorem Wakes.retire (h : s.Wakes) (hinv : s.Inv) (hi : i ∈ s.ids)
    (hm : (s.chain i).modified = true) (hrouse : s.Rouses i) : (s.retire i).Wakes := by
  rintro w p hw ⟨hlt, hside⟩
  have hold : s.writer w = .asleep p := memoryWakeup_asleep (s := s.clearModified i) hw
  have hchains : (s.retire i).limitChains = s.limitChains := (memoryWakeup_limits _).1
  have hinodes : (s.retire i).limitInodes = s.limitInodes := (memoryWakeup_limits _).2.1
  have hsideq : (s.retire i).sideq = s.sideq := (memoryWakeup_limits _).2.2
  rw [hchains] at hlt
  rw [hsideq, hinodes] at hside
  have hinmem := inmem_retire hinv hi hm p
  by_cases hp : (s.chain i).pmp = some p
  · rw [if_pos hp] at hinmem
    have hthirds := not_not.1 fun hno =>
      hrouse w p hp hold ⟨by rw [← hinmem, Nat.add_sub_cancel]; exact hlt, hside, hno⟩
    rw [← hinmem, Nat.add_sub_cancel] at hthirds
    rw [DirtySys.retire, hp] at hw hthirds
    exact memoryWakeup_wakes (s := s.clearModified i) hinv.flagged hthirds.1 hthirds.2 w hw
  · rw [if_neg hp, Nat.add_zero] at hinmem
    exact h w p hold ⟨hinmem ▸ hlt, hside⟩

/-- A chain that becomes dirty and is retired at once leaves the counts as they were. -/
theorem Wakes.setModified_retire (h : s.Wakes) (hinv : s.Inv) (hi : i ∈ s.ids)
    (hm : (s.chain i).modified = false) : ((s.setModified i).retire i).Wakes := by
  have hinv' := hinv.setModified hi hm
  have hi' : i ∈ (s.setModified i).ids := by simpa [DirtySys.setModified] using hi
  refine h.mono ?_ ?_ ?_ (fun p => ?_) fun w p hw => ?_
  · exact (memoryWakeup_limits _).1.trans (memoryInc_limits _).1
  · exact (memoryWakeup_limits _).2.1.trans (memoryInc_limits _).2.1
  · exact (memoryWakeup_limits _).2.2.trans (memoryInc_limits _).2.2
  · have hset := inmem_setModified hinv hi hm p
    have hret := inmem_retire hinv' hi' (by rw [chain_setModified]) p
    rw [chain_setModified] at hret
    dsimp only at hret
    omega
  · have hold := memoryWakeup_asleep (s := (s.setModified i).clearModified i) hw
    simpa [DirtySys.setModified, DirtySys.clearModified] using hold

/-- What `hammer2_chain_modify` does to the writers that sleep. -/
theorem Wakes.modify (h : s.Wakes) (hinv : s.Inv) (hi : i ∈ s.ids) {x : ModifyCase}
    (hfit : s.Fits (.modify i x)) : (s.modify i x).Wakes := by
  unfold DirtySys.modify
  split
  · exact h
  · dsimp only
    by_cases hm : (s.chain i).modified = true
    · simp only [hm, if_true]
      split
      · split
        · next hd => exact h.retire hinv hi hm (hfit.2 hd hm)
        · split <;> exact h
      · exact h
    · have hm' : (s.chain i).modified = false := by simpa using hm
      have hset := h.setModified hinv hi hm'
      simp only [hm, Bool.false_eq_true, if_false]
      split
      · split
        · exact h.setModified_retire hinv hi hm'
        · split <;> exact hset
      · exact hset

/-- A writer that sets its mark is awake. -/
theorem Wakes.mark (h : s.Wakes) (w p : Nat) : (s.next (.mark w p)).Wakes := by
  refine h.mono ?_ ?_ ?_ (fun p' => ?_) fun w' p' hw => ?_ <;> simp only [DirtySys.next] at *
  · split <;> rfl
  · split <;> rfl
  · split <;> rfl
  · split
    · exact le_rfl
    · unfold inmem
      by_cases hp : p' = p
      · subst hp
        simp
      · simp [hp]
  · split at hw <;> by_cases hww : w' = w
    · simp [hww] at hw
    · simpa [hww] using hw
    · simp [hww] at hw
    · simpa [hww] using hw

/-- A writer goes to sleep only when its test finds it over a limit. -/
theorem Wakes.test (h : s.Wakes) (w : Nat) : (s.next (.test w)).Wakes := by
  simp only [DirtySys.next]
  split
  · next p hw =>
    rintro w' p' hw' hclear
    dsimp only at hw'
    by_cases hww : w' = w
    · subst hww
      rw [update_self] at hw'
      split at hw'
      · cases hw'
      · next hno =>
        cases hw'
        exact hno hclear
    · rw [update_of_ne hww] at hw'
      exact h w' p' hw' hclear
  · exact h

/-- **One step** that meets its condition keeps a writer asleep only while a limit holds it back. -/
theorem Wakes.next (h : s.Wakes) (hinv : s.Inv) {a : Act} (hfit : s.Fits a) : (s.next a).Wakes := by
  cases a with
  | alloc i c =>
    simp only [DirtySys.next]
    split <;> exact h
  | modify i x =>
    simp only [DirtySys.next]
    split
    · next hi => exact h.modify hinv hi hfit
    · exact h
  | voldataModify i =>
    simp only [DirtySys.next]
    split
    · next hi => exact h.setModified hinv hi.1 hi.2
    · exact h
  | flush i =>
    simp only [DirtySys.next]
    split
    · next hi => exact h.retire hinv hi.1 hi.2 (hfit hi.2)
    · exact h
  | lastdrop i =>
    simp only [DirtySys.next]
    split
    · next hi =>
      by_cases hm : (s.chain i).modified = true
      · rw [if_pos hm]
        exact h.retire hinv hi hm (hfit hm)
      · rw [if_neg hm]
        exact h
    · exact h
  | scrap i =>
    simp only [DirtySys.next]
    split <;> exact h
  | free i =>
    simp only [DirtySys.next]
    split <;> exact h
  | attach i p | detach i => exact h
  | sideq p n =>
    rintro w p' hw ⟨hlt, hside⟩
    by_cases hp : p' = p
    · subst hp
      rw [DirtySys.next] at hside
      dsimp only at hside
      rw [update_self] at hside
      exact hfit w hw ⟨hlt, hside⟩
    · rw [DirtySys.next] at hside
      dsimp only at hside
      rw [update_of_ne hp] at hside
      exact h w p' hw ⟨hlt, hside⟩
  | mark w p => exact h.mark w p
  | test w => exact h.test w
  | timeout w =>
    refine h.mono rfl rfl rfl (fun _ => le_rfl) fun w' p' hw => ?_
    by_cases hww : w' = w
    · simp [DirtySys.next, hww] at hw
    · simpa [DirtySys.next, hww] using hw

/-- Nothing is counted at the start. -/
theorem inv_start (limitChains limitInodes : Nat) : (start limitChains limitInodes).Inv where
  total := rfl
  each _ := rfl
  agree _ hi := absurd hi (Finset.notMem_empty _)
  word_lt _ := (by decide : 0 < 2 ^ 32)
  card_lt := (by decide : 0 < 2 ^ 31)
  flagged _ _ hw := by cases hw

/-- Nothing is counted when every chain is flushed. -/
theorem Exact.flushed (h : s.Exact) (hall : ∀ i ∈ s.ids, (s.chain i).modified = false) :
    s.count = 0 ∧ ∀ p, s.inmem p = 0 := by
  have hnone (q : DirtyChain → Bool) (hq : ∀ c, q c = true → c.modified = true) :
      s.dirty q = 0 := by
    rw [dirty, Finset.card_eq_zero, Finset.filter_eq_empty_iff]
    exact fun i hi hqi => Bool.false_ne_true ((hall i hi).symm.trans (hq _ hqi))
  refine ⟨by rw [h.total, hnone _ fun _ => id]; rfl, fun p => ?_⟩
  rw [h.each p, hnone _ fun c hc => ?_]
  rw [countedTo, Bool.and_eq_true] at hc
  exact hc.1

end

end DirtySys

open DirtySys in
/-- **The counts of dirty chains are exact** along the runs whose steps all meet their condition:
both equal the numbers of dirty chains, they are 0 when everything is flushed, and no writer stays
asleep when the counts of its PFS have fallen below their limits. -/
theorem dirty_exact (limitChains limitInodes : Nat) (as : List Act) (t : DirtySys)
    (hrun : RunMeets (fun s a t => s.next a = t) Fits (start limitChains limitInodes) as t) :
    t.Exact ∧ ((∀ i ∈ t.ids, (t.chain i).modified = false) → t.count = 0 ∧ ∀ p, t.inmem p = 0) ∧
      t.Wakes := by
  have hinv : t.Inv ∧ t.Wakes := by
    refine hrun.invariant (I := fun s => s.Inv ∧ s.Wakes) ?_
      ⟨inv_start limitChains limitInodes, fun w p hw => by cases hw⟩
    rintro s a u hs hfit rfl
    exact ⟨hs.1.next hfit, hs.2.next hs.1 hfit⟩
  exact ⟨hinv.1.toExact, hinv.1.toExact.flushed, hinv.2⟩

/-! ## A writer that sleeps, and a failed allocation -/

/-- A chain of PFS 0 that holds a block. -/
def plainChain : DirtyChain := ⟨false, false, true, true, false, some 0, none⟩

/-- Nothing fails in a modify. -/
def plainModify : DirtySys.ModifyCase := ⟨false, false, false, false, false⟩

/-- The states of a run. -/
def DirtySys.after (s : DirtySys) (as : List DirtySys.Act) : DirtySys := as.foldl DirtySys.next s

/-- The steps by which a writer comes to sleep. -/
def toSleep : List DirtySys.Act := [.mark 0 0, .test 0]

/-- At a limit of one chain, a writer goes to sleep and is woken up by the flush of the chain. -/
theorem dirty_exact_flushed :
    ((DirtySys.start 1 10).after ([.alloc 1 plainChain, .modify 1 plainModify] ++ toSleep)).writer
    0 =
      .asleep 0 ∧
    DirtySys.Wakes ((DirtySys.start 1 10).after
      ([.alloc 1 plainChain, .modify 1 plainModify] ++ toSleep ++ [.flush 1])) := by
  have hflush : DirtySys.Fits ((DirtySys.start 1 10).after
      ([.alloc 1 plainChain, .modify 1 plainModify] ++ toSleep)) (.flush 1) := by
    rintro - w p hp -
    obtain rfl : 0 = p := Option.some.inj hp
    rintro ⟨-, -, hno⟩
    exact hno (by decide)
  have htest : DirtySys.Fits ((DirtySys.start 1 10).after
      [.alloc 1 plainChain, .modify 1 plainModify, .mark 0 0]) (.test 0) := by
    intro p hw _
    obtain rfl : 0 = p := by
      have hmark : ((DirtySys.start 1 10).after
        [.alloc 1 plainChain, .modify 1 plainModify, .mark 0 0]).writer 0 = .marked 0 := by decide
      exact DirtyWriter.marked.inj (hmark.symm.trans hw)
    decide
  have hrun : RunMeets (fun s a t => s.next a = t) DirtySys.Fits (DirtySys.start 1 10)
      ([.alloc 1 plainChain, .modify 1 plainModify] ++ toSleep ++ [.flush 1]) _ :=
    .cons (by decide : (0 + 1 : Nat) < 2 ^ 31) rfl (.cons ⟨nofun, nofun⟩ rfl
      (.cons trivial rfl (.cons htest rfl (.cons hflush rfl (.nil _)))))
  exact ⟨by decide, (dirty_exact 1 10 _ _ hrun).2.2⟩

/-- At a limit of four chains, the flush of one of four leaves the writer asleep, with three
counted. -/
theorem dirty_sleeps_on :
    let t := (DirtySys.start 4 10).after
      ([.alloc 1 plainChain, .alloc 2 plainChain, .alloc 3 plainChain, .alloc 4 plainChain,
        .modify 1 plainModify, .modify 2 plainModify, .modify 3 plainModify,
          .modify 4 plainModify] ++
        toSleep ++ [.flush 1])
    t.inmem 0 = 3 ∧ t.writer 0 = .asleep 0 ∧ ¬ t.Wakes :=
  ⟨by decide, by decide, fun h => h 0 0 (by decide) (by decide)⟩

/-- An allocation fails while a chain of PFS 0 is made dirty: the flag and the count of all chains
are taken back, the count of the PFS is not. -/
theorem dirty_leaks :
    let t := ((DirtySys.start 1 10).next (.alloc 1 plainChain)).next
      (.modify 1 ⟨false, false, false, true, false⟩)
    (∀ i ∈ t.ids, (t.chain i).modified = false) ∧ t.count = 0 ∧ t.inmem 0 = 1 ∧ ¬ t.Exact := by
  refine ⟨by decide, by decide, by decide, fun h => ?_⟩
  exact absurd (h.each 0) (by decide)

end Hammer2
