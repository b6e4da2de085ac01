import Hammer2.Chain.Base
import Hammer2.Chain.Modify

/-!
# The children of a block

A block (an inode, an indirect block, the volume) has a table of blockrefs and a tree of the
children in memory. A child is in the table only, in memory only, or in both, which `BLKMAPPED`
tells; of one in both the chain is what counts, and its blockref may be newer than the entry.
`core.live_count` counts the children once `hammer2_chain_countbrefs` has added the entries of the
table.

A child is taken out by `_hammer2_chain_delete_helper` and put under another block by
`hammer2_chain_rename_obref`, which puts the old entry, not the chain's blockref, into the new
table. Both modify the block they work on. Of the calls of a modify, those to the allocator and the
device can fail; a block that is `MODIFIED` with its data resolved needs none of them as long as it
stays locked (`ChainBlock.modify`). When the allocator fails the block is as it was. When the device
does, `data_off` names the new storage already, to which nothing has been copied, and the data is
dropped: the entries of the table are lost (`ChainBlock.failed`).

Reference: `hammer2_chain.c:1298-1324`, `hammer2_chain.c:1992-2064`, `hammer2_chain.c:3072-3288`,
`hammer2_chain.c:3341-3537`.
-/

namespace Hammer2

/-- A child in memory; `ref` is its `bref`. -/
structure SubChain (δ : Type*) where
  ref : TableRef δ
  flags : BlockmapFlags
  /-- `HAMMER2_CHAIN_UPDATE`. -/
  update : Bool

/-- A locked block and its children. A block in the `INITIAL` state has a table of empty slots. -/
structure ChainBlock (δ : Type*) where
  table : BaseParent δ
  rbtree : List (SubChain δ)
  /-- `HAMMER2_CHAIN_COUNTEDBREFS`. -/
  counted : Bool
  /-- The block is `MODIFIED` and its data is resolved. -/
  ready : Bool

/-- Why a call does not end as it should: the device or the allocator fails, or the source calls
`hpanic` or goes on with what an assertion forbids. -/
inductive ChainFault where
  | io
  | panic
  deriving DecidableEq

/-- The answer to the calls of a modify: the storage and the buffer are had, the allocator refuses,
or the buffer of the new storage cannot be read. -/
inductive ModifyAnswer where
  | granted
  | refused
  | torn
  deriving DecidableEq

/-- The modify can go on. -/
def ModifyAnswer.isOk : ModifyAnswer → Bool
  | .granted => true
  | .refused => false
  | .torn => false

namespace ChainBlock
variable {δ : Type*}

/-- The number of slots. -/
def count (B : ChainBlock δ) : Nat := B.table.base.length

/-- The entries of the table. -/
def entries (B : ChainBlock δ) : List (TableRef δ) := B.table.base.reduceOption

/-- The children: those in memory, and the entries that have no chain. -/
def kids (B : ChainBlock δ) : List (TableRef δ) :=
  B.rbtree.map (·.ref) ++ B.entries.filter fun a => ∀ c ∈ B.rbtree, c.ref.key ≠ a.key

/-- The children as the searches see them; `none` is the block itself. -/
def topology (B : ChainBlock δ) : Topology (Option (TableRef δ)) where
  root := none
  key c := c.elim 0 (·.key)
  keybits c := c.elim 0 (·.keybits)
  indirect _ := false
  deleted _ := false
  parent _ := none
  base p := p.elim (B.table.base.map (Option.map some)) fun _ => []
  rbtree p := p.elim (B.rbtree.map fun c => some c.ref) fun _ => []
  cacheIndex _ := B.table.cacheIndex

/-- `hammer2_combined_find` from `keyBeg` to `HAMMER2_KEY_MAX`: the blockref found. -/
def combinedFind (B : ChainBlock δ) (keyBeg : Nat) : Option (TableRef δ) :=
  (B.topology.combinedFind none keyBeg (keySpace - 1)).1.join

/-- `hammer2_chain_countbrefs`, unless the entries are counted. -/
def countbrefs (B : ChainBlock δ) : ChainBlock δ :=
  if B.counted then B else { B with table := B.table.countbrefs, counted := true }

/-- `hammer2_chain_modify`; `ok` is the answer of the allocator and the device. A block that is
ready needs nothing of them. -/
def modify (ok : ModifyAnswer) (B : ChainBlock δ) : Except ChainFault (ChainBlock δ) :=
  if B.ready || ok.isOk then .ok { B with ready := true } else .error .io

/-- The block after a modify that has failed. The I/O error of `hammer2_chain_modify` leaves
`data_off` at the new storage and sets `data` to `NULL`, so that nothing is left of the table. -/
def failed (ok : ModifyAnswer) (B : ChainBlock δ) : ChainBlock δ :=
  if B.ready = false ∧ ok = .torn then
    { B with table := { B.table with base := B.table.base.map fun _ => none } }
  else B

/-- An I/O error of the modify drops entries. -/
def Loses (ok : ModifyAnswer) (B : ChainBlock δ) : Prop :=
  B.ready = false ∧ ok = .torn ∧ B.entries ≠ []

/-- `RB_INSERT`; ranges that overlap collide. -/
def rbInsert : List (SubChain δ) → SubChain δ → Option (List (SubChain δ))
  | [], c => some [c]
  | d :: l, c =>
    if c.ref.last < d.ref.key then some (c :: d :: l)
    else if d.ref.last < c.ref.key then (rbInsert l c).map (d :: ·)
    else none

/-- `hammer2_chain_get`: the chain of an entry. -/
def chainGet (B : ChainBlock δ) (a : TableRef δ) :
    Except ChainFault (ChainBlock δ × SubChain δ) :=
  let c : SubChain δ := ⟨a, ⟨true, false, false⟩, false⟩
  match rbInsert B.rbtree c with
  | none => .error .panic
  | some l => .ok ({ B with rbtree := l }, c)

/-- A child less in memory. -/
def unlink (B : ChainBlock δ) (key : Nat) : ChainBlock δ :=
  { B with
    table := { B.table with liveCount := B.table.liveCount - 1 }
    rbtree := B.rbtree.eraseP fun d => d.ref.key = key }

/-- `_hammer2_chain_delete_helper`: the block, the chain, and the entry it had. -/
def deleteHelper (ok : ModifyAnswer) (B : ChainBlock δ) (c : SubChain δ) :
    Except ChainFault (ChainBlock δ × SubChain δ × Option (TableRef δ)) :=
  if c.flags.blkmapped then do
    let B ← B.modify ok
    match B.table.baseDelete c.ref.key c.ref.keybits c.flags with
    | (_, _, none) => .error .panic
    | (table, flags, some obref) =>
      .ok ({ B with table := table }.unlink c.ref.key, { c with flags := flags }, some obref)
  else .ok (B.unlink c.ref.key, c, none)

/-- `hammer2_chain_insert` of a live chain. -/
def chainInsert (B : ChainBlock δ) (c : SubChain δ) : Except ChainFault (ChainBlock δ) :=
  match rbInsert B.rbtree c with
  | none => .error .panic
  | some l =>
    .ok { B with table := { B.table with liveCount := B.table.liveCount + 1 }, rbtree := l }

/-- `hammer2_chain_create` of a chain that exists, with `HAMMER2_INSERT_SAMEPARENT`: a full block
would have to be split, which the flag forbids. -/
def chainRename (B : ChainBlock δ) (c : SubChain δ) : Except ChainFault (ChainBlock δ) :=
  if B.countbrefs.table.liveCount = B.countbrefs.count then .error .panic
  else B.countbrefs.chainInsert c

/-- `hammer2_chain_rename_obref`. The chain goes into the tree with the flags it has in the end. -/
def renameObref [DecidableEq δ] (ok : ModifyAnswer) (B : ChainBlock δ) (c : SubChain δ) :
    Option (TableRef δ) → Except ChainFault (ChainBlock δ)
  | none => B.chainRename { c with update := true }
  | some obref => do
    let upd := decide (obref ≠ c.ref)
    let flags : BlockmapFlags :=
      { c.flags with blkmapped := true, blkmapupd := c.flags.blkmapupd || upd }
    let B ← B.chainRename { c with flags := flags, update := upd }
    let B ← B.modify ok
    match B.table.baseInsert obref with
    | (_, true) => .error .panic
    | (table, false) => .ok { B with table := table }

/-! ## The representation -/

/-- What holds of a block and its children: entries and chains in memory are sorted and disjoint, a
chain flagged `BLKMAPPED` has the range of an entry and any other chain is disjoint from all
entries, and `live_count` counts the children. A block is counted before a child of it is in
memory. -/
structure Rep (B : ChainBlock δ) : Prop where
  sorted : B.entries.Pairwise fun a b => a.last < b.key
  zero : B.counted = true → B.table.liveZero = Topology.liveZero B.table.base
  rbtree_sorted : B.rbtree.Pairwise fun a b => a.ref.last < b.ref.key
  mapped : ∀ c ∈ B.rbtree, c.flags.blkmapped = true →
    ∃ a ∈ B.entries, a.key = c.ref.key ∧ a.keybits = c.ref.keybits
  unmapped : ∀ c ∈ B.rbtree, c.flags.blkmapped = false →
    ∀ a ∈ B.entries, c.ref.last < a.key ∨ a.last < c.ref.key
  cached : B.counted = false → B.rbtree = []
  live : B.table.liveCount = if B.counted then (B.kids.length : Int) else 0
  room : B.kids.length ≤ B.count

variable {B B' : ChainBlock δ} {a b : TableRef δ} {c : SubChain δ}

/-- A child is a chain in memory, or an entry that no chain hides. -/
theorem mem_kids {r : TableRef δ} :
    r ∈ B.kids ↔ (∃ c ∈ B.rbtree, c.ref = r) ∨ r ∈ B.entries ∧ ∀ c ∈ B.rbtree,
      c.ref.key ≠ r.key := by
  simp [kids]

/-- Two blockrefs of one range, or of disjoint ranges. -/
def Apart (a b : TableRef δ) : Prop := a.last < b.key ∨ b.last < a.key

instance : Std.Symm (@Apart δ) where
  symm _ _ := Or.symm

theorem Apart.of_lt (h : a.last < b.key) : Apart a b := Or.inl h

theorem Apart.symm (h : Apart a b) : Apart b a := Or.symm h

/-- Disjoint ranges have different keys. -/
theorem Apart.key_ne (h : Apart a b) : a.key ≠ b.key := by
  have := a.key_le_last
  have := b.key_le_last
  unfold Apart at h
  omega

/-- Ranges are apart by their keys and radixes. -/
theorem Apart.of_range {o : TableRef δ} (h : Apart a b) (hk : o.key = a.key)
    (hb : o.keybits = a.keybits) : Apart o b := by
  unfold Apart TableRef.last at *
  rwa [hk, hb]

/-- The entries of the block, in the chain tree that stands for it. -/
theorem mem_topology_base {p a : Option (TableRef δ)} :
    some a ∈ B.topology.base p ↔ p = none ∧ ∃ b ∈ B.entries, a = some b := by
  cases p with
  | none => simp [topology, entries, List.reduceOption_mem_iff, eq_comm]
  | some _ => simp [topology]

/-- The chains of the block, in the chain tree that stands for it. -/
theorem mem_topology_rbtree {p a : Option (TableRef δ)} :
    a ∈ B.topology.rbtree p ↔ p = none ∧ ∃ c ∈ B.rbtree, a = some c.ref := by
  cases p with
  | none => simp [topology, eq_comm]
  | some _ => simp [topology]

namespace Rep
variable {B : ChainBlock δ}

variable {c : SubChain δ} {a r d : TableRef δ} {keyBeg : Nat}

/-- A block with a child in memory is counted. -/
theorem counted_of_mem (h : B.Rep) (hc : c ∈ B.rbtree) : B.counted = true := by
  by_contra hn
  rw [h.cached (by simpa using hn)] at hc
  cases hc

/-- A counted block has a table that is kept. -/
theorem kept (h : B.Rep) (hc : B.counted = true) : B.table.Kept := ⟨h.sorted, h.zero hc⟩

/-- Two entries are one or disjoint. -/
theorem entries_apart (h : B.Rep) (ha : a ∈ B.entries) (hb : b ∈ B.entries) :
    a = b ∨ Apart a b := by
  by_cases hab : a = b
  · exact .inl hab
  · exact .inr ((h.sorted.imp Apart.of_lt).forall ha hb hab)

/-- The chains in memory are disjoint. -/
theorem rbtree_apart (h : B.Rep) : B.rbtree.Pairwise fun c d => Apart c.ref d.ref :=
  h.rbtree_sorted.imp Apart.of_lt

/-- A chain in memory has the range of an entry, or it is disjoint from it. -/
theorem shadow (h : B.Rep) (hc : c ∈ B.rbtree) (ha : a ∈ B.entries) :
    a.key = c.ref.key ∧ a.keybits = c.ref.keybits ∨ Apart c.ref a := by
  cases hm : c.flags.blkmapped with
  | false => exact .inr (h.unmapped c hc hm a ha)
  | true =>
    obtain ⟨b, hb, hkey, hbits⟩ := h.mapped c hc hm
    rcases h.entries_apart hb ha with rfl | hba
    · exact .inl ⟨hkey, hbits⟩
    · exact .inr (hba.of_range hkey.symm hbits.symm)

/-- The children are disjoint. -/
theorem kids_apart (h : B.Rep) : B.kids.Pairwise Apart := by
  refine List.pairwise_append.2 ⟨List.pairwise_map.2 h.rbtree_apart,
    (h.sorted.imp Apart.of_lt).filter _, fun r hr a ha => ?_⟩
  obtain ⟨c, hc, rfl⟩ := List.mem_map.1 hr
  obtain ⟨ha, hne⟩ := List.mem_filter.1 ha
  rcases h.shadow hc ha with ⟨hkey, -⟩ | hap
  · exact absurd hkey.symm (by simpa using (of_decide_eq_true hne) c hc)
  · exact hap

/-- What is disjoint from the children is disjoint from the entries, those with a chain included. -/
theorem apart_entries (h : B.Rep) (hr : ∀ k ∈ B.kids, Apart r k) (ha : a ∈ B.entries) :
    Apart r a := by
  by_cases hs : ∀ c ∈ B.rbtree, c.ref.key ≠ a.key
  · exact hr a (mem_kids.2 (.inr ⟨ha, hs⟩))
  · push Not at hs
    obtain ⟨c, hc, hkey⟩ := hs
    have hap := (hr c.ref (mem_kids.2 (.inl ⟨c, hc, rfl⟩))).symm
    rcases h.shadow hc ha with ⟨hk, hb⟩ | hca
    · exact (hap.of_range hk hb).symm
    · exact absurd hkey hca.key_ne

/-- There are no more entries than children. -/
theorem entries_length_le (h : B.Rep) : B.entries.length ≤ B.kids.length := by
  have hsplit := B.entries.length_eq_length_filter_add fun a =>
    decide (∀ c ∈ B.rbtree, c.ref.key ≠ a.key)
  have hnodup : ((B.entries.filter fun a => !decide (∀ c ∈ B.rbtree, c.ref.key ≠ a.key)).map
      (·.key)).Nodup :=
    List.pairwise_map.2 ((h.sorted.imp fun hlt => (Apart.of_lt hlt).key_ne).filter _)
  have hsub : ((B.entries.filter fun a => !decide (∀ c ∈ B.rbtree, c.ref.key ≠ a.key)).map
      (·.key)) ⊆ B.rbtree.map (·.ref.key) := by
    intro k hk
    obtain ⟨a, ha, rfl⟩ := List.mem_map.1 hk
    simpa using (List.mem_filter.1 ha).2
  have hle := (hnodup.subperm hsub).length_le
  simp only [List.length_map] at hle
  simp only [kids, List.length_append, List.length_map]
  omega

/-- The children as a tree for the searches. -/
def tree (h : B.Rep) : ChainTree (Option (TableRef δ)) where
  toTopology := B.topology
  root_indirect := rfl
  root_top p := by cases p <;> simp [Topology.Child, topology]
  base_fits p a ha := by
    obtain ⟨rfl, b, -, rfl⟩ := mem_topology_base.1 ha
    exact ⟨b.fits, b.shift⟩
  rbtree_fits p c hc := by
    obtain ⟨rfl, d, -, rfl⟩ := mem_topology_rbtree.1 hc
    exact ⟨d.ref.fits, d.ref.shift⟩
  base_sorted p := by
    cases p with
    | some _ => exact .nil
    | none =>
      simp only [topology, Option.elim_none, List.reduceOption_map]
      exact List.pairwise_map.2 h.sorted
  rbtree_sorted p := by
    cases p with
    | some _ => exact .nil
    | none => exact List.pairwise_map.2 h.rbtree_sorted
  shadow p a c ha hc := by
    obtain ⟨rfl, b, hb, rfl⟩ := mem_topology_base.1 ha
    obtain ⟨-, d, hd, rfl⟩ := mem_topology_rbtree.1 hc
    rcases h.shadow hd hb with hs | hap
    · exact .inl hs
    · exact .inr hap.symm
  base_live _ _ _ _ := rfl
  parent_eq p c hc := by
    rcases hc with hc | ⟨hc, -⟩
    · exact (mem_topology_rbtree.1 hc).1.symm
    · exact (mem_topology_base.1 hc).1.symm
  inside p c hp := by simp [topology] at hp

/-- The children are those of the chain tree that stands for the block. -/
theorem child_iff : B.topology.Child none (some r) ↔ r ∈ B.kids := by
  rw [mem_kids]
  unfold Topology.Child
  simp only [mem_topology_rbtree, mem_topology_base, true_and, Option.some.injEq, exists_eq_right']
  refine or_congr (by simp only [eq_comm]) (and_congr_right fun _ => ⟨fun hd c hc => ?_, ?_⟩)
  · exact hd _ ⟨c, hc, rfl⟩
  · rintro hd _ ⟨c, hc, rfl⟩
    exact hd c hc

/-- The child found is the first one that ends at or past the key. -/
theorem combinedFind_some (h : B.Rep) (hbeg : keyBeg < keySpace)
    (hf : B.combinedFind keyBeg = some r) :
    r ∈ B.kids ∧ ∀ d ∈ B.kids, keyBeg ≤ d.last → d = r ∨ r.last < d.key := by
  obtain ⟨keyNext, hfind⟩ : ∃ k, h.tree.combinedFind none keyBeg
    (keySpace - 1) = (some (some r), k) :=
    ⟨_, Prod.ext (Option.join_eq_some_iff.1 hf) rfl⟩
  obtain ⟨hnear, -⟩ := h.tree.combinedFind_some (by omega) (by decide) hfind
  refine ⟨child_iff.1 hnear.child, fun d hd hle => ?_⟩
  rcases hnear.first (some d) (child_iff.2 hd) hle with heq | hlt
  · exact .inl (Option.some.inj heq)
  · exact .inr hlt

/-- If no child is found, all end before the key. -/
theorem combinedFind_none (h : B.Rep) (hbeg : keyBeg < keySpace) (hf : B.combinedFind keyBeg = none)
    (hd : d ∈ B.kids) : d.last < keyBeg := by
  by_contra hle
  have hchild := child_iff.2 hd
  cases hfind : h.tree.combinedFind none keyBeg (keySpace - 1) with
  | mk found keyNext =>
    cases found with
    | none =>
      have hlt : keySpace - 1 < d.key :=
        h.tree.combinedFind_none (by omega) (by decide) hfind hchild (Nat.le_of_not_lt hle)
      have := d.fits
      have := Nat.two_pow_pos d.keybits
      omega
    | some c =>
      have hc : c = none := by
        have hfst : (B.topology.combinedFind none keyBeg (keySpace - 1)).1 = some c :=
          congrArg Prod.fst hfind
        rw [ChainBlock.combinedFind, hfst] at hf
        exact hf
      have hnear := (h.tree.combinedFind_some (by omega) (by decide) hfind).1
      subst hc
      exact h.tree.root_top none hnear.child

/-- A child is known by its key. -/
theorem kids_eq_of_key (h : B.Rep) (hr : r ∈ B.kids) (hd : d ∈ B.kids) (hkey : r.key = d.key) :
    r = d := by
  by_contra hne
  exact (h.kids_apart.forall hr hd hne).key_ne hkey

end Rep

/-! ## Counting and inserting into the tree -/

@[simp] theorem countbrefs_counted (B : ChainBlock δ) : B.countbrefs.counted = true := by
  unfold countbrefs
  split <;> simp_all

@[simp] theorem countbrefs_base (B : ChainBlock δ) : B.countbrefs.table.base = B.table.base := by
  unfold countbrefs
  split <;> rfl

@[simp] theorem countbrefs_rbtree (B : ChainBlock δ) : B.countbrefs.rbtree = B.rbtree := by
  unfold countbrefs
  split <;> rfl

@[simp] theorem countbrefs_ready (B : ChainBlock δ) : B.countbrefs.ready = B.ready := by
  unfold countbrefs
  split <;> rfl

/-- Counting changes no child. -/
@[simp] theorem countbrefs_kids (B : ChainBlock δ) : B.countbrefs.kids = B.kids := by
  simp [kids, entries]

@[simp] theorem countbrefs_count (B : ChainBlock δ) : B.countbrefs.count = B.count := by
  simp [count]

/-- Counting keeps the representation. -/
theorem Rep.countbrefs (h : B.Rep) : B.countbrefs.Rep := by
  cases hc : B.counted with
  | true =>
    have heq : B.countbrefs = B := by simp [ChainBlock.countbrefs, hc]
    rwa [heq]
  | false =>
    have hrb := h.cached hc
    have hlive : B.table.liveCount = 0 := by simpa [hc] using h.live
    have heq : B.countbrefs = { B with table := B.table.countbrefs, counted := true } := by
      simp [ChainBlock.countbrefs, hc]
    have hkids : B.kids.length = B.entries.length := by simp [kids, hrb]
    rw [heq]
    exact
      { sorted := h.sorted
        zero := fun _ => rfl
        rbtree_sorted := h.rbtree_sorted
        mapped := h.mapped
        unmapped := h.unmapped
        cached := nofun
        live := by
          change B.table.liveCount + (B.entries.length : Int) = (B.kids.length : Int)
          rw [hlive, hkids, zero_add]
        room := h.room }

theorem Rep.withReady (h : B.Rep) (r : Bool) :
    ({ B with ready := r } : ChainBlock δ).Rep :=
  ⟨h.sorted, h.zero, h.rbtree_sorted, h.mapped, h.unmapped, h.cached, h.live, h.room⟩

/-- Where no entry is dropped, a modify that fails leaves the block as it was. -/
theorem failed_eq {ok : ModifyAnswer} (h : ¬ B.Loses ok) : B.failed ok = B := by
  unfold failed
  split
  · next hc =>
    have hnil : B.entries = [] := not_not.1 fun hne => h ⟨hc.1, hc.2, hne⟩
    have hbase : (B.table.base.map fun _ => none) = B.table.base := by
      refine (List.map_congr_left fun o ho => ?_).trans (List.map_id _)
      cases o with
      | none => rfl
      | some a =>
        have : a ∈ B.entries := List.reduceOption_mem_iff.2 ho
        rw [hnil] at this
        cases this
    rw [hbase]
  · rfl

/-- Where entries are dropped, the table is another one afterwards. -/
theorem Loses.base_ne {ok : ModifyAnswer} (h : B.Loses ok) :
    (B.failed ok).table.base ≠ B.table.base := by
  obtain ⟨hr, hok, hne⟩ := h
  obtain ⟨a, ha⟩ := List.exists_mem_of_ne_nil _ hne
  have hmem : some a ∈ B.table.base := List.reduceOption_mem_iff.1 ha
  intro heq
  rw [failed, if_pos ⟨hr, hok⟩] at heq
  rw [← heq] at hmem
  obtain ⟨_, -, hn⟩ := List.mem_map.1 hmem
  cases hn

/-- The chains in memory stay, whatever comes of a modify. -/
theorem failed_rbtree (ok : ModifyAnswer) (B : ChainBlock δ) : (B.failed ok).rbtree = B.rbtree := by
  unfold failed
  split <;> rfl

/-- A modify fails, or the block is ready. -/
theorem modify_cases (B : ChainBlock δ) (ok : ModifyAnswer) :
    B.modify ok = .error .io ∨ B.modify ok = .ok { B with ready := true } := by
  unfold modify
  split
  · exact .inr rfl
  · exact .inl rfl

/-- Once counted, `live_count` is the number of children. -/
theorem Rep.liveCount_countbrefs (h : B.Rep) :
    B.countbrefs.table.liveCount = B.kids.length := by
  have hl := h.countbrefs.live
  rwa [countbrefs_counted, if_pos rfl, countbrefs_kids] at hl

/-- Insertion of a chain that is disjoint from the others. -/
theorem rbInsert_spec {l : List (SubChain δ)} (hs : l.Pairwise fun a b => a.ref.last < b.ref.key)
    (hd : ∀ d ∈ l, Apart c.ref d.ref) :
    ∃ l', rbInsert l c = some l' ∧ l'.Perm (c :: l) ∧
      l'.Pairwise fun a b => a.ref.last < b.ref.key := by
  induction l with
  | nil => exact ⟨[c], rfl, .refl _, List.pairwise_singleton _ _⟩
  | cons d l ih =>
    obtain ⟨hdl, hl⟩ := List.pairwise_cons.1 hs
    by_cases hlt : c.ref.last < d.ref.key
    · refine ⟨c :: d :: l, by rw [rbInsert, if_pos hlt], .refl _, List.pairwise_cons.2 ⟨?_, hs⟩⟩
      intro e he
      rcases List.mem_cons.1 he with rfl | he
      · exact hlt
      · have := hdl e he
        have := d.ref.key_le_last
        omega
    · have hgt : d.ref.last < c.ref.key := (hd d List.mem_cons_self).resolve_left hlt
      obtain ⟨l', heq, hperm, hsorted⟩ := ih hl fun e he => hd e (List.mem_cons_of_mem _ he)
      refine ⟨d :: l', by rw [rbInsert, if_neg hlt, if_pos hgt, heq]; rfl,
        (hperm.cons d).trans (.swap ..), List.pairwise_cons.2 ⟨fun e he => ?_, hsorted⟩⟩
      rcases List.mem_cons.1 (hperm.mem_iff.1 he) with rfl | he
      · exact hgt
      · exact hdl e he

/-- One chain more in memory, with or without an entry, is one child more. -/
theorem kids_perm_cons {o : Option (TableRef δ)} (hrb : B'.rbtree.Perm (c :: B.rbtree))
    (he : B'.entries.Perm (o.toList ++ B.entries)) (ho : ∀ a ∈ o, a.key = c.ref.key)
    (hne : ∀ a ∈ B.entries, c.ref.key ≠ a.key) :
    B'.kids.Perm (c.ref :: B.kids) := by
  have hfilter : ∀ a ∈ B.entries, decide (∀ d ∈ B'.rbtree, d.ref.key ≠ a.key) =
      decide (∀ d ∈ B.rbtree, d.ref.key ≠ a.key) := by
    intro a ha
    refine decide_eq_decide.2 ⟨fun h d hd => h d (hrb.mem_iff.2 (List.mem_cons_of_mem _ hd)),
      fun h d hd => ?_⟩
    rcases List.mem_cons.1 (hrb.mem_iff.1 hd) with rfl | hd
    · exact hne a ha
    · exact h d hd
  have hold : (o.toList.filter fun a => decide (∀ d ∈ B'.rbtree, d.ref.key ≠ a.key)) = [] := by
    refine List.filter_eq_nil_iff.2 fun a ha => ?_
    simp only [decide_eq_true_eq, not_forall, not_not]
    exact ⟨c, hrb.mem_iff.2 List.mem_cons_self, (ho a (Option.mem_toList.1 ha)).symm⟩
  have hent := he.filter fun a => decide (∀ d ∈ B'.rbtree, d.ref.key ≠ a.key)
  rw [List.filter_append, hold, List.nil_append, List.filter_congr hfilter] at hent
  exact (hrb.map _).append hent

/-! ## One child less -/

/-- A block after a child is taken out of it. -/
structure Removed (B : ChainBlock δ) (c : SubChain δ) (B' : ChainBlock δ) : Prop where
  rep : B'.Rep
  counted : B'.counted = true
  kids : B.kids.Perm (c.ref :: B'.kids)
  count : B'.count = B.count
  ready : B.ready = true → B'.ready = true

namespace Rep
variable {B B' : ChainBlock δ} {c : SubChain δ}

/-- A chain that is unlinked is the only one with its key. -/
theorem perm_unlink (h : B.Rep) (hc : c ∈ B.rbtree) :
    B.rbtree.Perm (c :: B.rbtree.eraseP fun d => d.ref.key = c.ref.key) := by
  obtain ⟨d, l₁, l₂, hne, hkey, heq, herase⟩ :=
    List.exists_of_eraseP (p := fun d : SubChain δ => decide (d.ref.key = c.ref.key)) hc (by simp)
  have hcd : c = d := by
    have hs := h.rbtree_sorted
    rw [heq] at hs hc
    rcases List.mem_append.1 hc with hc | hc
    · exact absurd (decide_eq_true rfl) (hne c hc)
    · rcases List.mem_cons.1 hc with rfl | hc
      · rfl
      · have hlt := (List.pairwise_cons.1 (List.pairwise_append.1 hs).2.1).1 c hc
        exact absurd (of_decide_eq_true hkey) (Apart.of_lt hlt).key_ne
  rw [herase, heq, hcd]
  exact List.perm_middle

/-- What is left of a block without a chain `c`, and without the entry `o` of its range if it has
one. -/
theorem removed (h : B.Rep) (hc : c ∈ B.rbtree) {o : Option (TableRef δ)}
    (hrb : B'.rbtree = B.rbtree.eraseP fun d => d.ref.key = c.ref.key)
    (he : B.entries.Perm (o.toList ++ B'.entries)) (ho : ∀ a ∈ o, a.key = c.ref.key)
    (hne : ∀ a ∈ B'.entries, c.ref.key ≠ a.key) (hkept : B'.table.Kept)
    (hcount : B'.count = B.count)
    (hcounted : B'.counted = B.counted) (hlive : B'.table.liveCount = B.table.liveCount - 1)
    (hready : B.ready = true → B'.ready = true) : Removed B c B' := by
  have hperm : B.rbtree.Perm (c :: B'.rbtree) := hrb ▸ h.perm_unlink hc
  have hkids : B.kids.Perm (c.ref :: B'.kids) := kids_perm_cons hperm he ho hne
  have hlen := hkids.length_eq
  rw [List.length_cons] at hlen
  have hcnt := h.counted_of_mem hc
  have hsub : ∀ d ∈ B'.rbtree, d ∈ B.rbtree := fun d hd =>
    hperm.mem_iff.2 (List.mem_cons_of_mem _ hd)
  have hent : ∀ a ∈ B'.entries, a ∈ B.entries := fun a ha =>
    he.mem_iff.2 (List.mem_append_right _ ha)
  refine ⟨⟨hkept.sorted, fun _ => hkept.zero, ?_, fun d hd hm =>
    ?_, fun d hd hm a ha => ?_, ?_, ?_, ?_⟩, hcounted.trans hcnt, hkids, hcount, hready⟩
  · exact hrb ▸ h.rbtree_sorted.sublist List.eraseP_sublist
  · obtain ⟨a, ha, hkey, hbits⟩ := h.mapped d (hsub d hd) hm
    refine ⟨a, ?_, hkey, hbits⟩
    -- The entry of another chain is not the one taken out.
    have hap : Apart c.ref d.ref := by
      have hs := (hperm.pairwise_iff fun h => Apart.symm h).1 h.rbtree_apart
      exact (List.pairwise_cons.1 hs).1 d hd
    refine (List.mem_append.1 (he.mem_iff.1 ha)).resolve_left fun hmem => hap.key_ne ?_
    rw [← ho a (Option.mem_toList.1 hmem), hkey]
  · exact h.unmapped d (hsub d hd) hm a (hent a ha)
  · simp [hcounted, hcnt]
  · have hl := h.live
    rw [hcnt, if_pos rfl] at hl
    rw [hcounted, hcnt, if_pos rfl, hlive, hl, hlen]
    push_cast
    omega
  · have := h.room
    omega

/-- **A child is taken out**: with the modify granted, if there is an entry to remove,
`_hammer2_chain_delete_helper` removes the chain from the tree and its entry from the table. -/
theorem deleteHelper (h : B.Rep) (hc : c ∈ B.rbtree) {ok : ModifyAnswer}
    (hok : c.flags.blkmapped = true → (B.ready || ok.isOk) = true) :
    ∃ B' c' obref, B.deleteHelper ok c = .ok (B', c', obref) ∧ Removed B c B' ∧ c'.ref = c.ref ∧
      c'.flags.blkmapped = false ∧ ∀ a ∈ obref, a.key = c.ref.key ∧ a.keybits = c.ref.keybits := by
  have hcnt := h.counted_of_mem hc
  have hkept := h.kept hcnt
  unfold ChainBlock.deleteHelper
  cases hm : c.flags.blkmapped with
  | false =>
    refine ⟨_, _, _, if_neg Bool.false_ne_true, ?_, rfl, hm, nofun⟩
    refine h.removed (o := none) hc rfl (.refl _) nofun (fun a ha => ?_) ⟨hkept.sorted, hkept.zero⟩
      rfl rfl rfl id
    exact Apart.key_ne (h.unmapped c hc hm a ha)
  | true =>
    obtain ⟨a, ha, hkey, hbits⟩ := h.mapped c hc hm
    obtain ⟨q, hq, hfound, hqk, hlen, hperm, -, hlive⟩ :=
      @BaseParent.Kept.baseDelete_kept _ c.ref.keybits _ _ c.flags hkept ha (.inr hbits)
    obtain ⟨flags, hdel⟩ : ∃ flags,
        B.table.baseDelete c.ref.key c.ref.keybits c.flags = (q, flags, some a) := by
      rw [← hkey]
      exact ⟨_, Prod.ext hq (Prod.ext rfl hfound)⟩
    refine ⟨({ B with table := q, ready := true } : ChainBlock δ).unlink c.ref.key,
      { c with flags := flags }, some a, ?_, ?_, rfl,
      (BaseParent.baseDelete_flags hdel).1, by simp [hkey, hbits]⟩
    · simp only [if_true, ChainBlock.modify, hok hm, bind, Except.bind, hdel]
    · refine h.removed (o := some a) hc rfl hperm (by simp [hkey]) (fun b hb => ?_)
        ⟨hqk.sorted, hqk.zero⟩ hlen rfl (by simp [unlink, hlive]) fun _ => rfl
      have hs := (hperm.pairwise_iff fun h => Apart.symm h).1 (hkept.sorted.imp Apart.of_lt)
      rw [← hkey]
      exact ((List.pairwise_cons.1 hs).1 b hb).key_ne

/-- The children stay the same when the chain of an entry goes into the tree. -/
theorem kids_perm_of_entry (h : B.Rep) (ha : a ∈ B.entries)
    (hs : ∀ d ∈ B.rbtree, d.ref.key ≠ a.key) {l : List (SubChain δ)} (hc : c.ref = a)
    (hperm : l.Perm (c :: B.rbtree)) : B.kids.Perm
    ({ B with rbtree := l } : ChainBlock δ).kids := by
  obtain ⟨l₁, l₂, heq⟩ := List.append_of_mem ha
  have hap := h.sorted.imp (Apart.of_lt (δ := δ))
  rw [heq] at hap
  have hother : ∀ b ∈ l₁ ++ l₂, c.ref.key ≠ b.key := by
    have hmid := (List.perm_middle.pairwise_iff fun h => Apart.symm h).1 hap
    exact fun b hb => hc ▸ ((List.pairwise_cons.1 hmid).1 b hb).key_ne
  -- The block without the entry has one child less than either.
  let T : BaseParent δ := { B.table with base := (l₁ ++ l₂).map some }
  have hent : ({ B with table := T } : ChainBlock δ).entries = l₁ ++ l₂ := by
    simp [entries, T, List.reduceOption]
  have h₁ : B.kids.Perm (a :: ({ B with table := T } : ChainBlock δ).kids) := by
    unfold kids
    rw [hent, heq, List.filter_append, List.filter_cons_of_pos (by simpa using hs),
      List.filter_append]
    refine List.Perm.trans ?_ List.perm_middle
    exact (List.Perm.refl _).append List.perm_middle
  have h₂ : ({ B with rbtree := l } : ChainBlock δ).kids.Perm
      (c.ref :: ({ B with table := T } : ChainBlock δ).kids) := by
    refine kids_perm_cons (o := some a) hperm ?_ (by simp [hc]) (by rwa [hent])
    rw [hent]
    exact (heq ▸ List.perm_middle : B.entries.Perm (a :: (l₁ ++ l₂)))
  exact h₁.trans (hc ▸ h₂.symm)

/-- The chain of an entry is the child that the entry was. -/
theorem chainGet (h : B.Rep) (hcnt : B.counted = true) (ha : a ∈ B.entries)
    (hs : ∀ c ∈ B.rbtree, c.ref.key ≠ a.key) :
    ∃ B' c', B.chainGet a = .ok (B', c') ∧ B'.Rep ∧ c' ∈ B'.rbtree ∧ c'.ref = a ∧
      B.kids.Perm B'.kids ∧ B'.count = B.count ∧ B'.ready = B.ready := by
  have hap : ∀ d ∈ B.rbtree, Apart a d.ref := fun d hd =>
    ((h.shadow hd ha).resolve_left fun hsame => hs d hd hsame.1.symm).symm
  obtain ⟨l, hl, hperm, hsorted⟩ :=
    rbInsert_spec (c := ⟨a, ⟨true, false, false⟩, false⟩) h.rbtree_sorted hap
  have hkids := h.kids_perm_of_entry ha hs rfl hperm
  refine ⟨{ B with rbtree := l }, _, by simp only [ChainBlock.chainGet, hl], ?_,
    hperm.mem_iff.2 List.mem_cons_self, rfl, hkids, rfl, rfl⟩
  exact
    { sorted := h.sorted
      zero := h.zero
      rbtree_sorted := hsorted
      mapped := fun d hd hm => by
        rcases List.mem_cons.1 (hperm.mem_iff.1 hd) with rfl | hd
        · exact ⟨a, ha, rfl, rfl⟩
        · exact h.mapped d hd hm
      unmapped := fun d hd hm => by
        rcases List.mem_cons.1 (hperm.mem_iff.1 hd) with rfl | hd
        · cases hm
        · exact h.unmapped d hd hm
      cached := fun hn => absurd (hcnt.symm.trans hn) nofun
      live := by rw [← hkids.length_eq]; exact h.live
      room := by rw [← hkids.length_eq]; exact h.room }

end Rep

/-! ## One child more -/

/-- A block after a child is put under it. -/
structure Inserted (B : ChainBlock δ) (c : SubChain δ) (B' : ChainBlock δ) : Prop where
  rep : B'.Rep
  counted : B'.counted = true
  kids : B'.kids.Perm (c.ref :: B.kids)
  count : B'.count = B.count
  ready : B.ready = true → B'.ready = true

/-- An insertion may be preceded by a count. -/
theorem Inserted.of_countbrefs (h : Inserted B.countbrefs c B') : Inserted B c B' where
  rep := h.rep
  counted := h.counted
  kids := by simpa using h.kids
  count := by simpa using h.count
  ready := by simpa using h.ready

namespace Rep
variable {B B' : ChainBlock δ} {c : SubChain δ}

/-- A block with a chain `c` more, and an entry `o` of its range if it is flagged so. -/
theorem inserted (h : B.Rep) {o : Option (TableRef δ)} (hrb : B'.rbtree.Perm (c :: B.rbtree))
    (hsorted : B'.rbtree.Pairwise fun a b => a.ref.last < b.ref.key)
    (he : B'.entries.Perm (o.toList ++ B.entries))
    (ho : ∀ a ∈ o, a.key = c.ref.key ∧ a.keybits = c.ref.keybits)
    (hflag : c.flags.blkmapped = o.isSome) (hap : ∀ r ∈ B.kids, Apart c.ref r)
    (hroom : B.kids.length < B.count) (hkept : B'.table.Kept) (hcount : B'.count = B.count)
    (hold : B.counted = true) (hcounted : B'.counted = true)
    (hlive : B'.table.liveCount = B.table.liveCount + 1)
    (hready : B.ready = true → B'.ready = true) : Inserted B c B' := by
  have hent : ∀ a ∈ B.entries, Apart c.ref a := fun a ha => h.apart_entries hap ha
  have hkids : B'.kids.Perm (c.ref :: B.kids) :=
    kids_perm_cons hrb he (fun a ha => (ho a ha).1) fun a ha => (hent a ha).key_ne
  have hlen := hkids.length_eq
  rw [List.length_cons] at hlen
  refine ⟨⟨hkept.sorted, fun _ => hkept.zero, hsorted, fun d hd hm =>
    ?_, fun d hd hm a ha => ?_, ?_, ?_, by omega⟩, hcounted, hkids, hcount, hready⟩
  · rcases List.mem_cons.1 (hrb.mem_iff.1 hd) with rfl | hd
    · obtain ⟨a, rfl⟩ := Option.isSome_iff_exists.1 (hflag.symm.trans hm)
      exact ⟨a, he.mem_iff.2 List.mem_cons_self, ho a rfl⟩
    · obtain ⟨a, ha, hrange⟩ := h.mapped d hd hm
      exact ⟨a, he.mem_iff.2 (List.mem_append_right _ ha), hrange⟩
  · rcases List.mem_cons.1 (hrb.mem_iff.1 hd) with rfl | hd
    · have hno : o = none := by simpa [hm] using hflag
      exact hent a (by simpa [hno] using he.mem_iff.1 ha)
    · rcases List.mem_append.1 (he.mem_iff.1 ha) with ha | ha
      · obtain ⟨hkey, hbits⟩ := ho a (Option.mem_toList.1 ha)
        exact ((hap d.ref (mem_kids.2 (.inl ⟨d, hd, rfl⟩))).of_range hkey hbits).symm
      · exact h.unmapped d hd hm a ha
  · simp [hcounted]
  · have hl := h.live
    rw [hold, if_pos rfl] at hl
    rw [hcounted, if_pos rfl, hlive, hl, hlen]
    push_cast
    rfl

/-- A block with a free slot takes the chain without a split. -/
theorem chainRename (h : B.Rep) (hap : ∀ r ∈ B.kids, Apart c.ref r)
    (hroom : B.kids.length < B.count) :
    ∃ l, B.chainRename c = .ok { B.countbrefs with
        table := { B.countbrefs.table with liveCount := B.countbrefs.table.liveCount + 1 }
        rbtree := l } ∧
      l.Perm (c :: B.rbtree) ∧ l.Pairwise fun a b => a.ref.last < b.ref.key := by
  have hfree : ¬ B.countbrefs.table.liveCount = B.countbrefs.count := by
    rw [h.liveCount_countbrefs, countbrefs_count]
    omega
  obtain ⟨l, hl, hperm, hsorted⟩ := rbInsert_spec h.rbtree_sorted fun d hd =>
    hap d.ref (mem_kids.2 (.inl ⟨d, hd, rfl⟩))
  refine ⟨l, ?_, hperm, hsorted⟩
  rw [ChainBlock.chainRename, if_neg hfree, chainInsert, countbrefs_rbtree, hl]

/-- **A child is put under a block**: with a free slot, a range disjoint from the children's and the
modify granted, `hammer2_chain_rename_obref` puts the chain into the tree and its old entry, if it
had one, into the table. -/
theorem renameObref [DecidableEq δ] (h : B.Rep) {obref : Option (TableRef δ)}
    (hun : c.flags.blkmapped = false)
    (ho : ∀ a ∈ obref, a.key = c.ref.key ∧ a.keybits = c.ref.keybits)
    (hap : ∀ r ∈ B.kids, Apart c.ref r) (hroom : B.kids.length < B.count) {ok : ModifyAnswer}
    (hok : (B.ready || ok.isOk) = true) :
    ∃ B' c', B.renameObref ok c obref = .ok B' ∧ Inserted B c' B' ∧ c'.ref = c.ref := by
  have hkept := h.countbrefs.kept B.countbrefs_counted
  have hbase : B.countbrefs.table.base = B.table.base := B.countbrefs_base
  cases obref with
  | none =>
    let c' : SubChain δ := { c with update := true }
    obtain ⟨l, heq, hperm, hsorted⟩ := @chainRename _ B c' h hap hroom
    refine ⟨_, c', heq, Inserted.of_countbrefs ?_, rfl⟩
    exact h.countbrefs.inserted (o := none) (by simpa using hperm) hsorted (.refl _) nofun hun
      (by simpa using hap) (by simpa using hroom) ⟨hkept.sorted, hkept.zero⟩ rfl
      B.countbrefs_counted B.countbrefs_counted rfl id
  | some a =>
    obtain ⟨hkey, hbits⟩ := ho a rfl
    let c' : SubChain δ := { c with
      flags := { c.flags with
        blkmapped := true, blkmapupd := c.flags.blkmapupd || decide (a ≠ c.ref) }
      update := decide (a ≠ c.ref) }
    obtain ⟨l, heq, hperm, hsorted⟩ := @chainRename _ B c' h hap hroom
    have hdis : BaseParent.Disjoint B.countbrefs.table.base a := fun b hb =>
      (h.apart_entries hap (by rwa [hbase] at hb)).of_range hkey hbits
    have hfree : none ∈ B.countbrefs.table.base := by
      have := h.entries_length_le
      rw [hbase]
      exact List.reduceOption_length_lt_iff.1 (by unfold entries count at *; omega)
    obtain ⟨q, hq, hqk, hlen, hent, -, hlive⟩ :=
      @BaseParent.Kept.baseInsert_kept _
        { B.countbrefs.table with liveCount := B.countbrefs.table.liveCount + 1 }
        _ ⟨hkept.sorted, hkept.zero⟩ hdis hfree
    refine ⟨{ B.countbrefs with table := q, rbtree := l, ready := true }, c', ?_,
      Inserted.of_countbrefs ?_, rfl⟩
    · simp only [ChainBlock.renameObref, bind, Except.bind]
      rw [heq]
      simp only [modify, countbrefs_ready, hok, if_true, hq]
    · exact h.countbrefs.inserted (o := some a) (by simpa using hperm) hsorted hent
        (by rintro b ⟨⟩; exact ⟨hkey, hbits⟩) rfl (by simpa using hap)
          (by simpa using hroom) hqk hlen
        B.countbrefs_counted B.countbrefs_counted hlive fun _ => rfl

end Rep

end ChainBlock

end Hammer2
