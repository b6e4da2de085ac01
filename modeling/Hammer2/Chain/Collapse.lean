import Hammer2.Chain.Block

/-!
# Collapsing an indirect block

`hammer2_chain_indirect_maintenance` looks at an indirect block whose children may fit into its
parent. An empty block is deleted. One whose range the parent does not cover, whose children do not
fit, or that is more than three quarters full is left alone. Otherwise parent and block are
modified, the block is deleted, and its children are moved into the parent one by one, in the order
of their keys.

The two modifies are the only calls of a collapse that fail: the later ones find both blocks
`MODIFIED` with their data resolved. So nothing fails between the deletion of the block and the last
move. But a modify that fails in I/O drops the table of the block it was to modify, and what is only
there is reached no more (`Torn`); `indirectMaintenance_preserves_iff` says that nothing else can go
wrong.

Reference: `hammer2_chain.c:4182-4417`.
-/

namespace Hammer2

/-- A parent, the chain of one of its indirect blocks, and that block's own children. -/
structure Collapse (δ : Type*) where
  parent : ChainBlock δ
  /-- `parent->bref.key`. -/
  key : Nat
  /-- `parent->bref.keybits`, 0 for an inode. -/
  keybits : Nat
  chain : SubChain δ
  block : ChainBlock δ

/-- What the device and the allocator answer to the modifies of a collapse; `moves` are the answers
once the block is being deleted and its children moved. -/
structure CollapseIo where
  parent : ModifyAnswer
  block : ModifyAnswer
  moves : Nat → ModifyAnswer

section
variable {δ : Type*}

/-- The child that the search has found: its chain, got from the entry if it is not in memory, is
taken out of the block. -/
def ChainBlock.takeOut (ok : ModifyAnswer) (B : ChainBlock δ) (r : TableRef δ) :
    Except ChainFault (ChainBlock δ × SubChain δ × Option (TableRef δ)) :=
  match B.rbtree.find? fun c => c.ref.key = r.key with
  | some c => B.deleteHelper ok c
  | none => do
    let (B, c) ← B.chainGet r
    B.deleteHelper ok c

variable [DecidableEq δ]

/-- The loop that moves the children of the block to the parent, from `keyBeg` on. -/
def collapseLoop (moves : Nat → ModifyAnswer) :
    Nat → Nat → ChainBlock δ → ChainBlock δ → Except ChainFault (ChainBlock δ × ChainBlock δ)
  | 0, _, _, _ => .error .panic
  | n + 1, keyBeg, parent, block =>
    match block.combinedFind keyBeg with
    | none => .ok (parent, block)
    | some r => do
      let (block, c, obref) ← block.takeOut (moves (2 * n + 1)) r
      let parent ← parent.renameObref (moves (2 * n + 2)) c obref
      let keyNext := (r.key + 2 ^ r.keybits) % keySpace
      if keyNext = 0 then .ok (parent, block) else collapseLoop moves n keyNext parent block

namespace Collapse

/-- The refusals: the block's range is not within the parent's, the children do not fit, or the
block is too full to bother. -/
def refuses (s : Collapse δ) : Bool :=
  (0 < s.chain.ref.keybits ∧ 0 < s.keybits ∧
    (s.chain.ref.key < s.key ∨ (s.key + 2 ^ s.keybits - 1) % keySpace < s.chain.ref.last)) ∨
  (s.parent.count : Int) < s.parent.table.liveCount + s.block.table.liveCount - 1 ∨
  ((s.block.count * 3 / 4 : Nat) : Int) < s.block.table.liveCount

/-- The collapse proper: the block is deleted, then its children are moved. A block has no more
children than slots, so the loop ends within as many rounds. -/
def collapse (moves : Nat → ModifyAnswer) (s : Collapse δ) : Except ChainFault (Collapse δ) := do
  let (parent, chain, _) ← s.parent.deleteHelper (moves 0) s.chain
  let (parent, block) ← collapseLoop moves (s.block.count + 1) 0 parent s.block
  .ok { s with parent := parent, chain := chain, block := block }

/-- `hammer2_chain_indirect_maintenance`, with its result. -/
def indirectMaintenance (io : CollapseIo) (s : Collapse δ) :
    Except ChainFault (Collapse δ × Bool) :=
  let s := { s with block := s.block.countbrefs }
  if s.block.table.liveCount = 0 ∧ s.block.rbtree.isEmpty then
    match s.parent.deleteHelper io.parent s.chain with
    | .ok (parent, chain, _) => .ok ({ s with parent := parent, chain := chain }, true)
    -- the error of the deletion is ignored
    | .error .io => .ok ({ s with parent := s.parent.failed io.parent }, true)
    | .error .panic => .error .panic
  else
    let s := { s with parent := s.parent.countbrefs }
    if s.refuses then .ok (s, false)
    else
      match s.parent.modify io.parent with
      | .error _ => .ok ({ s with parent := s.parent.failed io.parent }, false)
      | .ok parent =>
        match s.block.modify io.block with
        | .error _ => .ok ({ s with parent := parent, block := s.block.failed io.block }, false)
        | .ok block => do
          let s ← { s with parent := parent, block := block }.collapse io.moves
          .ok (s, true)

end Collapse
end

/-! ## The map -/

namespace Collapse
variable {δ : Type*}

/-- What is reached from the parent: its children, with those of the block in the block's place. -/
def elements (s : Collapse δ) : List (TableRef δ) :=
  s.parent.kids.flatMap fun r =>
    if r.key = s.chain.ref.key ∧ r.keybits = s.chain.ref.keybits then s.block.kids else [r]

/-- The representation of the two blocks: the chain is a child of the parent in memory, and what is
below it lies in its range. -/
structure Rep (s : Collapse δ) : Prop where
  parent : s.parent.Rep
  block : s.block.Rep
  here : s.chain ∈ s.parent.rbtree
  inside : ∀ r ∈ s.block.kids, s.chain.ref.key ≤ r.key ∧ r.last ≤ s.chain.ref.last ∧
    r.keybits < s.chain.ref.keybits

end Collapse

/-! ## One child -/

namespace ChainBlock
variable {δ : Type*} {B parent block : ChainBlock δ}

/-- The search's child is taken out, whether it is in memory or not. -/
theorem Rep.takeOut (h : B.Rep) (hcnt : B.counted = true) {r : TableRef δ} (hr : r ∈ B.kids)
    {ok : ModifyAnswer}
    (hready : B.ready = true) :
    ∃ B' c obref, B.takeOut ok r = .ok (B', c, obref) ∧ c.ref = r ∧ c.flags.blkmapped = false ∧
      (∀ a ∈ obref, a.key = r.key ∧ a.keybits = r.keybits) ∧ B'.Rep ∧ B'.counted = true ∧
      B'.ready = true ∧ B.kids.Perm (r :: B'.kids) := by
  unfold ChainBlock.takeOut
  cases hf : B.rbtree.find? fun c => c.ref.key = r.key with
  | some c =>
    have hc := List.mem_of_find?_eq_some hf
    have hcr : c.ref = r :=
      h.kids_eq_of_key (mem_kids.2 (.inl ⟨c, hc, rfl⟩)) hr (by simpa using List.find?_some hf)
    obtain ⟨B', c', obref, heq, hrem, href, hun, ho⟩ :=
      @Rep.deleteHelper _ _ _ h hc ok fun _ => by simp [hready]
    subst hcr
    exact ⟨B', c', obref, heq, href, hun, ho, hrem.rep, hrem.counted, hrem.ready hready, hrem.kids⟩
  | none =>
    have hno : ∀ c ∈ B.rbtree, c.ref.key ≠ r.key := by simpa using hf
    have hent : r ∈ B.entries := by
      rcases mem_kids.1 hr with ⟨c, hc, rfl⟩ | ⟨hent, -⟩
      · exact absurd rfl (hno c hc)
      · exact hent
    obtain ⟨B₁, c, hget, hrep, hc, href, hperm, -, hr₁⟩ := h.chainGet hcnt hent hno
    obtain ⟨B', c', obref, heq, hrem, href', hun, ho⟩ :=
      @Rep.deleteHelper _ _ _ hrep hc ok fun _ => by simp [hr₁, hready]
    subst href
    refine ⟨B', c', obref, ?_, href', hun, ho, hrem.rep, hrem.counted,
      hrem.ready (hr₁.trans hready), hperm.trans hrem.kids⟩
    simp only [hget, bind, Except.bind, heq]

/-! ## The loop -/

/-- Where the loop stands: both blocks are modified, what is left in the block fits into the parent
beside what is there, and none of it ends before `keyBeg`. -/
structure Moving (keyBeg : Nat) (parent block : ChainBlock δ) : Prop where
  parent_rep : parent.Rep
  block_rep : block.Rep
  counted : block.counted = true
  parent_ready : parent.ready = true
  block_ready : block.ready = true
  beg : keyBeg < keySpace
  ahead : ∀ d ∈ block.kids, keyBeg ≤ d.last
  apart : ∀ d ∈ block.kids, ∀ r ∈ parent.kids, Apart d r
  fits : parent.kids.length + block.kids.length ≤ parent.count

/-- What a child that is moved leaves behind starts at or past the next key. -/
theorem Rep.ahead_of_next (h : block.Rep) {keyBeg : Nat} (hbeg : keyBeg < keySpace) {r : TableRef δ}
    (hf : block.combinedFind keyBeg = some r) (hahead : ∀ d ∈ block.kids, keyBeg ≤ d.last)
    {rest : List (TableRef δ)} (hperm : block.kids.Perm (r :: rest)) :
    ∀ d ∈ rest, r.key + 2 ^ r.keybits ≤ d.key := by
  intro d hd
  have hdk : d ∈ block.kids := hperm.mem_iff.2 (List.mem_cons_of_mem _ hd)
  have hap : Apart r d :=
    (List.pairwise_cons.1 ((hperm.pairwise_iff fun h => Apart.symm h).1 h.kids_apart)).1 d hd
  have hlt : r.last < d.key := by
    rcases (h.combinedFind_some hbeg hf).2 d hdk (hahead d hdk) with rfl | hlt
    · exact absurd rfl hap.key_ne
    · exact hlt
  unfold TableRef.last at hlt
  omega

variable [DecidableEq δ]

/-- One round: the child found is moved, and the loop stands at the next key unless that is past the
last key. -/
theorem Moving.step {keyBeg : Nat} (h : Moving keyBeg parent block) {r : TableRef δ}
    (hf : block.combinedFind keyBeg = some r) (ok ok' : ModifyAnswer) :
    ∃ parent₁ block₁ c obref, block.takeOut ok r = .ok (block₁, c, obref) ∧
      parent.renameObref ok' c obref = .ok parent₁ ∧ parent₁.Rep ∧ parent₁.count = parent.count ∧
      block.kids.Perm (r :: block₁.kids) ∧ parent₁.kids.Perm (r :: parent.kids) ∧
      (∀ d ∈ block₁.kids, r.key + 2 ^ r.keybits ≤ d.key) ∧
      (r.key + 2 ^ r.keybits < keySpace → Moving (r.key + 2 ^ r.keybits) parent₁ block₁) := by
  have hr := (h.block_rep.combinedFind_some h.beg hf).1
  obtain ⟨block₁, c, obref, htake, rfl, hun, ho, hrep₁, hcnt₁, hready₁, hperm⟩ :=
    @Rep.takeOut _ _ h.block_rep h.counted r hr ok h.block_ready
  have hlen := hperm.length_eq
  rw [List.length_cons] at hlen
  have hfits := h.fits
  obtain ⟨parent₁, c', hren, hins, href⟩ :=
    @Rep.renameObref _ _ c _ h.parent_rep obref hun ho (h.apart c.ref hr) (by omega)
      ok' (by simp [h.parent_ready])
  have hkids := href ▸ hins.kids
  have hnext := h.block_rep.ahead_of_next h.beg hf h.ahead hperm
  refine ⟨parent₁, block₁, c, obref, htake, hren, hins.rep, hins.count, hperm, hkids, hnext,
    fun hlt => ?_⟩
  exact
    { parent_rep := hins.rep
      block_rep := hrep₁
      counted := hcnt₁
      parent_ready := hins.ready h.parent_ready
      block_ready := hready₁
      beg := hlt
      ahead := fun d hd => (hnext d hd).trans d.key_le_last
      apart := fun d hd r hr => by
        rcases List.mem_cons.1 (hkids.mem_iff.1 hr) with rfl | hr
        · exact ((List.pairwise_cons.1 ((hperm.pairwise_iff fun h => Apart.symm h).1
            h.block_rep.kids_apart)).1 d hd).symm
        · exact h.apart d (hperm.mem_iff.2 (List.mem_cons_of_mem _ hd)) r hr
      fits := by
        rw [hkids.length_eq, hins.count, List.length_cons]
        omega }

/-- **The loop moves every child**: from where both blocks are modified, it ends with the block
empty and all its children under the parent. -/
theorem Moving.collapseLoop {moves : Nat → ModifyAnswer} {n keyBeg : Nat}
    (h : Moving keyBeg parent block)
    (hn : block.kids.length < n) :
    ∃ parent' block', Hammer2.collapseLoop moves n keyBeg parent block = .ok (parent', block') ∧
      parent'.Rep ∧ parent'.count = parent.count ∧ block'.kids = [] ∧
      parent'.kids.Perm (block.kids ++ parent.kids) := by
  induction n generalizing keyBeg parent block with
  | zero => cases hn
  | succ n ih =>
    cases hf : block.combinedFind keyBeg with
    | none =>
      have hnil : block.kids = [] := List.eq_nil_iff_forall_not_mem.2 fun d hd =>
        absurd (h.block_rep.combinedFind_none h.beg hf hd) (Nat.not_lt.2 (h.ahead d hd))
      refine ⟨parent, block, by rw [Hammer2.collapseLoop, hf], h.parent_rep, rfl, hnil, ?_⟩
      rw [hnil, List.nil_append]
    | some r =>
      obtain ⟨parent₁, block₁, c, obref, htake, hren, hrep₁, hcount₁, hperm, hkids,
        hnext, hmoving⟩ :=
        h.step hf (moves (2 * n + 1)) (moves (2 * n + 2))
      have hall : (r :: block₁.kids ++ parent.kids).Perm (block.kids ++ parent.kids) :=
        hperm.symm.append_right _
      simp only [Hammer2.collapseLoop, hf, htake, hren, bind, Except.bind]
      have hpos := Nat.two_pow_pos r.keybits
      rcases r.fits.lt_or_eq with hlt | hend
      · rw [Nat.mod_eq_of_lt hlt, if_neg (by omega)]
        have hlen := hperm.length_eq
        rw [List.length_cons] at hlen
        obtain ⟨parent', block', heq, hrep, hcount, hnil, hperm'⟩ := ih (hmoving hlt) (by omega)
        exact ⟨parent', block', heq, hrep, hcount.trans hcount₁, hnil,
          hperm'.trans ((hkids.append_left _).trans (List.perm_middle.trans hall))⟩
      · -- The child that was moved ends with the key space, so nothing is left behind it.
        have hnil : block₁.kids = [] := List.eq_nil_iff_forall_not_mem.2 fun d hd => by
          have := hnext d hd
          have := d.fits
          have := Nat.two_pow_pos d.keybits
          omega
        rw [hend, Nat.mod_self, if_pos rfl]
        rw [hnil] at hall
        exact ⟨parent₁, block₁, rfl, hrep₁, hcount₁, hnil, hkids.trans hall⟩

end ChainBlock

/-! ## The collapse -/

namespace Collapse
variable {δ : Type*} {s t : Collapse δ}

/-- The tree is as it was. -/
structure Unchanged (s t : Collapse δ) : Prop where
  rep : t.parent.Rep
  chain : t.chain = s.chain
  parent_rbtree : t.parent.rbtree = s.parent.rbtree
  parent_base : t.parent.table.base = s.parent.table.base
  block_rbtree : t.block.rbtree = s.block.rbtree
  block_base : t.block.table.base = s.block.table.base

/-- The block is gone, and its children are the parent's. -/
structure Collapsed (s t : Collapse δ) : Prop where
  rep : t.parent.Rep
  chain : t.chain.ref = s.chain.ref
  count : t.parent.count = s.parent.count
  empty : t.block.kids = []
  kids : ∃ others, s.parent.kids.Perm (s.chain.ref :: others) ∧
    t.parent.kids.Perm (s.block.kids ++ others)

/-- An I/O error drops a table that has entries: that of the parent, when an empty block with an
entry is deleted or before a collapse, or that of the block, before a collapse. -/
def Torn [DecidableEq δ] (io : CollapseIo) (s : Collapse δ) : Prop :=
  (s.block.kids = [] ∧ s.chain.flags.blkmapped = true ∧ s.parent.Loses io.parent) ∨
  (s.block.kids ≠ [] ∧
    { s with parent := s.parent.countbrefs, block := s.block.countbrefs }.refuses = false ∧
    (s.parent.Loses io.parent ∨
      (s.parent.ready || io.parent.isOk) = true ∧ s.block.Loses io.block))

/-- A tree that is as it was has the same elements. -/
theorem Unchanged.elements (h : Unchanged s t) : t.elements = s.elements := by
  simp only [Collapse.elements, ChainBlock.kids, ChainBlock.entries, h.chain, h.parent_rbtree,
    h.parent_base, h.block_rbtree, h.block_base]

/-- Nothing is replaced in a list without the block. -/
theorem flatMap_of_other {k b : Nat} {kids l : List (TableRef δ)}
    (h : ∀ r ∈ l, ¬ (r.key = k ∧ r.keybits = b)) :
    (l.flatMap fun r => if r.key = k ∧ r.keybits = b then kids else [r]) = l := by
  rw [List.flatMap_congr fun r hr => if_neg (h r hr)]
  exact List.flatMap_singleton' l

/-- The parent's children are the chain and others, all apart from it. -/
theorem Rep.others (h : s.Rep) {others : List (TableRef δ)}
    (hperm : s.parent.kids.Perm (s.chain.ref :: others)) :
    (∀ r ∈ others, ChainBlock.Apart s.chain.ref r) ∧ others.Pairwise ChainBlock.Apart :=
  List.pairwise_cons.1
    ((hperm.pairwise_iff fun h => ChainBlock.Apart.symm h).1 h.parent.kids_apart)

/-- The elements are the block's children and the parent's other ones. -/
theorem Rep.elements_perm (h : s.Rep) {others : List (TableRef δ)}
    (hperm : s.parent.kids.Perm (s.chain.ref :: others)) :
    s.elements.Perm (s.block.kids ++ others) := by
  refine (hperm.flatMap_right _).trans ?_
  rw [List.flatMap_cons, if_pos ⟨rfl, rfl⟩, flatMap_of_other]
  exact fun r hr hsame => ((h.others hperm).1 r hr).key_ne hsame.1.symm

/-- A collapse keeps the elements. -/
theorem Collapsed.elements (h : s.Rep) (hc : Collapsed s t) : t.elements.Perm s.elements := by
  obtain ⟨others, hs, ht⟩ := hc.kids
  refine List.Perm.trans ?_ (h.elements_perm hs).symm
  rw [Collapse.elements, flatMap_of_other]
  · exact ht
  · rw [hc.chain]
    intro r hr hsame
    -- What was below the block is narrower than it, and the others are apart from it.
    rcases List.mem_append.1 (ht.mem_iff.1 hr) with hr | hr
    · exact absurd hsame.2 (h.inside r hr).2.2.ne
    · exact ((h.others hs).1 r hr).key_ne hsame.1.symm

/-- What is disjoint from the block is disjoint from its children. -/
theorem Rep.block_apart (h : s.Rep) {r d : TableRef δ} (hr : r ∈ s.block.kids)
    (hd : ChainBlock.Apart s.chain.ref d) : ChainBlock.Apart r d := by
  have := h.inside r hr
  unfold ChainBlock.Apart at *
  omega

/-- Counting the entries of a block changes nothing of the tree. -/
theorem Rep.countbrefs (h : s.Rep) :
    Rep { s with block := s.block.countbrefs } ∧
      Rep { s with parent := s.parent.countbrefs, block := s.block.countbrefs } := by
  refine ⟨⟨h.parent, h.block.countbrefs, h.here, ?_⟩, h.parent.countbrefs,
    h.block.countbrefs, ?_, ?_⟩
  · simpa using h.inside
  · simpa using h.here
  · simpa using h.inside

/-- Only the children of the start matter to where a collapse ends. -/
theorem Collapsed.of_same {s' : Collapse δ} (h : Collapsed s' t)
    (hparent : s'.parent.kids = s.parent.kids)
    (hcount : s'.parent.count = s.parent.count) (hchain : s'.chain = s.chain)
    (hblock : s'.block.kids = s.block.kids) : Collapsed s t where
  rep := h.rep
  chain := hchain ▸ h.chain
  count := hcount ▸ h.count
  empty := h.empty
  kids := by rw [← hparent, ← hchain, ← hblock]; exact h.kids

/-- An empty block is deleted, or stays if the parent cannot be modified. -/
theorem Rep.empty (h : s.Rep) (hnil : s.block.kids = []) (ok : ModifyAnswer) :
    s.parent.deleteHelper ok s.chain = .error .io ∨
      ∃ parent chain obref, s.parent.deleteHelper ok s.chain = .ok (parent, chain, obref) ∧
        Collapsed s { s with parent := parent, chain := chain } := by
  by_cases hok : s.chain.flags.blkmapped = true → (s.parent.ready || ok.isOk) = true
  · obtain ⟨parent, chain, obref, hdel, hrem, href, -⟩ := h.parent.deleteHelper h.here hok
    refine .inr ⟨parent, chain, obref, hdel, hrem.rep, href, hrem.count, hnil, _, hrem.kids, ?_⟩
    rw [hnil, List.nil_append]
  · obtain ⟨hm, hno⟩ := Classical.not_imp.1 hok
    refine .inl ?_
    rw [ChainBlock.deleteHelper, if_pos hm, ChainBlock.modify, if_neg hno]
    rfl

/-- A collapse that is not refused has room for the children. -/
theorem Rep.room_of_not_refuses (h : s.Rep) (hp : s.parent.counted = true)
    (hb : s.block.counted = true) (hgo : ¬ s.refuses = true) :
    s.parent.kids.length + s.block.kids.length ≤ s.parent.count + 1 := by
  have hpl := h.parent.live
  have hbl := h.block.live
  rw [hp, if_pos rfl] at hpl
  rw [hb, if_pos rfl] at hbl
  simp only [refuses, decide_eq_true_eq, not_or] at hgo
  omega

variable [DecidableEq δ]

/-- **The collapse proper**: with both blocks modified and room for the children, the block is
deleted and every child is moved. -/
theorem Rep.collapse (h : s.Rep) {moves : Nat → ModifyAnswer} (hcnt : s.block.counted = true)
    (hp : s.parent.ready = true) (hb : s.block.ready = true)
    (hroom : s.parent.kids.length + s.block.kids.length ≤ s.parent.count + 1) :
    ∃ t, s.collapse moves = .ok t ∧ Collapsed s t := by
  obtain ⟨parent, chain, obref, hdel, hrem, href, -⟩ :=
    @ChainBlock.Rep.deleteHelper _ _ _ h.parent h.here (moves 0) fun _ => by simp [hp]
  have hlen := hrem.kids.length_eq
  rw [List.length_cons] at hlen
  have hoth := h.others hrem.kids
  have hmoving : ChainBlock.Moving 0 parent s.block :=
    { parent_rep := hrem.rep
      block_rep := h.block
      counted := hcnt
      parent_ready := hrem.ready hp
      block_ready := hb
      beg := by decide
      ahead := fun d _ => Nat.zero_le _
      apart := fun d hd r hr => h.block_apart hd (hoth.1 r hr)
      fits := by rw [hrem.count]; omega }
  obtain ⟨parent', block', hloop, hrep, hcount, hnil, hperm⟩ :=
    @ChainBlock.Moving.collapseLoop _ _ _ _ moves (s.block.count + 1) _ hmoving
      (Nat.lt_succ_of_le h.block.room)
  refine ⟨{ s with parent := parent', chain := chain, block := block' }, ?_, hrep, href,
    hcount.trans hrem.count, hnil, _, hrem.kids, hperm⟩
  simp only [Collapse.collapse, hdel, hloop, bind, Except.bind]

omit [DecidableEq δ] in
/-- The block is empty to the maintenance exactly if it has no children. -/
theorem Rep.isEmpty_iff (h : s.Rep) :
    (s.block.countbrefs.table.liveCount = 0 ∧ s.block.countbrefs.rbtree.isEmpty) ↔
      s.block.kids = [] := by
  rw [h.block.liveCount_countbrefs, ChainBlock.countbrefs_rbtree]
  constructor
  · rintro ⟨hlive, -⟩
    exact List.length_eq_zero_iff.1 (by omega)
  · intro hnil
    refine ⟨by rw [hnil]; rfl, ?_⟩
    rw [ChainBlock.kids, List.append_eq_nil_iff, List.map_eq_nil_iff] at hnil
    rw [hnil.1]
    rfl

omit [DecidableEq δ] in
/-- Counting the entries has no part in what an I/O error drops. -/
theorem loses_countbrefs {B : ChainBlock δ} {ok : ModifyAnswer} :
    B.countbrefs.Loses ok ↔ B.Loses ok := by
  simp only [ChainBlock.Loses, ChainBlock.countbrefs_ready, ChainBlock.entries,
    ChainBlock.countbrefs_base]

/-- Every way the maintenance ends when no I/O error drops entries. -/
theorem Rep.indirectMaintenance (h : s.Rep) {io : CollapseIo} (hio : ¬ s.Torn io) :
    ∃ t deleted, s.indirectMaintenance io = .ok (t, deleted) ∧
      (Unchanged s t ∨ deleted = true ∧ Collapsed s t) := by
  obtain ⟨hrep₁, hrep₂⟩ := h.countbrefs
  unfold Collapse.indirectMaintenance
  simp only
  by_cases hnil : s.block.kids = []
  · rw [if_pos (h.isEmpty_iff.2 hnil)]
    rcases hrep₁.empty (by rwa [ChainBlock.countbrefs_kids]) io.parent with
      herr | ⟨parent, chain, obref, hdel, hc⟩
    · have hmapped : s.chain.flags.blkmapped = true := by
        by_contra hm
        rw [ChainBlock.deleteHelper, if_neg hm] at herr
        cases herr
      have hfail : s.parent.failed io.parent = s.parent :=
        ChainBlock.failed_eq fun hl => hio (.inl ⟨hnil, hmapped, hl⟩)
      simp only [herr, hfail]
      exact ⟨_, true, rfl, .inl ⟨h.parent, rfl, rfl, rfl, s.block.countbrefs_rbtree,
        s.block.countbrefs_base⟩⟩
    · simp only [hdel]
      exact ⟨_, true, rfl, .inr ⟨rfl, hc.of_same rfl rfl rfl s.block.countbrefs_kids⟩⟩
  · rw [if_neg fun he => hnil (h.isEmpty_iff.1 he)]
    have hun : ∀ r, Unchanged s { s with
        parent := { s.parent.countbrefs with ready := r }, block := s.block.countbrefs } := fun r =>
      ⟨h.parent.countbrefs.withReady r, rfl, s.parent.countbrefs_rbtree, s.parent.countbrefs_base,
        s.block.countbrefs_rbtree, s.block.countbrefs_base⟩
    split
    · exact ⟨_, false, rfl, .inl (hun s.parent.countbrefs.ready)⟩
    · rename_i hgo
      have hloses := not_or.1 fun hl => hio (.inr ⟨hnil, Bool.eq_false_iff.2 hgo, hl⟩)
      rcases s.parent.countbrefs.modify_cases io.parent with hmod | hmod
      · have hfail : s.parent.countbrefs.failed io.parent = s.parent.countbrefs :=
          ChainBlock.failed_eq fun hl => hloses.1 (loses_countbrefs.1 hl)
        simp only [hmod, hfail]
        exact ⟨_, false, rfl, .inl (hun s.parent.countbrefs.ready)⟩
      · simp only [hmod]
        have hready : (s.parent.ready || io.parent.isOk) = true := by
          by_contra hn
          rw [ChainBlock.modify, ChainBlock.countbrefs_ready, if_neg hn] at hmod
          cases hmod
        rcases s.block.countbrefs.modify_cases io.block with hmod' | hmod'
        · have hfail : s.block.countbrefs.failed io.block = s.block.countbrefs :=
            ChainBlock.failed_eq fun hl => hloses.2 ⟨hready, loses_countbrefs.1 hl⟩
          simp only [hmod', hfail]
          exact ⟨_, false, rfl, .inl (hun true)⟩
        · have hrep : Rep { s with
              parent := { s.parent.countbrefs with ready := true }
              block := { s.block.countbrefs with ready := true } } :=
            ⟨hrep₂.parent.withReady true, hrep₂.block.withReady true, hrep₂.here, hrep₂.inside⟩
          obtain ⟨t, hcol, hc⟩ := @Rep.collapse _ _ _ hrep io.moves
            s.block.countbrefs_counted rfl rfl
            (hrep₂.room_of_not_refuses s.parent.countbrefs_counted s.block.countbrefs_counted hgo)
          simp only [hmod', hcol, bind, Except.bind]
          exact ⟨t, true, rfl, .inr ⟨rfl, hc.of_same s.parent.countbrefs_kids
            s.parent.countbrefs_count rfl s.block.countbrefs_kids⟩⟩

omit [DecidableEq δ] in
/-- A parent that still has the block's chain has not taken over its children. -/
theorem Collapsed.gone (h : s.Rep) (hc : Collapsed s t) : s.chain.ref ∉ t.parent.kids := by
  obtain ⟨others, hs, ht⟩ := hc.kids
  intro hmem
  rcases List.mem_append.1 (ht.mem_iff.1 hmem) with hr | hr
  · exact lt_irrefl _ (h.inside _ hr).2.2
  · exact ((h.others hs).1 _ hr).key_ne rfl

omit [DecidableEq δ] in
/-- A modify that drops entries fails. -/
theorem modify_of_loses {B : ChainBlock δ} {ok : ModifyAnswer} (h : B.Loses ok) :
    B.modify ok = .error .io := by
  rw [ChainBlock.modify, h.1, h.2.1]
  rfl

/-- An I/O error that drops entries leaves the tree neither as it was nor collapsed. -/
theorem Rep.torn (h : s.Rep) {io : CollapseIo} (hio : s.Torn io) {deleted : Bool}
    (heq : s.indirectMaintenance io = .ok (t, deleted)) :
    ¬ (Unchanged s t ∨ deleted = true ∧ Collapsed s t) := by
  unfold Collapse.indirectMaintenance at heq
  simp only at heq
  rcases hio with ⟨hnil, hm, hl⟩ | ⟨hnil, hgo, hl⟩
  · have herr : s.parent.deleteHelper io.parent s.chain = .error .io := by
      rw [ChainBlock.deleteHelper, if_pos hm, modify_of_loses hl]
      rfl
    rw [if_pos (h.isEmpty_iff.2 hnil), herr] at heq
    cases heq
    rintro (hun | ⟨-, hc⟩)
    · exact hl.base_ne hun.parent_base
    · refine hc.gone h (ChainBlock.mem_kids.2 (.inl ⟨s.chain, ?_, rfl⟩))
      rw [ChainBlock.failed_rbtree]
      exact h.here
  · rw [if_neg fun he => hnil (h.isEmpty_iff.1 he), if_neg (Bool.eq_false_iff.1 hgo)] at heq
    rcases hl with hl | ⟨hready, hl⟩
    · have hl' := loses_countbrefs.2 hl
      rw [modify_of_loses hl'] at heq
      cases heq
      rintro (hun | ⟨hf, -⟩)
      · exact hl'.base_ne (hun.parent_base.trans s.parent.countbrefs_base.symm)
      · cases hf
    · have hl' := loses_countbrefs.2 hl
      have hmod : s.parent.countbrefs.modify io.parent =
          .ok { s.parent.countbrefs with ready := true } := by
        rw [ChainBlock.modify, ChainBlock.countbrefs_ready, if_pos hready]
      rw [hmod] at heq
      simp only [modify_of_loses hl'] at heq
      cases heq
      rintro (hun | ⟨hf, -⟩)
      · exact hl'.base_ne (hun.block_base.trans s.block.countbrefs_base.symm)
      · cases hf

section
local instance sixteenBlocks : NeZero 16 := ⟨by decide⟩

end

end Collapse

end Hammer2
