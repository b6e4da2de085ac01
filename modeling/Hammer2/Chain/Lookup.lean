import Hammer2.Chain.Find

/-!
# Lookup and iteration

`hammer2_chain_lookup` moves `*parentp` up until it encloses the key range, then walks: it descends
into an indirect block, skips a deleted chain, returns any other, and leaves an exhausted indirect
block for its parent. `hammer2_chain_next` looks up again behind the chain returned before.

The loop is `lookupStep` repeated. `ChainTree.tree` is the tree of live chains with their key
ranges, and `ChainTree.At` says where a walk stands in it.

Reference: `hammer2_chain.c:2335-2694`.
-/

namespace Hammer2

/-- What one round of the loop in `hammer2_chain_lookup` does. -/
inductive LookupStep (ι : Type*) where
  | found (c : ι)
  | null
  | again (parent : ι) (keyBeg : Nat)

namespace Topology
variable {ι : Type*} (T : Topology ι)

/-- The loop from `again:` on. The return at `key_beg == key_end` is the source's short cut for a
single key. -/
def lookupStep (keyEnd : Nat) (p : ι) (keyBeg : Nat) : LookupStep ι :=
  match T.combinedFind p keyBeg keyEnd with
  | (none, _) =>
    if keyBeg = keyEnd then .null
    else if T.indirect p = false then .null
    else if T.keyEnd p = 0 ∨ keyEnd < T.keyEnd p then .null
    else .again (T.parent p) (T.keyEnd p)
  | (some c, keyNext) =>
    if T.deleted c then
      if keyNext = 0 ∨ keyEnd < keyNext then .null else .again p keyNext
    else if T.indirect c then .again c keyBeg
    else .found c

/-- At most `n` rounds of the loop: the new `*parentp` and the chain found, or `none` when the
rounds run out, which the source reports as an error. -/
def lookupLoop (keyEnd : Nat) : Nat → ι → Nat → Option (ι × Option ι)
  | 0, _, _ => none
  | n + 1, p, keyBeg =>
    match T.lookupStep keyEnd p keyBeg with
    | .found c => some (p, some c)
    | .null => some (p, none)
    | .again p' keyBeg' => lookupLoop keyEnd n p' keyBeg'

/-- The move of `*parentp` up to the first live chain that encloses the range, in at most `n`
steps. -/
def ascend (keyBeg keyEnd : Nat) : Nat → ι → ι
  | 0, p => p
  | n + 1, p =>
    if T.indirect p ∧ ¬ (T.deleted p = false ∧ T.key p ≤ keyBeg ∧ keyEnd ≤ T.last p) then
      ascend keyBeg keyEnd n (T.parent p)
    else p

/-- `hammer2_chain_lookup`; the source has `maxloops = 300000`. Indirect blocks narrow strictly, so
64 steps up reach the inode. -/
def chainLookup (maxloops : Nat) (p : ι) (keyBeg keyEnd : Nat) : Option (ι × Option ι) :=
  T.lookupLoop keyEnd (maxloops - 1) (T.ascend keyBeg keyEnd 64 p) keyBeg

variable [DecidableEq ι]

/-- `hammer2_chain_next` behind `chain`. -/
def chainNext (maxloops : Nat) (p chain : ι) (keyEnd : Nat) : Option (ι × Option ι) :=
  if chain = p ∨ T.keyEnd chain = 0 ∨ keyEnd < T.keyEnd chain then some (p, none)
  else T.chainLookup maxloops p (T.keyEnd chain) keyEnd

/-- The caller's loop: at most `n` calls of `hammer2_chain_next`. -/
def collect (maxloops keyEnd : Nat) : Nat → ι × Option ι → Option (List ι)
  | _, (_, none) => some []
  | 0, (_, some _) => none
  | n + 1, (p, some c) =>
    (T.chainNext maxloops p c keyEnd).bind fun r => (collect maxloops keyEnd n r).map (c :: ·)

/-- `hammer2_chain_lookup` and then `hammer2_chain_next` until it returns `NULL`. -/
def iterate (maxloops n : Nat) (p : ι) (keyBeg keyEnd : Nat) : Option (List ι) :=
  (T.chainLookup maxloops p keyBeg keyEnd).bind (T.collect maxloops keyEnd n)

end Topology

/-! ## The tree of live chains -/

namespace ChainTree
variable {ι : Type*} (T : ChainTree ι) {x y p c e : ι} {keyBeg keyEnd : Nat}

theorem ne_root_of_child (h : T.Child p c) : c ≠ T.root := fun he => T.root_top p (he ▸ h)

theorem ne_root_of_indirect (h : T.indirect x = true) : x ≠ T.root := by
  rintro rfl
  rw [T.root_indirect] at h
  cases h

variable [DecidableEq ι]

/-- The first key a chain covers; the inode at the root covers every key. -/
def lo (x : ι) : Nat := if x = T.root then 0 else T.key x

/-- The last key a chain covers. -/
def hi (x : ι) : Nat := if x = T.root then keySpace - 1 else T.last x

theorem lo_eq (hr : x ≠ T.root) : T.lo x = T.key x := if_neg hr

theorem hi_eq (hr : x ≠ T.root) : T.hi x = T.last x := if_neg hr

theorem hi_root : T.hi T.root = keySpace - 1 := if_pos rfl

/-- A child lies inside its node. -/
theorem child_inside (hn : T.Node p) (hc : T.Child p c) :
    T.lo p ≤ T.key c ∧ T.last c ≤ T.hi p := by
  by_cases hr : p = T.root
  · have := (T.child_fits hc).1
    rw [lo, hi, if_pos hr, if_pos hr, Topology.last]
    omega
  · obtain ⟨h1, h2, -⟩ := T.inside p c (hn.resolve_left hr) hc
    rw [T.lo_eq hr, T.hi_eq hr]
    exact ⟨h1, h2⟩

/-- The live chains with the keys they cover. -/
def tree : IntervalTree ι where
  child p c := T.Node p ∧ T.Child p c ∧ T.deleted c = false
  lo := T.lo
  hi := T.hi
  lo_le_hi h := by
    have hr := T.ne_root_of_child h.2.1
    rw [T.lo_eq hr, T.hi_eq hr]
    exact T.key_le_last _
  inside h := by
    have hr := T.ne_root_of_child h.2.1
    rw [T.lo_eq hr, T.hi_eq hr]
    exact T.child_inside h.1 h.2.1
  disjoint hc hd := by
    have hrc := T.ne_root_of_child hc.2.1
    have hrd := T.ne_root_of_child hd.2.1
    rw [T.lo_eq hrc, T.hi_eq hrc, T.lo_eq hrd, T.hi_eq hrd]
    exact T.child_disjoint hc.2.1 hd.2.1

/-- `x` is the inode or a chain below it with no deleted chain on the way. -/
def Live (x : ι) : Prop := T.tree.Under T.root x

/-- `e` is a live element: a live chain that is neither the inode nor an indirect block. -/
def Elem (e : ι) : Prop := T.Live e ∧ ¬ T.Node e

/-- Where `*parentp` may start: the inode, or an indirect block, possibly deleted, of a live
parent. -/
def Start (p : ι) : Prop :=
  p = T.root ∨ T.indirect p = true ∧ ∃ w, T.Live w ∧ T.Node w ∧ T.Child w p

variable {T}

theorem Live.root : T.Live T.root := IntervalTree.Under.refl

theorem Live.child (hp : T.Live p) (hn : T.Node p) (hc : T.Child p c) (hd : T.deleted c = false) :
    T.Live c := IntervalTree.Under.tail hp ⟨hn, hc, hd⟩

/-- A live chain other than the inode is a child of a live node. -/
theorem Live.parent (hx : T.Live x) (hr : x ≠ T.root) :
    T.Live (T.parent x) ∧ T.Node (T.parent x) ∧ T.Child (T.parent x) x := by
  cases hx with
  | refl => exact absurd rfl hr
  | @tail w _ hw hc =>
    rw [T.parent_eq w x hc.2.1]
    exact ⟨hw, hc.1, hc.2.1⟩

theorem Live.fits (hx : T.Live x) (hr : x ≠ T.root) :
    T.key x + 2 ^ T.keybits x ≤ keySpace ∧ T.keybits x < 64 := T.child_fits (hx.parent hr).2.2

theorem Elem.ne_root (he : T.Elem e) : e ≠ T.root := fun h => he.2 (Or.inl h)

/-- Nothing is below an element. -/
theorem eq_of_under (he : ¬ T.Node e) (h : T.tree.Under e y) : e = y :=
  h.child.resolve_right fun ⟨_, hc, _⟩ => he hc.1

/-- The live elements are the same after `hammer2_chain_get` has loaded a chain. -/
theorem elem_load {a : ι} (ha : some a ∈ T.base p) (hs : ∀ d ∈ T.rbtree p, T.key d ≠ T.key a) :
    (T.load ha hs).Elem e ↔ T.Elem e := by
  have hchild : (T.load ha hs).tree.child = T.tree.child := by
    funext q c
    exact propext (and_congr_right fun _ => and_congr_left fun _ => T.loaded_child ha hs q)
  rw [Elem, Elem, Live, Live, IntervalTree.Under, IntervalTree.Under, hchild]
  rfl

/-- Loads of array entries that have no chain in memory yet, one after the other. -/
inductive Loads : ChainTree ι → ChainTree ι → Prop
  | refl (T : ChainTree ι) : Loads T T
  | load {T T' : ChainTree ι} {p a : ι} (ha : some a ∈ T.base p)
      (hs : ∀ d ∈ T.rbtree p, T.key d ≠ T.key a) : Loads (T.load ha hs) T' → Loads T T'

/-- **Lookups change no elements**, whichever chains they load and in whatever order. -/
theorem Loads.elem_iff {T' : ChainTree ι} (h : Loads T T') : T'.Elem e ↔ T.Elem e := by
  induction h with
  | refl T => rfl
  | load ha hs _ ih => exact ih.trans (elem_load ha hs)

end ChainTree

end Hammer2
