import Hammer2.Lib.Laminar
import Mathlib.Data.List.ReduceOption
import Mathlib.Tactic.Linarith

/-!
# Chains under an inode, and the merged search of one node

A chain holds its children twice: in a blockref array, which may be sparse, and in the `rbtree` of
the chains in memory. `hammer2_base_find` searches the array, `hammer2_chain_find` the `rbtree`, and
`hammer2_combined_find` takes the nearer of the two; each also lowers `*key_nextp`, the key at which
the caller goes on. Keys are 64 bits wide, so the key past the last one is 0.

An array entry is given here by the chain that `hammer2_chain_get` makes of it. `ChainTree` carries
the representation invariant: ranges within a node are disjoint and sorted, a chain in memory
shadows the array entry with its range, and an indirect block encloses its children.

Reference: `hammer2_chain.c:1887-1971`, `hammer2_chain.c:4938-5090`.
-/

namespace Hammer2

/-- The chains of one inode (or volume) and what the searches read of them. `indirect` says that
`bref.type` is INDIRECT or FREEMAP_NODE; an entry `none` of `base` is EMPTY. -/
structure Topology (ι : Type*) where
  root : ι
  key : ι → Nat
  keybits : ι → Nat
  indirect : ι → Bool
  deleted : ι → Bool
  parent : ι → ι
  base : ι → List (Option ι)
  rbtree : ι → List ι
  cacheIndex : ι → Nat

/-- The number of keys of `hammer2_key_t`. -/
def keySpace : Nat := 2 ^ 64

namespace Topology
variable {ι : Type*} (T : Topology ι)

/-- The last key of a chain's range. -/
def last (c : ι) : Nat := T.key c + 2 ^ T.keybits c - 1

/-- The key past a chain's range, `key + (1 << keybits)`. -/
def keyEnd (c : ι) : Nat := (T.key c + 2 ^ T.keybits c) % keySpace

/-- `c` is a child of `p` in the merged view. -/
def Child (p c : ι) : Prop :=
  c ∈ T.rbtree p ∨ some c ∈ T.base p ∧ ∀ d ∈ T.rbtree p, T.key d ≠ T.key c

instance [DecidableEq ι] (p c : ι) : Decidable (T.Child p c) := inferInstanceAs (Decidable (_ ∨ _))

/-- `p` is a chain that lookups descend into. -/
def Node (p : ι) : Prop := p = T.root ∨ T.indirect p = true

end Topology

/-- A topology that meets the representation invariant. -/
structure ChainTree (ι : Type*) extends Topology ι where
  root_indirect : indirect root = false
  root_top : ∀ p, ¬ toTopology.Child p root
  base_fits : ∀ p a, some a ∈ base p → key a + 2 ^ keybits a ≤ keySpace ∧ keybits a < 64
  rbtree_fits : ∀ p c, c ∈ rbtree p → key c + 2 ^ keybits c ≤ keySpace ∧ keybits c < 64
  base_sorted : ∀ p, (base p).reduceOption.Pairwise fun a b => toTopology.last a < key b
  rbtree_sorted : ∀ p, (rbtree p).Pairwise fun a b => toTopology.last a < key b
  /-- A chain in memory has the range of an array entry, or it is disjoint from it. -/
  shadow : ∀ p a c, some a ∈ base p → c ∈ rbtree p →
    key a = key c ∧ keybits a = keybits c ∨ toTopology.last a < key c ∨ toTopology.last c < key a
  /-- A chain that `hammer2_chain_get` has just made of its blockref is not deleted. -/
  base_live : ∀ p a, some a ∈ base p → (∀ d ∈ rbtree p, key d ≠ key a) → deleted a = false
  parent_eq : ∀ p c, toTopology.Child p c → parent c = p
  inside : ∀ p c, indirect p = true → toTopology.Child p c →
    key p ≤ key c ∧ toTopology.last c ≤ toTopology.last p ∧ keybits c < keybits p

/-! ## The searches -/

/-- `if (x && (*key_nextp > x || *key_nextp == 0)) *key_nextp = x`. -/
def truncateEnd (keyNext x : Nat) : Nat :=
  if x ≠ 0 ∧ (x < keyNext ∨ keyNext = 0) then x else keyNext

/-- `if (key_next > x || key_next == 0) key_next = x`. -/
def truncateKey (keyNext x : Nat) : Nat := if x < keyNext ∨ keyNext = 0 then x else keyNext

namespace Topology
variable {ι : Type*} (T : Topology ι)

/-- `core.live_zero` as `hammer2_chain_countbrefs` sets it: the index past the last entry in use. -/
def liveZero : List (Option ι) → Nat
  | [] => 0
  | x :: xs => if 0 < liveZero xs then liveZero xs + 1 else if x.isSome then 1 else 0

/-- The backward search of `hammer2_base_find` from index `i`. -/
def searchBackwards (arr : List (Option ι)) (keyBeg : Nat) : Nat → Nat
  | 0 => 0
  | i + 1 =>
    match arr.getD (i + 1) none with
    | none => searchBackwards arr keyBeg i
    | some a => if keyBeg < T.key a then searchBackwards arr keyBeg i else i + 1

/-- The forward search of `hammer2_base_find`, at index `i` with the entries from there on. -/
def searchForwards (limit keyBeg : Nat) : Nat → List (Option ι) → Option ι
  | _, [] => none
  | i, none :: xs => if limit ≤ i then none else searchForwards limit keyBeg (i + 1) xs
  | i, some a :: xs =>
    if limit ≤ i then none
    else if keyBeg < T.key a ∨ keyBeg ≤ T.last a then some a
    else searchForwards limit keyBeg (i + 1) xs

/-- `hammer2_base_find`: the entry found and the new `*key_nextp`. -/
def baseFind (p : ι) (keyNext keyBeg : Nat) : Option ι × Nat :=
  let arr := T.base p
  let limit := liveZero arr
  let i := T.searchBackwards arr keyBeg (min (T.cacheIndex p) (limit - 1))
  match T.searchForwards limit keyBeg i (arr.drop i) with
  | none => (none, keyNext)
  | some a => (some a, truncateEnd keyNext (T.keyEnd a))

/-- `hammer2_chain_find_cmp` is 0. -/
def findCmp (keyBeg keyEnd : Nat) (c : ι) : Bool := keyBeg ≤ T.last c ∧ T.key c ≤ keyEnd

/-- `hammer2_chain_find_callback`; the two assertions against overlaps are compiled out. -/
def findCallback (keyBeg : Nat) (info : Option ι × Nat) (c : ι) : Option ι × Nat :=
  let info' := match info.1 with
    | none => (some c, info.2)
    | some best =>
      if T.key best ≤ keyBeg ∧ T.key c ≤ keyBeg then info
      else if T.key c < T.key best then (some c, truncateKey info.2 (T.key best))
      else if T.key c = T.key best then info
      else (some best, truncateKey info.2 (T.key c))
  (info'.1, truncateEnd info'.2 (T.keyEnd c))

/-- `hammer2_chain_find`. -/
def chainFind (p : ι) (keyNext keyBeg keyEnd : Nat) : Option ι × Nat :=
  ((T.rbtree p).filter (T.findCmp keyBeg keyEnd)).foldl (T.findCallback keyBeg) (none, keyNext)

/-- The choice of `hammer2_combined_find` between the array entry and the chain in memory. -/
def nearer (keyBeg : Nat) : Option ι → Option ι → Option ι
  | none, c => c
  | some a, none => some a
  | some a, some c =>
    if T.key c ≤ keyBeg ∧ T.key a ≤ keyBeg ∨ T.key c = T.key a then some c
    else if T.key c < T.key a then some c
    else some a

/-- `hammer2_combined_find`: the child found and `*key_nextp`. -/
def combinedFind (p : ι) (keyBeg keyEnd : Nat) : Option ι × Nat :=
  let b := T.baseFind p ((keyEnd + 1) % keySpace) keyBeg
  let c := T.chainFind p b.2 keyBeg keyEnd
  ((T.nearer keyBeg b.1 c.1).filter fun x => T.key x ≤ keyEnd, c.2)

end Topology

end Hammer2
