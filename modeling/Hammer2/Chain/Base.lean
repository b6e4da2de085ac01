import Hammer2.Disk
import Hammer2.Chain.Find

/-!
# Insertion into and deletion from a block table

A block table is an array of blockrefs, sorted by key, with empty slots anywhere.
`hammer2_base_insert` shifts a run of entries toward the nearest empty slot on either side of the
place of the new element; `hammer2_base_delete` clears the slot of its element. Both add the element
to, or take it from, the statistics of the parent's blockref and keep `core.live_zero`, the index
past the last slot in use, by which `hammer2_base_find` bounds its search. `core.live_count` is not
theirs: it is adjusted when the chain of the element is created or deleted.

An empty slot is `none` here, so that an entry is a blockref in use whose range lies within the key
space. `hpanic` returns to its caller, so each function gives the table as it then stands and
whether `hpanic` was called.

Reference: `hammer2_chain.c:1298-1324`, `hammer2_chain.c:4936-5009`, `hammer2_chain.c:5099-5353`.
-/

namespace Hammer2

/-! ## The table and its parent -/

/-- `bref.embed.stats`. -/
@[ext] structure BlockStats where
  dataCount : BitVec 64
  inodeCount : BitVec 64
  deriving DecidableEq

instance : Add BlockStats where
  add s t := ⟨s.dataCount + t.dataCount, s.inodeCount + t.inodeCount⟩

instance : Sub BlockStats where
  sub s t := ⟨s.dataCount - t.dataCount, s.inodeCount - t.inodeCount⟩

@[simp] theorem BlockStats.add_dataCount (s t : BlockStats) :
    (s + t).dataCount = s.dataCount + t.dataCount := rfl

@[simp] theorem BlockStats.add_inodeCount (s t : BlockStats) :
    (s + t).inodeCount = s.inodeCount + t.inodeCount := rfl

@[simp] theorem BlockStats.sub_dataCount (s t : BlockStats) :
    (s - t).dataCount = s.dataCount - t.dataCount := rfl

@[simp] theorem BlockStats.sub_inodeCount (s t : BlockStats) :
    (s - t).inodeCount = s.inodeCount - t.inodeCount := rfl

/-- A blockref in use. `radix` is `data_off & HAMMER2_OFF_MASK_RADIX`; `rest` is all that the table
functions only copy. -/
structure TableRef (δ : Type*) where
  type : BrefType
  key : Nat
  keybits : Nat
  radix : Nat
  stats : BlockStats
  leafCount : Nat
  rest : δ
  used : type ≠ .empty
  shift : keybits < 64
  fits : key + 2 ^ keybits ≤ keySpace
  deriving DecidableEq

/-- `HAMMER2_BLOCKREF_LEAF_MAX`. -/
def blockrefLeafMax : Nat := 65535

/-- What the table functions read and write of a parent: its table, `cache_index`, `core.live_zero`,
`core.live_count`, and the statistics and `leaf_count` of its blockref. -/
structure BaseParent (δ : Type*) where
  base : List (Option (TableRef δ))
  cacheIndex : Nat
  liveZero : Nat
  liveCount : Int
  stats : BlockStats
  leafCount : Nat

/-- The flags of the element's chain that the table functions set and clear. -/
structure BlockmapFlags where
  blkmapped : Bool
  blkmapupd : Bool
  hintLeafCount : Bool
  deriving DecidableEq

variable {δ : Type*}

namespace TableRef

/-- The last key of the range, `key + (1 << keybits) - 1`; it does not wrap, by `fits`. -/
def last (b : TableRef δ) : Nat := b.key + 2 ^ b.keybits - 1

theorem key_le_last (b : TableRef δ) : b.key ≤ b.last := by
  have := Nat.two_pow_pos b.keybits
  unfold last
  omega

/-- The bytes of the block; a radix of 0 means no block. -/
def bytes (b : TableRef δ) : BitVec 64 := if b.radix = 0 then 0 else 1#64 <<< b.radix

/-- What an element counts for in the statistics of its parent: the bytes of its block, and for an
inode or an indirect block also what is counted below it; an inode is itself one inode. -/
def counted (b : TableRef δ) : BlockStats :=
  match b.type with
  | .inode => ⟨b.bytes, 1⟩ + b.stats
  | .indirect => ⟨b.bytes, 0⟩ + b.stats
  | _ => ⟨b.bytes, 0⟩

end TableRef

namespace BaseParent

/-- `hammer2_chain_countbrefs` of a table that is there. -/
def countbrefs (p : BaseParent δ) : BaseParent δ :=
  { p with
    liveZero := Topology.liveZero p.base
    liveCount := p.liveCount + p.base.reduceOption.length }

/-! ## `hammer2_base_find` -/

/-- The backward search from slot `i`. -/
def searchBackwards (base : List (Option (TableRef δ))) (keyBeg : Nat) : Nat → Nat
  | 0 => 0
  | i + 1 =>
    match base.getD (i + 1) none with
    | none => searchBackwards base keyBeg i
    | some b => if keyBeg < b.key then searchBackwards base keyBeg i else i + 1

/-- The forward search over the slots from `i` on: the slot at which the loop breaks, if it does. -/
def searchForwards (limit keyBeg : Nat) : Nat → List (Option (TableRef δ)) → Option Nat
  | _, [] => none
  | i, x :: xs =>
    if x.any fun b => keyBeg < b.key ∨ keyBeg ≤ b.last then some i
    else if limit ≤ i then none
    else searchForwards limit keyBeg (i + 1) xs

/-- `hammer2_base_find`: the slot found, or the number of slots, and the new `cache_index`. -/
def baseFind (p : BaseParent δ) (keyBeg : Nat) : Nat × Nat :=
  if p.base.length = 0 then (0, p.cacheIndex)
  else
    let j := searchBackwards p.base keyBeg (min p.cacheIndex (p.liveZero - 1))
    match searchForwards p.liveZero keyBeg j (p.base.drop j) with
    | none => (p.base.length, j)
    | some i => if p.liveZero ≤ i then (p.base.length, i) else (i, i)

/-! ## `hammer2_base_insert` -/

/-- The statistics after an element is added. -/
def addStats (s : BlockStats) (elm : TableRef δ) : BlockStats :=
  let s := { s with dataCount := s.dataCount + elm.bytes }
  match elm.type with
  | .inode =>
    ⟨s.dataCount + elm.stats.dataCount, s.inodeCount + 1 + elm.stats.inodeCount⟩
  | .indirect => ⟨s.dataCount + elm.stats.dataCount, s.inodeCount + elm.stats.inodeCount⟩
  | _ => s

/-- One more leaf, up to the maximum. -/
def leafIncr (n : Nat) : Nat := if n = blockrefLeafMax then n else n + 1

/-- The leaves of `elm` more, up to the maximum. -/
def leafAdd (n : Nat) (elm : TableRef δ) : Nat :=
  if n + elm.leafCount < blockrefLeafMax then n + elm.leafCount else blockrefLeafMax

/-- `leaf_count` after an element is added. A data block runs through the case of an indirect block
too. -/
def addLeaf (n : Nat) (elm : TableRef δ) : Nat :=
  match elm.type with
  | .inode | .dirent => leafIncr n
  | .data => leafAdd (leafIncr n) elm
  | .indirect => leafAdd n elm
  | _ => n

/-- An empty slot before or after the place of insertion. -/
inductive Gap where
  | before (j : Nat)
  | after (k : Nat)

/-- The search for an empty slot around `i`: in turn `d` the loop has `j = i - d` and `k = i + d`,
and it goes on while `j` was above 0 or `k` within the table. -/
def gapSearch (base : List (Option (TableRef δ))) (i : Nat) : Nat → Nat → Option Gap
  | 0, _ => none
  | fuel + 1, d =>
    if d ≤ i ∨ i + d ≤ base.length then
      if d ≤ i ∧ (base.getD (i - d) none).isNone then some (.before (i - d))
      else if i + d < base.length ∧ (base.getD (i + d) none).isNone then some (.after (i + d))
      else gapSearch base i fuel (d + 1)
    else none

/-- The check of the table after an insertion: the entries behind one that ends at `keyNext`. -/
def validateFrom (keyNext : Nat) : List (Option (TableRef δ)) → Bool
  | [] => true
  | none :: xs => validateFrom keyNext xs
  | some b :: xs => if b.key ≤ keyNext then false else validateFrom b.last xs

/-- The check of the table after an insertion. -/
def validate : List (Option (TableRef δ)) → Bool
  | [] => true
  | none :: xs => validate xs
  | some b :: xs => validateFrom b.last xs

/-- The table once the gap is found: `memmove` of the entries between it and the place of
insertion. -/
def fill (p : BaseParent δ) (i : Nat) (elm : TableRef δ) : Gap → BaseParent δ
  | .before j =>
    { p with
      base := p.base.take j ++ ((p.base.drop (j + 1)).take (i - j - 1) ++ some
        elm :: p.base.drop i) }
  | .after k =>
    { p with
      base := p.base.take i ++ some elm :: ((p.base.drop i).take (k - i) ++ p.base.drop (k + 1))
      liveZero := if p.liveZero ≤ k then k + 1 else p.liveZero }

/-- `hammer2_base_insert`: the parent afterwards, and whether `hpanic` was called. -/
def baseInsert (p : BaseParent δ) (elm : TableRef δ) : BaseParent δ × Bool :=
  let (i, cacheIndex) := p.baseFind elm.key
  let q : BaseParent δ :=
    { p with
      cacheIndex := cacheIndex
      stats := addStats p.stats elm
      leafCount := addLeaf p.leafCount elm }
  if i = q.base.length ∧ q.liveZero < q.base.length then
    ({ q with base := q.base.set q.liveZero (some elm), liveZero := q.liveZero + 1 }, false)
  else if (q.base.getD i none).any fun b => b.key < elm.key ∨ b.key ≤ elm.last then (q, true)
  else
    match gapSearch q.base i (q.base.length + 1) 1 with
    | none => (q, true)
    | some gap => (q.fill i elm gap, !validate (q.fill i elm gap).base)

/-! ## `hammer2_base_delete` -/

/-- The statistics after an entry is taken out. -/
def subStats (s : BlockStats) (scan : TableRef δ) : BlockStats :=
  let s := { s with dataCount := s.dataCount - scan.bytes }
  match scan.type with
  | .inode =>
    ⟨s.dataCount - scan.stats.dataCount, s.inodeCount - 1 - scan.stats.inodeCount⟩
  | .indirect => ⟨s.dataCount - scan.stats.dataCount, s.inodeCount - scan.stats.inodeCount⟩
  | _ => s

/-- `leaf_count` less `m`, unless it stands at the maximum, which is a hint for the chain. -/
def leafSub (s : Nat × BlockmapFlags) (m : Nat) : Nat × BlockmapFlags :=
  if s.1 = blockrefLeafMax then (s.1, { s.2 with hintLeafCount := true }) else (s.1 - m, s.2)

/-- `leaf_count` and the chain's flags after an entry is taken out. -/
def subLeaf (s : Nat × BlockmapFlags) (scan : TableRef δ) : Nat × BlockmapFlags :=
  match scan.type with
  | .inode | .dirent => leafSub s 1
  | .data => leafSub (leafSub s 1) scan.leafCount
  | .indirect => leafSub s scan.leafCount
  | _ => s

/-- The walk back over empty slots: the index past the last slot in use below `i`. -/
def walkBack (base : List (Option (TableRef δ))) : Nat → Nat
  | 0 => 0
  | i + 1 => if (base.getD i none).isNone then walkBack base i else i + 1

/-- `hammer2_base_delete` of the element with this key and `keybits`: the parent and the chain's
flags afterwards, and the entry taken out (`*obref`); `none` if `hpanic` was called. -/
def baseDelete (p : BaseParent δ) (key keybits : Nat) (flags : BlockmapFlags) :
    BaseParent δ × BlockmapFlags × Option (TableRef δ) :=
  let (i, cacheIndex) := p.baseFind key
  let p := { p with cacheIndex := cacheIndex }
  match p.base.getD i none with
  | none => (p, flags, none)
  | some scan =>
    if scan.key ≠ key ∨ flags.blkmapupd = false ∧ scan.keybits ≠ keybits then (p, flags, none)
    else
      let (leafCount, flags) := subLeaf (p.leafCount, flags) scan
      let base := p.base.set i none
      ({ p with
          base := base
          stats := subStats p.stats scan
          leafCount := leafCount
          liveZero := if p.liveZero = i + 1 then walkBack base i else p.liveZero },
        { flags with blkmapped := false, blkmapupd := false }, some scan)

end BaseParent

/-! ## The index past the last slot in use -/

namespace Topology
variable {ι : Type*} {xs ys : List (Option ι)}

theorem liveZero_le_length (xs : List (Option ι)) : liveZero xs ≤ xs.length := by
  induction xs with
  | nil => exact Nat.le_refl 0
  | cons x xs ih => grind [liveZero]

/-- The bound is zero for an empty table. -/
theorem liveZero_eq_zero_iff : liveZero xs = 0 ↔ xs.reduceOption = [] := by
  refine ⟨reduceOption_eq_nil_of_liveZero, fun h => ?_⟩
  induction xs with
  | nil => rfl
  | cons x xs ih =>
    cases x with
    | none => simp [liveZero, ih h]
    | some a => simp at h

/-- The bound of two tables in a row. -/
theorem liveZero_append (xs ys : List (Option ι)) :
    liveZero (xs ++ ys) = if 0 < liveZero ys then xs.length + liveZero ys else liveZero xs := by
  induction xs with
  | nil => grind [liveZero]
  | cons x xs ih => grind [liveZero]

theorem liveZero_append_of_used (h : 0 < liveZero ys) :
    liveZero (xs ++ ys) = xs.length + liveZero ys := by
  rw [liveZero_append, if_pos h]

theorem liveZero_cons_some (a : ι) (xs : List (Option ι)) :
    liveZero (some a :: xs) = liveZero xs + 1 := by
  grind [liveZero]

/-- A list of used slots is used up to its end. -/
theorem liveZero_of_full (h : ∀ x ∈ xs, x.isSome) : liveZero xs = xs.length := by
  induction xs with
  | nil => rfl
  | cons x xs ih =>
    obtain ⟨a, rfl⟩ := Option.isSome_iff_exists.1 (h x List.mem_cons_self)
    rw [liveZero_cons_some, ih fun y hy => h y (List.mem_cons_of_mem _ hy), List.length_cons]

/-- Slots in use lie below the bound. -/
theorem lt_liveZero {i : Nat} {a : ι} (h : xs[i]? = some (some a)) : i < liveZero xs := by
  obtain ⟨hi, hx⟩ := List.getElem?_eq_some_iff.1 h
  have happ : xs = xs.take i ++ some a :: xs.drop (i + 1) := by
    rw [← hx, ← List.drop_eq_getElem_cons hi, List.take_append_drop]
  rw [happ, liveZero_append, liveZero_cons_some, if_pos (Nat.succ_pos _), List.length_take]
  omega

/-- The slots from `live_zero` on are empty. -/
theorem drop_liveZero (xs : List (Option ι)) : (xs.drop (liveZero xs)).reduceOption = [] := by
  refine reduceOption_eq_nil_of_liveZero (Nat.le_zero.1 ?_)
  simpa using liveZero_drop (liveZero xs) xs

end Topology

namespace BaseParent

/-! ## The search -/

/-- What `hammer2_base_find` needs of a table, and what insertion and deletion keep: the entries are
sorted, their ranges disjoint, and `live_zero` is the index past the last slot in use. -/
structure Kept (p : BaseParent δ) : Prop where
  sorted : p.base.reduceOption.Pairwise fun a b => a.last < b.key
  zero : p.liveZero = Topology.liveZero p.base

/-- `i` is the place of `key` in a table: everything before it ends before the key, and it is the
end of the table or a slot in use that does not. -/
structure Place (base : List (Option (TableRef δ))) (key i : Nat) : Prop where
  before : ∀ a ∈ (base.take i).reduceOption, a.last < key
  here : i = base.length ∨ ∃ b, base[i]? = some (some b) ∧ key ≤ b.last

variable {base xs new : List (Option (TableRef δ))} {key i j keybits : Nat} {p : BaseParent δ}
  {elm b : TableRef δ} {flags : BlockmapFlags}

/-- All entries before the end of the search backwards end before the key. -/
theorem searchBackwards_before (hs : base.reduceOption.Pairwise fun a b => a.last < b.key)
    (i : Nat) :
    ∀ a ∈ (base.take (searchBackwards base key i)).reduceOption, a.last < key := by
  induction i with
  | zero => simp [searchBackwards]
  | succ i ih =>
    unfold searchBackwards
    split
    · exact ih
    · rename_i b hb
      split
      · exact ih
      · rename_i hkey
        intro a ha
        -- `b` stands right behind the entries in question.
        have := Topology.rel_of_before hs hb ha
        omega

/-- A linear scan of a table from its first slot: the first slot in use that ends at or past the
key, or the number of slots. -/
def linearFind (base : List (Option (TableRef δ))) (key : Nat) : Nat :=
  base.findIdx fun x => x.any fun b => key ≤ b.last

/-- The linear scan finds the place of a key. -/
theorem place_linearFind (base : List (Option (TableRef δ))) (key : Nat) :
    Place base key (linearFind base key) where
  before a ha := by
    obtain ⟨i, hi, hget⟩ := List.getElem_of_mem (List.reduceOption_mem_iff.1 ha)
    rw [List.length_take] at hi
    rw [List.getElem_take] at hget
    have hnot := List.not_of_lt_findIdx (lt_of_lt_of_le hi (Nat.min_le_left _ _))
    simpa [hget] using hnot
  here := by
    rcases List.findIdx_le_length.lt_or_eq with hlt | heq
    · right
      have hfound := List.findIdx_getElem (w := hlt)
      obtain ⟨b, hb, hle⟩ := (Option.any_eq_true _ _).1 hfound
      exact ⟨b, by rw [linearFind, List.getElem?_eq_getElem hlt, hb], by simpa using hle⟩
    · exact .inl heq

/-- The forward search scans the slots from `i` on; past `live_zero` there is nothing to find. -/
theorem searchForwards_eq {limit : Nat} (h : Topology.liveZero xs ≤ limit - i) :
    searchForwards limit key i xs =
      (xs.findIdx? fun x => x.any fun b => key ≤ b.last).map (i + ·) := by
  induction xs generalizing i with
  | nil => rfl
  | cons x xs ih =>
    have hreach : (x.any fun b => key < b.key ∨ key ≤ b.last) = x.any fun b => key ≤ b.last := by
      cases x with
      | none => rfl
      | some b =>
        have := b.key_le_last
        grind
    rw [searchForwards, List.findIdx?_cons, hreach]
    split
    · simp
    · split
      · rename_i hle
        have hnil : (x :: xs).reduceOption = [] :=
          Topology.reduceOption_eq_nil_of_liveZero (by omega)
        rw [List.findIdx?_eq_none_iff.2 fun y hy => ?_]
        · rfl
        · cases y with
          | none => rfl
          | some b =>
            have hb := List.reduceOption_mem_iff.2 (List.mem_cons_of_mem x hy)
            rw [hnil] at hb
            exact absurd hb List.not_mem_nil
      · rw [ih (by grind [Topology.liveZero])]
        cases xs.findIdx? fun x => x.any fun b => key ≤ b.last with
        | none => rfl
        | some n => simp only [Option.map_some, Option.some.injEq]; omega

/-- **`hammer2_base_find` is a linear scan**, whatever `cache_index` is and wherever `live_zero` is
past the last slot in use. -/
theorem baseFind_eq_linearFind (hs : p.base.reduceOption.Pairwise fun a b => a.last < b.key)
    (hz : Topology.liveZero p.base ≤ p.liveZero) (key : Nat) :
    (p.baseFind key).1 = linearFind p.base key := by
  unfold baseFind
  split
  · rename_i hlen
    rw [List.length_eq_zero_iff] at hlen
    simp [linearFind, hlen]
  · have hback := @searchBackwards_before _ _ key hs (min p.cacheIndex (p.liveZero - 1))
    simp only
    generalize searchBackwards p.base key (min p.cacheIndex (p.liveZero - 1)) = j at hback ⊢
    -- The slots before `j` are none that the scan stops at.
    have hskip : p.base.findIdx? (fun x => x.any fun b => key ≤ b.last) =
        ((p.base.drop j).findIdx? fun x => x.any fun b => key ≤ b.last).map (j + ·) := by
      conv_lhs => rw [← List.take_append_drop j p.base, List.findIdx?_append]
      rw [List.findIdx?_eq_none_iff.2 fun x hx => ?_, Option.none_or]
      · rcases Nat.le_total j p.base.length with hj | hj
        · rw [List.length_take, Nat.min_eq_left hj]
          simp only [Nat.add_comm]
        · rw [List.drop_eq_nil_of_le hj]
          rfl
      · cases x with
        | none => rfl
        | some a => simpa using hback a (List.reduceOption_mem_iff.2 hx)
    rw [searchForwards_eq ((Topology.liveZero_drop j p.base).trans (Nat.sub_le_sub_right hz j)),
      ← hskip, linearFind, List.findIdx_eq_getD_findIdx?]
    cases hf : p.base.findIdx? fun x => x.any fun b => key ≤ b.last with
    | none => rfl
    | some i =>
      obtain ⟨hi, hx, -⟩ := List.findIdx?_eq_some_iff_getElem.1 hf
      obtain ⟨b, hb, -⟩ := (Option.any_eq_true _ _).1 hx
      have := Topology.lt_liveZero (List.getElem?_eq_some_iff.2 ⟨hi, hb⟩)
      simp only [Option.getD_some]
      rw [if_neg (by omega)]

/-- **`hammer2_base_find` finds the place of its key**, whatever `cache_index` is. -/
theorem Kept.baseFind (h : p.Kept) (key : Nat) :
    Place p.base key (p.baseFind key).1 := by
  rw [baseFind_eq_linearFind h.sorted h.zero.ge]
  exact place_linearFind p.base key

/-! ## The statistics -/

/-- What an insertion adds to the statistics is the element's own count. -/
theorem addStats_eq (s : BlockStats) (elm : TableRef δ) : addStats s elm = s + elm.counted := by
  unfold addStats TableRef.counted
  cases elm.type <;> ext1 <;> simp [BitVec.add_assoc]

/-- What a deletion takes from the statistics is the element's own count. -/
theorem subStats_eq (s : BlockStats) (scan : TableRef δ) : subStats s scan = s - scan.counted := by
  unfold subStats TableRef.counted
  cases scan.type <;> ext1 <;> simp [BitVec.sub_sub]

/-! ## Insertion -/

/-- The empty slots that the search may find: one on the way down, or the nearest on the way up. -/
def GapOk (base : List (Option (TableRef δ))) (i : Nat) : Gap → Prop
  | .before j => j < i ∧ base[j]? = some none
  | .after k => i < k ∧ base[k]? = some none ∧ ∀ x, i < x → x < k → base[x]? ≠ some none

theorem getElem?_of_getD_isNone (hj : j < base.length) (h : (base.getD j none).isNone) :
    base[j]? = some none := by
  rw [List.getD_eq_getElem _ _ hj, Option.isNone_iff_eq_none] at h
  rw [List.getElem?_eq_getElem hj, h]

/-- A turn of the search keeps that the slots up to its distance are in use, so with an empty slot
left it does not end without one. -/
theorem gapSearch_spec {x : Nat} (hi : i ≤ base.length) (hx : base[x]? = some none) (hne : x ≠ i)
    (fuel d : Nat) (hd : 0 < d) (hfuel : base.length + 1 < fuel + d)
    (hup : ∀ y, i < y → y < i + d → base[y]? ≠ some none)
    (hdown : ∀ y, i < y + d → y < i → base[y]? ≠ some none) :
    ∃ gap, gapSearch base i fuel d = some gap ∧ GapOk base i gap := by
  have hlen : x < base.length := (List.getElem?_eq_some_iff.1 hx).1
  induction fuel generalizing d with
  | zero =>
    exfalso
    rcases Nat.lt_or_gt_of_ne hne with h | h
    · exact hdown x (by omega) h hx
    · exact hup x h (by omega) hx
  | succ fuel ih =>
    have hgo : d ≤ i ∨ i + d ≤ base.length := by
      rcases Nat.lt_or_gt_of_ne hne with h | h
      · by_contra hc
        exact hdown x (by omega) h hx
      · by_contra hc
        exact hup x h (by omega) hx
    rw [gapSearch, if_pos hgo]
    split
    · rename_i hj
      exact ⟨_, rfl, by omega, getElem?_of_getD_isNone (by omega) hj.2⟩
    · rename_i hj
      split
      · rename_i hk
        exact ⟨_, rfl, by omega, getElem?_of_getD_isNone hk.1 hk.2, hup⟩
      · rename_i hk
        refine ih (d + 1) (Nat.succ_pos d) (by omega) (fun y hy hlt heq => ?_)
          (fun y hy hlt heq => ?_)
        · rcases Nat.lt_or_ge y (i + d) with h | h
          · exact hup y hy h heq
          · obtain rfl : y = i + d := by omega
            exact hk ⟨(List.getElem?_eq_some_iff.1 heq).1, by
              rw [List.getD_eq_getElem?_getD, heq]; rfl⟩
        · rcases Nat.lt_or_ge i (y + d) with h | h
          · exact hdown y h hlt heq
          · obtain rfl : y = i - d := by omega
            exact hj ⟨by omega, by rw [List.getD_eq_getElem?_getD, heq]; rfl⟩

/-- A sorted table passes the validation. -/
theorem validateFrom_of_sorted {keyNext : Nat}
    (hs : xs.reduceOption.Pairwise fun a b => a.last < b.key)
    (hk : ∀ a ∈ xs.reduceOption, keyNext < a.key) : validateFrom keyNext xs = true := by
  induction xs generalizing keyNext with
  | nil => rfl
  | cons x xs ih =>
    cases x with
    | none => exact ih hs hk
    | some b =>
      rw [List.reduceOption_cons_of_some] at hs hk
      rw [validateFrom, if_neg (Nat.not_le.2 (hk b List.mem_cons_self))]
      exact ih (List.pairwise_cons.1 hs).2 (List.pairwise_cons.1 hs).1

/-- The check after an insertion passes on a sorted table. -/
theorem validate_of_sorted (hs : xs.reduceOption.Pairwise fun a b => a.last < b.key) :
    validate xs = true := by
  induction xs with
  | nil => rfl
  | cons x xs ih =>
    cases x with
    | none => exact ih hs
    | some b =>
      rw [List.reduceOption_cons_of_some] at hs
      exact validateFrom_of_sorted (List.pairwise_cons.1 hs).2 (List.pairwise_cons.1 hs).1

/-- `elm` is disjoint from every entry. -/
def Disjoint (base : List (Option (TableRef δ))) (elm : TableRef δ) : Prop :=
  ∀ a ∈ base.reduceOption, elm.last < a.key ∨ a.last < elm.key

/-- At the place of an element that is disjoint from the others, everything behind starts after
it. -/
theorem Place.behind (h : Place base elm.key i)
    (hs : base.reduceOption.Pairwise fun a b => a.last < b.key) (hd : Disjoint base elm) :
    ∀ a ∈ (base.drop i).reduceOption, elm.last < a.key := by
  rcases h.here with rfl | ⟨b, hb, hkey⟩
  · simp
  · obtain ⟨hi, hbi⟩ := List.getElem?_eq_some_iff.1 hb
    have hbmem : b ∈ base.reduceOption :=
      List.reduceOption_mem_iff.2 (hbi ▸ List.getElem_mem hi)
    have helm : elm.last < b.key := (hd b hbmem).resolve_right (by omega)
    rw [List.drop_eq_getElem_cons hi, hbi, List.reduceOption_cons_of_some]
    rw [← List.take_append_drop i base, List.drop_eq_getElem_cons hi, hbi, List.reduceOption_append,
      List.reduceOption_cons_of_some, List.pairwise_append, List.pairwise_cons] at hs
    intro a ha
    rcases List.mem_cons.1 ha with rfl | ha
    · exact helm
    · have := hs.2.1.1 a ha
      have := b.key_le_last
      omega

/-- A table that holds the entries before a place, the element and the entries behind it is
sorted. -/
theorem Place.sorted_insert (h : Place base elm.key i)
    (hs : base.reduceOption.Pairwise fun a b => a.last < b.key) (hd : Disjoint base elm)
    (hnew : new.reduceOption = (base.take i).reduceOption ++ elm :: (base.drop i).reduceOption) :
    new.reduceOption.Pairwise fun a b => a.last < b.key := by
  have hbehind := h.behind hs hd
  have hkl := elm.key_le_last
  rw [← List.take_append_drop i base, List.reduceOption_append, List.pairwise_append] at hs
  rw [hnew, List.pairwise_append, List.pairwise_cons]
  refine ⟨hs.1, ⟨hbehind, hs.2.1⟩, fun a ha b hb => ?_⟩
  rcases List.mem_cons.1 hb with rfl | hb
  · exact h.before a ha
  · exact hs.2.2 a ha b hb

/-- The new table has the entries of the old one and the element. -/
theorem perm_insert
    (hnew : new.reduceOption = (base.take i).reduceOption ++ elm :: (base.drop i).reduceOption) :
    new.reduceOption.Perm (elm :: base.reduceOption) := by
  rw [hnew]
  refine List.perm_middle.trans (List.Perm.cons _ ?_)
  rw [← List.reduceOption_append, List.take_append_drop]

/-- The slots around an empty one. -/
theorem split_at_gap (h : xs[j]? = some none) :
    xs = xs.take j ++ none :: xs.drop (j + 1) := by
  obtain ⟨hj, hx⟩ := List.getElem?_eq_some_iff.1 h
  rw [← hx, ← List.drop_eq_getElem_cons hj, List.take_append_drop]

/-- What filling a gap does to the table at a place. -/
structure Filled (p : BaseParent δ) (i : Nat) (elm : TableRef δ) (q : BaseParent δ) : Prop where
  entries : q.base.reduceOption =
    (p.base.take i).reduceOption ++ elm :: (p.base.drop i).reduceOption
  length : q.base.length = p.base.length
  zero : q.liveZero = Topology.liveZero q.base

/-- Slots before the place move down into the gap. -/
theorem fill_before (hi : i ≤ p.base.length) (hzero : p.liveZero = Topology.liveZero p.base)
    (hend : i = p.base.length → p.liveZero = p.base.length)
    (hused : i < p.base.length → 0 < Topology.liveZero (p.base.drop i))
    (hgap : GapOk p.base i (.before j)) : Filled p i elm (p.fill i elm (.before j)) := by
  obtain ⟨hji, hj⟩ := hgap
  have hlen : j < p.base.length := by omega
  have hsplit := split_at_gap hj
  have htake : p.base.take i =
      p.base.take j ++ none :: (p.base.drop (j + 1)).take (i - j - 1) := by
    conv_lhs => rw [hsplit]
    rw [List.take_append, List.take_take, List.length_take, Nat.min_eq_left (Nat.le_of_lt hlen),
      Nat.min_eq_right (Nat.le_of_lt hji)]
    obtain ⟨m, hm⟩ : ∃ m, i - j = m + 1 := ⟨i - j - 1, by omega⟩
    rw [hm, List.take_succ_cons, Nat.add_sub_cancel]
  have hcount : ((p.base.take j) ++ ((p.base.drop (j + 1)).take (i - j - 1))).length + 1 = i := by
    simp only [List.length_append, List.length_take, List.length_drop]
    omega
  refine ⟨?_, ?_, ?_⟩
  · simp only [fill]
    rw [htake]
    simp only [List.reduceOption_append, List.reduceOption_cons_of_some,
      List.reduceOption_cons_of_none, List.append_assoc]
  · simp only [fill, List.length_append, List.length_cons, List.length_take, List.length_drop]
    omega
  · simp only [fill]
    rw [← List.append_assoc, Topology.liveZero_append_of_used (by
      rw [Topology.liveZero_cons_some]; exact Nat.succ_pos _), Topology.liveZero_cons_some]
    have hold : p.liveZero = i + Topology.liveZero (p.base.drop i) := by
      rcases Nat.lt_or_ge i p.base.length with hlt | hge
      · rw [hzero]
        conv_lhs => rw [← List.take_append_drop i p.base]
        rw [Topology.liveZero_append_of_used (hused hlt), List.length_take, Nat.min_eq_left hi]
      · rw [hend (by omega), List.drop_of_length_le hge, Topology.liveZero]
        omega
    omega

/-- Slots from the place on move up into the nearest gap behind. -/
theorem fill_after {k : Nat} (hzero : p.liveZero = Topology.liveZero p.base)
    (hb : p.base[i]? = some (some b)) (hgap : GapOk p.base i (.after k)) :
    Filled p i elm (p.fill i elm (.after k)) := by
  obtain ⟨hik, hk, hfull⟩ := hgap
  have hlen : k < p.base.length := (List.getElem?_eq_some_iff.1 hk).1
  have hdrop : p.base.drop i = (p.base.drop i).take (k - i) ++ none :: p.base.drop (k + 1) := by
    have hki : (p.base.drop i)[k - i]? = some none := by
      rw [List.getElem?_drop, Nat.add_sub_cancel' (Nat.le_of_lt hik), hk]
    have := split_at_gap hki
    rwa [List.drop_drop, show i + (k - i + 1) = k + 1 by omega] at this
  have hmid : ((p.base.drop i).take (k - i)).length = k - i := by
    simp only [List.length_take, List.length_drop]
    omega
  -- The slots that move are all in use, so they reach up to the gap.
  have hmidZero : Topology.liveZero ((p.base.drop i).take (k - i)) = k - i := by
    rw [Topology.liveZero_of_full, hmid]
    intro x hx
    obtain ⟨n, hn, rfl⟩ := List.mem_iff_getElem.1 hx
    rw [hmid] at hn
    rw [List.getElem_take, List.getElem_drop]
    rcases Nat.eq_zero_or_pos n with rfl | hpos
    · rw [List.getElem?_eq_some_iff] at hb
      simp [hb.2]
    · by_contra hnone
      refine hfull (i + n) (by omega) (by omega) ?_
      rw [List.getElem?_eq_getElem (by omega), Option.not_isSome_iff_eq_none.1 hnone]
  have hold : p.liveZero =
      if 0 < Topology.liveZero (p.base.drop (k + 1)) then
        k + 1 + Topology.liveZero (p.base.drop (k + 1)) else k := by
    rw [hzero]
    conv_lhs => rw [← List.take_append_drop i p.base, hdrop, ← List.append_assoc,
      Topology.liveZero_append]
    have htl : (p.base.take i ++ (p.base.drop i).take (k - i)).length = k := by
      rw [List.length_append, hmid, List.length_take]
      omega
    rw [htl, Topology.liveZero]
    split
    · rw [if_pos (Nat.succ_pos _)]
      omega
    · rw [Option.isSome_none, if_neg Bool.false_ne_true, if_neg (Nat.lt_irrefl 0),
        Topology.liveZero_append_of_used (by omega), hmidZero, List.length_take]
      omega
  refine ⟨?_, ?_, ?_⟩
  · have hred : (p.base.drop i).reduceOption =
        ((p.base.drop i).take (k - i) ++ p.base.drop (k + 1)).reduceOption := by
      conv_lhs => rw [hdrop]
      simp only [List.reduceOption_append, List.reduceOption_cons_of_none]
    simp only [fill]
    rw [hred, List.reduceOption_append, List.reduceOption_cons_of_some]
  · simp only [fill, List.length_append, List.length_cons, hmid, List.length_take, List.length_drop]
    omega
  · simp only [fill]
    rw [Topology.liveZero_append_of_used (by
      rw [Topology.liveZero_cons_some]; exact Nat.succ_pos _), Topology.liveZero_cons_some,
      Topology.liveZero_append, hmid, hmidZero, List.length_take, hold]
    split <;> split <;> omega

theorem Place.le_length (h : Place base key i) :
    i ≤ base.length := by
  rcases h.here with rfl | ⟨b, hb, -⟩
  · exact Nat.le_refl _
  · exact Nat.le_of_lt (List.getElem?_eq_some_iff.1 hb).1

/-- Behind the end of a table with room left at its end, the element goes to `live_zero`. -/
theorem filled_append (hzero : p.liveZero = Topology.liveZero p.base)
    (hroom : p.liveZero < p.base.length) :
    Filled p p.base.length elm
      { p with base := p.base.set p.liveZero (some elm), liveZero := p.liveZero + 1 } := by
  have htail : (p.base.drop (p.liveZero + 1)).reduceOption = [] := by
    have hnil := Topology.drop_liveZero p.base
    rw [← hzero, List.reduceOption_eq_nil_iff] at hnil
    obtain ⟨n, hn⟩ := hnil
    rw [← List.drop_drop, hn, List.drop_replicate, List.reduceOption_replicate_none]
  have hset : p.base.set p.liveZero (some elm) =
      p.base.take p.liveZero ++ some elm :: p.base.drop (p.liveZero + 1) := by
    rw [List.set_eq_take_append_cons_drop, if_pos hroom]
  have hred : p.base.reduceOption = (p.base.take p.liveZero).reduceOption := by
    conv_lhs => rw [← List.take_append_drop p.liveZero p.base]
    rw [List.reduceOption_append, hzero, Topology.drop_liveZero, List.append_nil]
  refine ⟨?_, List.length_set, ?_⟩
  · simp only [hset, List.reduceOption_append, List.reduceOption_cons_of_some, htail,
      List.take_length, List.drop_length, List.reduceOption_nil, hred]
  · simp only [hset]
    rw [Topology.liveZero_append_of_used (by
      rw [Topology.liveZero_cons_some]; exact Nat.succ_pos _), Topology.liveZero_cons_some,
      Topology.liveZero_eq_zero_iff.2 htail, List.length_take]
    omega

/-- **An insertion fills a slot**: with an empty slot and an element disjoint from the entries,
`hammer2_base_insert` meets no `hpanic`, and puts the element at its place. -/
theorem Kept.baseInsert (h : p.Kept) (hd : Disjoint p.base elm) (hfree : none ∈ p.base) :
    (p.baseInsert elm).2 = false ∧
      ∃ i, Place p.base elm.key i ∧ Filled p i elm (p.baseInsert elm).1 := by
  have hplace := h.baseFind elm.key
  unfold BaseParent.baseInsert
  generalize p.baseFind elm.key = r at hplace ⊢
  obtain ⟨i, cache⟩ := r
  simp only at hplace ⊢
  split
  · rename_i hc
    obtain ⟨rfl, hroom⟩ := hc
    have hf := @filled_append _ _ elm h.zero hroom
    exact ⟨rfl, _, hplace, hf.entries, hf.length, hf.zero⟩
  · rename_i hc
    have hi := hplace.le_length
    have hover : ¬ (p.base.getD i none).any (fun b => b.key < elm.key ∨
      b.key ≤ elm.last) = true := by
      intro hany
      obtain ⟨b, hb, hbad⟩ := (Option.any_eq_true _ _).1 hany
      have hmem : b ∈ (p.base.drop i).reduceOption := by
        rw [List.getD_eq_getElem?_getD] at hb
        have hbi : p.base[i]? = some (some b) := by grind
        obtain ⟨hlt, hbe⟩ := List.getElem?_eq_some_iff.1 hbi
        rw [List.drop_eq_getElem_cons hlt, hbe, List.reduceOption_cons_of_some]
        exact List.mem_cons_self
      have hlt := hplace.behind h.sorted hd b hmem
      have hkl := elm.key_le_last
      simp only [decide_eq_true_eq] at hbad
      omega
    rw [if_neg hover]
    have hend : i = p.base.length → p.liveZero = p.base.length := by
      intro hie
      have hle := Topology.liveZero_le_length p.base
      have := h.zero
      by_contra hne
      exact hc ⟨hie, by omega⟩
    obtain ⟨x, hx⟩ := List.mem_iff_getElem?.1 hfree
    have hxi : x ≠ i := by
      rintro rfl
      rcases hplace.here with hlen | ⟨b, hb, -⟩
      · rw [hlen, List.getElem?_eq_none (Nat.le_refl _)] at hx
        cases hx
      · rw [hx] at hb
        cases hb
    obtain ⟨gap, hgap, hok⟩ := gapSearch_spec hi hx hxi (p.base.length + 1) 1 Nat.one_pos
      (by omega) (fun y _ _ => by omega) (fun y _ _ => by omega)
    rw [hgap]
    have hfill : Filled p i elm (p.fill i elm gap) := by
      cases gap with
      | before j =>
        refine fill_before hi h.zero hend (fun hlt => ?_) hok
        rcases hplace.here with hlen | ⟨b, hb, -⟩
        · omega
        · obtain ⟨hlt, hbe⟩ := List.getElem?_eq_some_iff.1 hb
          rw [List.drop_eq_getElem_cons hlt, hbe, Topology.liveZero_cons_some]
          exact Nat.succ_pos _
      | after k =>
        rcases hplace.here with hlen | ⟨b, hb, -⟩
        · have := hok.1
          have := (List.getElem?_eq_some_iff.1 hok.2.1).1
          omega
        · exact fill_after h.zero hb hok
    have hsame : ({ p with
          cacheIndex := cache
          stats := addStats p.stats elm
          leafCount := addLeaf p.leafCount elm } : BaseParent δ).fill i elm gap =
        { p.fill i elm gap with
          cacheIndex := cache
          stats := addStats p.stats elm
          leafCount := addLeaf p.leafCount elm } := by
      cases gap <;> rfl
    simp only [hsame]
    have hvalid := validate_of_sorted (hplace.sorted_insert h.sorted hd hfill.entries)
    exact ⟨by rw [hvalid, Bool.not_true], i, hplace, hfill.entries, hfill.length, hfill.zero⟩

/-- What an insertion does not touch, and what it counts. -/
theorem baseInsert_counts (p : BaseParent δ) (elm : TableRef δ) :
    (p.baseInsert elm).1.liveCount = p.liveCount ∧
      (p.baseInsert elm).1.stats = p.stats + elm.counted := by
  unfold baseInsert
  simp only [← addStats_eq]
  split
  · exact ⟨rfl, rfl⟩
  · split
    · exact ⟨rfl, rfl⟩
    · split
      · exact ⟨rfl, rfl⟩
      · rename_i gap _
        cases gap <;> exact ⟨rfl, rfl⟩

/-! ## Deletion -/

/-- The walk back from a cleared slot finds the bound again. -/
theorem walkBack_eq (base : List (Option (TableRef δ))) (i : Nat) (hi : i ≤ base.length) :
    walkBack base i = Topology.liveZero (base.take i) := by
  induction i with
  | zero => rfl
  | succ i ih =>
    rw [walkBack, List.getD_eq_getElem _ _ hi, List.take_succ_eq_append_getElem hi,
      Topology.liveZero_append]
    cases base[i] with
    | none => simpa [Topology.liveZero] using ih (Nat.le_of_succ_le hi)
    | some b =>
      simp [Topology.liveZero]
      omega

/-- The place of the key of an entry is the slot of that entry. -/
theorem Place.entry (h : Place base b.key i)
    (hs : base.reduceOption.Pairwise fun a b => a.last < b.key) (hb : b ∈ base.reduceOption) :
    base[i]? = some (some b) := by
  have hkl := b.key_le_last
  have hbefore : b ∉ (base.take i).reduceOption := fun hmem => by
    have := h.before b hmem
    omega
  rcases h.here with rfl | ⟨c, hc, hkey⟩
  · rw [List.take_length] at hbefore
    exact absurd hb hbefore
  · obtain ⟨hi, hce⟩ := List.getElem?_eq_some_iff.1 hc
    rw [← List.take_append_drop i base, List.drop_eq_getElem_cons hi, hce, List.reduceOption_append,
      List.reduceOption_cons_of_some] at hb hs
    rcases List.mem_append.1 hb with hmem | hmem
    · exact absurd hmem hbefore
    · rcases List.mem_cons.1 hmem with rfl | hrest
      · exact hc
      · have := (List.pairwise_cons.1 (List.pairwise_append.1 hs).2.1).1 b hrest
        omega

/-- The entries once a slot in use is cleared. -/
theorem perm_clear (hb : base[i]? = some (some b)) :
    base.reduceOption.Perm (b :: (base.set i none).reduceOption) ∧
      (base.set i none).reduceOption.Sublist base.reduceOption := by
  obtain ⟨hi, hbe⟩ := List.getElem?_eq_some_iff.1 hb
  have hset : (base.set i none).reduceOption =
      (base.take i).reduceOption ++ (base.drop (i + 1)).reduceOption := by
    rw [List.set_eq_take_append_cons_drop, if_pos hi, List.reduceOption_append,
      List.reduceOption_cons_of_none]
  have hbase : base.reduceOption =
      (base.take i).reduceOption ++ b :: (base.drop (i + 1)).reduceOption := by
    conv_lhs => rw [← List.take_append_drop i base, List.drop_eq_getElem_cons hi, hbe]
    rw [List.reduceOption_append, List.reduceOption_cons_of_some]
  rw [hset, hbase]
  exact ⟨List.perm_middle, List.Sublist.append_left (List.sublist_cons_self _ _) _⟩

/-- `live_zero` once a slot in use is cleared. -/
theorem liveZero_clear (hb : base[i]? = some (some b)) :
    Topology.liveZero (base.set i none) =
      if Topology.liveZero base = i + 1 then walkBack (base.set i none) i
      else Topology.liveZero base := by
  obtain ⟨hi, hbe⟩ := List.getElem?_eq_some_iff.1 hb
  have hlen : (base.take i).length = i := List.length_take_of_le (Nat.le_of_lt hi)
  have hold : Topology.liveZero base = i + (Topology.liveZero (base.drop (i + 1)) + 1) := by
    conv_lhs => rw [← List.take_append_drop i base, List.drop_eq_getElem_cons hi, hbe]
    rw [Topology.liveZero_append_of_used (by
      rw [Topology.liveZero_cons_some]; exact Nat.succ_pos _), Topology.liveZero_cons_some, hlen]
  rw [walkBack_eq _ _ (by rw [List.length_set]; omega), List.take_set_of_le (Nat.le_refl i),
    List.set_eq_take_append_cons_drop, if_pos hi, Topology.liveZero_append, hold, hlen,
    Topology.liveZero]
  split
  · rw [if_pos (Nat.succ_pos _), if_neg (by omega)]
  · rw [Option.isSome_none, if_neg Bool.false_ne_true, if_neg (Nat.lt_irrefl 0), if_pos (by omega)]

/-- **A deletion clears one slot**: `hammer2_base_delete` of an element that has an entry finds the
entry, whatever `cache_index` is, and takes it out. -/
theorem Kept.baseDelete (h : p.Kept) (hb : b ∈ p.base.reduceOption)
    (hbits : flags.blkmapupd = true ∨ b.keybits = keybits) :
    ∃ i, p.base[i]? = some (some b) ∧ (p.baseDelete b.key keybits flags).2.2 = some b ∧
      (p.baseDelete b.key keybits flags).1 =
        { p with
          base := p.base.set i none
          cacheIndex := (p.baseFind b.key).2
          stats := p.stats - b.counted
          leafCount := (subLeaf (p.leafCount, flags) b).1
          liveZero := Topology.liveZero (p.base.set i none) } := by
  have hentry := (h.baseFind b.key).entry h.sorted hb
  refine ⟨(p.baseFind b.key).1, hentry, ?_⟩
  have hget : p.base.getD (p.baseFind b.key).1 none = some b := by
    rw [List.getD_eq_getElem?_getD, hentry]
    rfl
  have hfound : ¬ (b.key ≠ b.key ∨ flags.blkmapupd = false ∧ b.keybits ≠ keybits) := by
    rcases hbits with hu | hk
    · simp [hu]
    · simp [hk]
  rw [liveZero_clear hentry, ← h.zero, ← subStats_eq]
  unfold BaseParent.baseDelete
  simp only [hget, if_neg hfound, and_self]

/-! ## Both keep the table -/

/-- An insertion into a table with room keeps it sorted, bounded and counted. -/
theorem Kept.baseInsert_kept (h : p.Kept) (hd : Disjoint p.base elm) (hfree : none ∈ p.base) :
    ∃ q, p.baseInsert elm = (q, false) ∧ q.Kept ∧ q.base.length = p.base.length ∧
      q.base.reduceOption.Perm (elm :: p.base.reduceOption) ∧
      q.stats = p.stats + elm.counted ∧ q.liveCount = p.liveCount := by
  obtain ⟨hok, i, hplace, hfill⟩ := h.baseInsert hd hfree
  obtain ⟨hcount, hstats⟩ := p.baseInsert_counts elm
  exact ⟨_, Prod.ext rfl hok, ⟨hplace.sorted_insert h.sorted hd hfill.entries, hfill.zero⟩,
    hfill.length, perm_insert hfill.entries, hstats, hcount⟩

/-- A deletion keeps the table sorted, bounded and counted. -/
theorem Kept.baseDelete_kept (h : p.Kept) (hb : b ∈ p.base.reduceOption)
    (hbits : flags.blkmapupd = true ∨ b.keybits = keybits) :
    ∃ q, (p.baseDelete b.key keybits flags).1 = q ∧
      (p.baseDelete b.key keybits flags).2.2 = some b ∧ q.Kept ∧ q.base.length = p.base.length ∧
      p.base.reduceOption.Perm (b :: q.base.reduceOption) ∧
      q.stats = p.stats - b.counted ∧ q.liveCount = p.liveCount := by
  obtain ⟨i, hi, hfound, heq⟩ := h.baseDelete hb hbits
  obtain ⟨hperm, hsub⟩ := perm_clear hi
  exact ⟨_, heq, hfound, ⟨h.sorted.sublist hsub, rfl⟩, List.length_set, hperm, rfl, rfl⟩

/-- A chain whose entry is taken out is no longer flagged. -/
theorem baseDelete_flags {q : BaseParent δ} {flags' : BlockmapFlags}
    (h : p.baseDelete key keybits flags = (q, flags', some b)) :
    flags'.blkmapped = false ∧ flags'.blkmapupd = false := by
  unfold BaseParent.baseDelete at h
  simp only at h
  split at h
  · simp at h
  · split at h
    · simp at h
    · simp only [Prod.mk.injEq] at h
      rw [← h.2.1]
      exact ⟨rfl, rfl⟩

/-- The table invariant is kept by an insertion and by a deletion, with exactly the element more or
less among the entries and in the statistics. `live_count` is left as it is. -/
theorem baseInsert_baseDelete_kept (p : BaseParent δ) (h : p.Kept) :
    (∀ elm : TableRef δ, Disjoint p.base elm → none ∈ p.base →
      ∃ q, p.baseInsert elm = (q, false) ∧ q.Kept ∧ q.base.length = p.base.length ∧
        q.base.reduceOption.Perm (elm :: p.base.reduceOption) ∧
        q.stats = p.stats + elm.counted ∧ q.liveCount = p.liveCount ∧
        (q.liveCount = q.base.reduceOption.length ↔
          p.liveCount = p.base.reduceOption.length + 1)) ∧
    ∀ (b : TableRef δ) (keybits : Nat) (flags : BlockmapFlags), b ∈ p.base.reduceOption →
      flags.blkmapupd = true ∨ b.keybits = keybits →
      ∃ q, (p.baseDelete b.key keybits flags).1 = q ∧
        (p.baseDelete b.key keybits flags).2.2 = some b ∧ q.Kept ∧ q.base.length = p.base.length ∧
        p.base.reduceOption.Perm (b :: q.base.reduceOption) ∧
        q.stats = p.stats - b.counted ∧ q.liveCount = p.liveCount ∧
        (q.liveCount = q.base.reduceOption.length ↔
          p.liveCount + 1 = p.base.reduceOption.length) := by
  refine ⟨fun elm hd hfree => ?_, fun b keybits flags hb hbits => ?_⟩
  · obtain ⟨q, heq, hkept, hlen, hperm, hstats, hcount⟩ := h.baseInsert_kept hd hfree
    refine ⟨q, heq, hkept, hlen, hperm, hstats, hcount, ?_⟩
    rw [hcount, hperm.length_eq, List.length_cons, Nat.cast_succ]
  · obtain ⟨q, heq, hfound, hkept, hlen, hperm, hstats, hcount⟩ := h.baseDelete_kept hb hbits
    refine ⟨q, heq, hfound, hkept, hlen, hperm, hstats, hcount, ?_⟩
    rw [hcount, hperm.length_eq, List.length_cons, Nat.cast_succ]
    omega

/-- The blockref of a data block of 64 KB. -/
def dataRef (i : Fin 16) : TableRef Unit where
  type := .data
  key := 65536 * i
  keybits := 16
  radix := 16
  stats := ⟨0, 0⟩
  leafCount := 1
  rest := ()
  used := by decide
  shift := by decide
  fits := by
    have := i.isLt
    unfold keySpace
    omega

/-- A table with two entries and an empty slot between them, counted by
`hammer2_chain_countbrefs`. -/
def gappedTable : BaseParent Unit :=
  countbrefs ⟨[some (dataRef 1), none, some (dataRef 3)], 0, 0, 0, ⟨131072, 0⟩, 2⟩

theorem gappedTable_kept : gappedTable.Kept := ⟨by decide, by decide⟩

/-- An element between the entries goes into the slot, and the last entry can be taken out. -/
theorem baseInsert_baseDelete_kept_gapped :
    (∃ q, gappedTable.baseInsert (dataRef 2) = (q, false) ∧ q.Kept) ∧
      (gappedTable.baseDelete (dataRef 3).key 16 ⟨true, false, false⟩).1.Kept := by
  obtain ⟨hins, hdel⟩ := baseInsert_baseDelete_kept gappedTable gappedTable_kept
  obtain ⟨q, hq, hkept, -⟩ := hins (dataRef 2) (by unfold Disjoint; decide) (by decide)
  obtain ⟨q', rfl, -, hkept', -⟩ :=
    hdel (dataRef 3) 16 ⟨true, false, false⟩ (by decide) (.inr rfl)
  exact ⟨⟨q, hq, hkept⟩, hkept'⟩

/-- A table whose `live_count` is the number of slots in use before an insertion or a deletion, and
is not afterwards. -/
theorem baseInsert_baseDelete_uncounted :
    gappedTable.liveCount = gappedTable.base.reduceOption.length ∧
      (gappedTable.baseInsert (dataRef 2)).1.liveCount ≠
        (gappedTable.baseInsert (dataRef 2)).1.base.reduceOption.length ∧
      (gappedTable.baseDelete (dataRef 3).key 16 ⟨true, false, false⟩).1.liveCount ≠
        (gappedTable.baseDelete (dataRef 3).key 16
          ⟨true, false, false⟩).1.base.reduceOption.length := by
  decide

/-! ## `*key_nextp` -/

/-- What a search that stops at slot `i` leaves in `*key_nextp`: the end of the range of a slot in
use, if that is lower. -/
def nextKey (base : List (Option (TableRef δ))) (keyNext i : Nat) : Nat :=
  match base.getD i none with
  | none => keyNext
  | some b => truncateEnd keyNext ((b.key + 2 ^ b.keybits) % keySpace)

/-- `hammer2_base_find` with its `*key_nextp`. -/
def baseFindNext (p : BaseParent δ) (keyNext keyBeg : Nat) : Nat × Nat :=
  if p.base.length = 0 then (0, keyNext)
  else
    let j := searchBackwards p.base keyBeg (min p.cacheIndex (p.liveZero - 1))
    match searchForwards p.liveZero keyBeg j (p.base.drop j) with
    | none => (p.base.length, keyNext)
    | some i =>
      if p.liveZero ≤ i then (p.base.length, keyNext) else (i, nextKey p.base keyNext i)

/-- `*key_nextp` is a function of the slot found. -/
theorem baseFindNext_eq (p : BaseParent δ) (keyNext keyBeg : Nat) :
    p.baseFindNext keyNext keyBeg =
      ((p.baseFind keyBeg).1, nextKey p.base keyNext (p.baseFind keyBeg).1) := by
  have hend : nextKey p.base keyNext p.base.length = keyNext := by simp [nextKey]
  unfold baseFindNext baseFind
  split
  · rename_i hlen
    rw [hlen] at hend
    rw [hend]
  · simp only
    split
    · rw [hend]
    · split
      · rw [hend]
      · rfl

/-- The cached index never changes a result: over a sorted table of disjoint ranges, with empty
slots anywhere, the slot found and `*key_nextp` are those of a linear scan from the first slot. -/
theorem baseFindNext_eq_linear (p : BaseParent δ) (keyNext keyBeg : Nat)
    (hs : p.base.reduceOption.Pairwise fun a b => a.last < b.key)
    (hz : Topology.liveZero p.base ≤ p.liveZero) :
    p.baseFindNext keyNext keyBeg =
      (linearFind p.base keyBeg, nextKey p.base keyNext (linearFind p.base keyBeg)) := by
  rw [baseFindNext_eq, baseFind_eq_linearFind hs hz]

/-- From a cached index at the last entry the search still finds the first one. -/
theorem baseFindNext_eq_linear_gapped :
    BaseParent.baseFindNext { gappedTable with cacheIndex := 2 } 0 65537 = (0, 131072) :=
  baseFindNext_eq_linear { gappedTable with cacheIndex := 2 } 0 65537 gappedTable_kept.sorted
    gappedTable_kept.zero.ge

end BaseParent

end Hammer2
