import Hammer2.Chain.Topology

/-!
# What the merged search finds

`hammer2_base_find` finds the first array entry whose range ends at or past `key_beg`, whatever its
cached index (`ChainTree.baseFind_eq`); `hammer2_chain_find` finds the first chain in memory that
meets the range (`ChainTree.chainFind_spec`). `hammer2_combined_find` then finds the first child of
the merged view that meets the range, and its `*key_nextp` moves the search on without leaving that
child's range (`ChainTree.combinedFind_some`, `ChainTree.combinedFind_none`).

Reference: `hammer2_chain.c:1887-1971`, `hammer2_chain.c:4938-5090`.
-/

namespace Hammer2

/-- The key that a 64-bit next key stands for: 0 is the one past the last key. -/
def keyLimit (keyNext : Nat) : Nat := if keyNext = 0 then keySpace else keyNext

theorem keyLimit_mod {x : Nat} (h0 : 0 < x) (h : x ≤ keySpace) : keyLimit (x % keySpace) = x := by
  rcases h.lt_or_eq with h | rfl
  · rw [Nat.mod_eq_of_lt h, keyLimit, if_neg h0.ne']
  · rw [Nat.mod_self, keyLimit, if_pos rfl]

/-- Truncating takes the lesser limit. -/
theorem keyLimit_truncateEnd {k x : Nat} (hk : k < keySpace) (hx : x < keySpace) :
    truncateEnd k x < keySpace ∧ keyLimit (truncateEnd k x) = min (keyLimit k) (keyLimit x) := by
  unfold truncateEnd keyLimit
  grind

theorem truncateKey_eq {k x : Nat} (hx : x ≠ 0) : truncateKey k x = truncateEnd k x := by
  simp [truncateKey, truncateEnd, hx]

namespace Topology
variable {ι : Type*} (T : Topology ι)

theorem key_le_last (c : ι) : T.key c ≤ T.last c := by
  have := Nat.one_le_two_pow (n := T.keybits c)
  unfold last
  omega

/-- The end of a chain's range as a limit. -/
theorem keyLimit_keyEnd {c : ι} (h : T.key c + 2 ^ T.keybits c ≤ keySpace) :
    keyLimit (T.keyEnd c) = T.last c + 1 := by
  have := Nat.one_le_two_pow (n := T.keybits c)
  rw [keyEnd, keyLimit_mod (by omega) h, last]
  omega

theorem keyEnd_lt (c : ι) : T.keyEnd c < keySpace := Nat.mod_lt _ (by decide)

/-! ## The array -/

theorem reduceOption_eq_nil_of_liveZero {xs : List (Option ι)} (h : liveZero xs = 0) :
    xs.reduceOption = [] := by
  induction xs with
  | nil => rfl
  | cons x xs ih =>
    unfold liveZero at h
    cases x with
    | none =>
      rw [List.reduceOption_cons_of_none]
      exact ih (by grind)
    | some a => grind

theorem liveZero_drop (i : Nat) (xs : List (Option ι)) :
    liveZero (xs.drop i) ≤ liveZero xs - i := by
  induction i generalizing xs with
  | zero => simp
  | succ i ih =>
    cases xs with
    | nil => simp [liveZero]
    | cons x xs =>
      have := ih xs
      rw [List.drop_succ_cons]
      grind [liveZero]

/-- The forward search finds the first entry that ends at or past `keyBeg`. -/
theorem searchForwards_eq {limit keyBeg i : Nat} {xs : List (Option ι)}
    (h : liveZero xs ≤ limit - i) :
    T.searchForwards limit keyBeg i xs = xs.reduceOption.find? fun a => keyBeg ≤ T.last a := by
  induction xs generalizing i with
  | nil => rfl
  | cons x xs ih =>
    have hstep : liveZero xs ≤ limit - (i + 1) := by grind [liveZero]
    cases x with
    | none =>
      rw [searchForwards, List.reduceOption_cons_of_none]
      split
      · have : liveZero xs = 0 := by omega
        rw [reduceOption_eq_nil_of_liveZero this, List.find?_nil]
      · exact ih hstep
    | some a =>
      have hlim : ¬ limit ≤ i := by grind [liveZero]
      have := T.key_le_last a
      rw [searchForwards, if_neg hlim, List.reduceOption_cons_of_some, List.find?_cons]
      by_cases hk : keyBeg ≤ T.last a
      · simp [hk]
      · rw [if_neg (by omega), ih hstep]
        simp [hk]

theorem rel_of_before {α : Type*} {R : α → α → Prop} {arr : List (Option α)} {i : Nat} {a b : α}
    (hs : arr.reduceOption.Pairwise R) (hb : arr.getD i none = some b)
    (ha : a ∈ (arr.take i).reduceOption) : R a b := by
  obtain ⟨hlt, hbi⟩ : ∃ h : i < arr.length, arr[i] = some b := by
    rw [List.getD_eq_getElem?_getD] at hb
    grind
  rw [← List.take_append_drop i arr, List.drop_eq_getElem_cons hlt, hbi, List.reduceOption_append,
    List.reduceOption_cons_of_some, List.pairwise_append] at hs
  exact hs.2.2 a ha b List.mem_cons_self

/-- Where the backward search stops, no entry before that index reaches `keyBeg`. -/
theorem last_lt_of_searchBackwards {arr : List (Option ι)} {keyBeg : Nat}
    (hs : arr.reduceOption.Pairwise fun a b => T.last a < T.key b) (i : Nat) :
    ∀ a ∈ (arr.take (T.searchBackwards arr keyBeg i)).reduceOption, T.last a < keyBeg := by
  induction i with
  | zero => simp [searchBackwards]
  | succ i ih =>
    unfold searchBackwards
    split
    · exact ih
    · rename_i b hb
      split
      · exact ih
      · rename_i hkey
        intro a ha
        -- `b` stands right behind the entries in question.
        have := rel_of_before hs hb ha
        omega

end Topology

namespace ChainTree
variable {ι : Type*} (T : ChainTree ι) {p a b c d : ι} {keyBeg keyEnd keyNext : Nat}

theorem mem_base : a ∈ (T.base p).reduceOption ↔ some a ∈ T.base p := List.reduceOption_mem_iff

/-- **`hammer2_base_find` is a linear search**: it finds the first entry that ends at or past
`keyBeg`, whatever `cache_index` is. -/
theorem baseFind_eq (p : ι) (keyNext keyBeg : Nat) :
    T.baseFind p keyNext keyBeg =
      match (T.base p).reduceOption.find? fun a => keyBeg ≤ T.last a with
      | none => (none, keyNext)
      | some a => (some a, truncateEnd keyNext (T.keyEnd a)) := by
  unfold Topology.baseFind
  simp only
  generalize min (T.cacheIndex p) _ = i
  have hback : ∀ a ∈ ((T.base p).take (T.searchBackwards (T.base p) keyBeg i)).reduceOption,
      T.last a < keyBeg := T.last_lt_of_searchBackwards (T.base_sorted p) i
  generalize T.searchBackwards (T.base p) keyBeg i = j at hback ⊢
  rw [T.searchForwards_eq (Topology.liveZero_drop j _)]
  have hfind : (T.base p).reduceOption.find? (fun a => keyBeg ≤ T.last a) =
      ((T.base p).drop j).reduceOption.find? fun a => keyBeg ≤ T.last a := by
    conv_lhs => rw [← List.take_append_drop j (T.base p), List.reduceOption_append,
      List.find?_append]
    rw [List.find?_eq_none.2 fun a ha => by simpa using hback a ha, Option.none_or]
  cases hf : ((T.base p).drop j).reduceOption.find? fun a => keyBeg ≤ T.last a with
  | none => rw [hfind, hf]
  | some a => rw [hfind, hf]

/-- The entry that `hammer2_base_find` finds comes before every other that ends at or past
`keyBeg`. -/
theorem baseFind_first (hb : some b ∈ T.base p) (hk : keyBeg ≤ T.last b) :
    ∃ a, (T.baseFind p keyNext keyBeg).1 = some a ∧ (b = a ∨ T.last a < T.key b) := by
  rw [baseFind_eq]
  cases h : (T.base p).reduceOption.find? fun a => keyBeg ≤ T.last a with
  | none => exact absurd hk (by simpa using List.find?_eq_none.1 h b (T.mem_base.2 hb))
  | some a =>
    obtain ⟨-, xs, ys, hsplit, hxs⟩ := List.find?_eq_some_iff_append.1 h
    have hsort := T.base_sorted p
    have hmem := T.mem_base.2 hb
    rw [hsplit] at hsort hmem
    refine ⟨a, rfl, ?_⟩
    rcases List.mem_append.1 hmem with hmem | hmem
    · exact absurd hk (by simpa using hxs b hmem)
    · exact (List.mem_cons.1 hmem).imp_right
        (List.rel_of_pairwise_cons (List.pairwise_append.1 hsort).2.1)

/-- What is found is an entry that ends at or past the key. -/
theorem baseFind_mem (h : (T.baseFind p keyNext keyBeg).1 = some a) :
    some a ∈ T.base p ∧ keyBeg ≤ T.last a := by
  rw [baseFind_eq] at h
  cases hf : (T.base p).reduceOption.find? fun a => keyBeg ≤ T.last a with
  | none => simp [hf] at h
  | some b =>
    obtain rfl : b = a := by simpa [hf] using h
    exact ⟨T.mem_base.1 (List.mem_of_find?_eq_some hf), by simpa using List.find?_some hf⟩

/-- How far a search may move `*key_nextp` when it finds `x`. -/
def Advances (T : ChainTree ι) (keyBeg : Nat) (x : Option ι) (keyNext keyNext' : Nat) : Prop :=
  keyNext' < keySpace ∧ keyBeg < keyLimit keyNext' ∧ keyLimit keyNext' ≤ keyLimit keyNext ∧
    ∀ c, x = some c → keyLimit keyNext' ≤ T.last c + 1

/-- `*key_nextp` goes past what has been searched, and no further. -/
theorem baseFind_advances (hk : keyNext < keySpace) (hbeg : keyBeg < keyLimit keyNext) :
    T.Advances keyBeg (T.baseFind p keyNext keyBeg).1 keyNext (T.baseFind p keyNext keyBeg).2 := by
  rw [baseFind_eq]
  cases hf : (T.base p).reduceOption.find? fun a => keyBeg ≤ T.last a with
  | none => exact ⟨hk, hbeg, le_rfl, by simp⟩
  | some a =>
    have hle : keyBeg ≤ T.last a := by simpa using List.find?_some hf
    have hfits := (T.base_fits p a (T.mem_base.1 (List.mem_of_find?_eq_some hf))).1
    obtain ⟨h1, h2⟩ := keyLimit_truncateEnd hk (T.keyEnd_lt a)
    rw [T.keyLimit_keyEnd hfits] at h2
    refine ⟨h1, ?_, ?_, fun c hc => ?_⟩
    · simp only [h2]; omega
    · simp only [h2]; omega
    · obtain rfl : a = c := by simpa using hc
      simp only [h2]; omega

/-! ## The chains in memory -/

/-- Once the nearest chain is found, the callbacks on later ones keep it and keep `key_next` between
`keyBeg` and its end. -/
theorem foldl_findCallback {xs : List ι} (hxs : ∀ c ∈ xs, c ∈ T.rbtree p ∧ T.last b < T.key c)
    (hb : keyBeg ≤ T.last b) (hk : keyNext < keySpace) (hbeg : keyBeg < keyLimit keyNext) :
    ∃ k, xs.foldl (T.findCallback keyBeg) (some b, keyNext) = (some b, k) ∧
      k < keySpace ∧ keyBeg < keyLimit k ∧ keyLimit k ≤ keyLimit keyNext := by
  induction xs generalizing keyNext with
  | nil => exact ⟨keyNext, rfl, hk, hbeg, le_rfl⟩
  | cons c xs ih =>
    obtain ⟨hmem, hlt⟩ := hxs c List.mem_cons_self
    have := T.key_le_last b
    have := T.key_le_last c
    have hfits := (T.rbtree_fits p c hmem).1
    have hkc : T.key c < keySpace := by
      have := Nat.one_le_two_pow (n := T.keybits c)
      omega
    -- The callback lowers `key_next` to the key of `c`, and then to its end.
    obtain ⟨h1, h2⟩ := keyLimit_truncateEnd hk hkc
    obtain ⟨h3, h4⟩ := keyLimit_truncateEnd h1 (T.keyEnd_lt c)
    have hlimit : keyLimit (T.key c) = T.key c := if_neg (by omega)
    rw [T.keyLimit_keyEnd hfits, h2, hlimit] at h4
    have hstep : T.findCallback keyBeg (some b, keyNext) c =
        (some b, truncateEnd (truncateEnd keyNext (T.key c)) (T.keyEnd c)) := by
      simp only [Topology.findCallback]
      rw [if_neg (by omega), if_neg (by omega), if_neg (by omega), truncateKey_eq (by omega)]
    rw [List.foldl_cons, hstep]
    obtain ⟨k, hfold, h5, h6, h7⟩ := ih (fun d hd => hxs d (List.mem_cons_of_mem _ hd)) h3
      (by omega)
    exact ⟨k, hfold, h5, h6, by omega⟩

/-- **`hammer2_chain_find`** finds the first chain in memory that meets the range. -/
theorem chainFind_spec (hk : keyNext < keySpace) (hbeg : keyBeg < keyLimit keyNext) :
    ∃ x k, T.chainFind p keyNext keyBeg keyEnd = (x, k) ∧ T.Advances keyBeg x keyNext k ∧
      (∀ c, x = some c → c ∈ T.rbtree p ∧ keyBeg ≤ T.last c ∧ T.key c ≤ keyEnd) ∧
      ∀ d ∈ T.rbtree p, keyBeg ≤ T.last d → T.key d ≤ keyEnd →
        ∃ c, x = some c ∧ (d = c ∨ T.last c < T.key d) := by
  have hmem : ∀ c, c ∈ (T.rbtree p).filter (T.findCmp keyBeg keyEnd) ↔
      c ∈ T.rbtree p ∧ keyBeg ≤ T.last c ∧ T.key c ≤ keyEnd := fun c => by simp [Topology.findCmp]
  have hsort := (T.rbtree_sorted p).filter (T.findCmp keyBeg keyEnd)
  unfold Topology.chainFind
  generalize (T.rbtree p).filter (T.findCmp keyBeg keyEnd) = xs at hmem hsort
  cases xs with
  | nil =>
    refine ⟨none, keyNext, rfl, ⟨hk, hbeg, le_rfl, by simp⟩, by simp, fun d hd h1 h2 => ?_⟩
    exact absurd ((hmem d).2 ⟨hd, h1, h2⟩) List.not_mem_nil
  | cons b xs =>
    obtain ⟨hb, hle, hend⟩ := (hmem b).1 List.mem_cons_self
    have hafter : ∀ c ∈ xs, T.last b < T.key c := fun c hc => List.rel_of_pairwise_cons hsort hc
    obtain ⟨h1, h2⟩ := keyLimit_truncateEnd hk (T.keyEnd_lt b)
    rw [T.keyLimit_keyEnd (T.rbtree_fits p b hb).1] at h2
    have hxs : ∀ c ∈ xs, c ∈ T.rbtree p ∧ T.last b < T.key c := fun c hc =>
      ⟨((hmem c).1 (List.mem_cons_of_mem _ hc)).1, hafter c hc⟩
    obtain ⟨k, hfold, h3, h4, h5⟩ := T.foldl_findCallback hxs hle h1 (by omega)
    refine ⟨some b, k, hfold, ⟨h3, h4, by omega, ?_⟩, ?_, fun d hd h6 h7 => ⟨b, rfl, ?_⟩⟩
    · rintro c ⟨⟩
      omega
    · rintro c ⟨⟩
      exact ⟨hb, hle, hend⟩
    · exact (List.mem_cons.1 ((hmem d).2 ⟨hd, h6, h7⟩)).imp_right (hafter d)

/-! ## The merged view -/

omit T in
/-- Two members of a sorted list are equal or related. -/
theorem eq_or_rel_of_sorted {α : Type*} {R : α → α → Prop} {xs : List α}
    {a b : α} (hs : xs.Pairwise R)
    (ha : a ∈ xs) (hb : b ∈ xs) : a = b ∨ R a b ∨ R b a := by
  rw [List.pairwise_iff_getElem] at hs
  obtain ⟨i, hi, rfl⟩ := List.getElem_of_mem ha
  obtain ⟨j, hj, rfl⟩ := List.getElem_of_mem hb
  rcases lt_trichotomy i j with hlt | rfl | hlt
  · exact Or.inr (Or.inl (hs i j hi hj hlt))
  · exact Or.inl rfl
  · exact Or.inr (Or.inr (hs j i hj hi hlt))

/-- Two children of one node have disjoint ranges. -/
theorem child_disjoint (hc : T.Child p c) (hd : T.Child p d) :
    c = d ∨ T.last c < T.key d ∨ T.last d < T.key c := by
  rcases hc with hc | ⟨hc, hcs⟩ <;> rcases hd with hd | ⟨hd, hds⟩
  · exact eq_or_rel_of_sorted (T.rbtree_sorted p) hc hd
  · rcases T.shadow p d c hd hc with h | h | h
    · exact absurd h.1.symm (hds c hc)
    · exact Or.inr (Or.inr h)
    · exact Or.inr (Or.inl h)
  · rcases T.shadow p c d hc hd with h | h | h
    · exact absurd h.1.symm (hcs d hd)
    · exact Or.inr (Or.inl h)
    · exact Or.inr (Or.inr h)
  · exact eq_or_rel_of_sorted (T.base_sorted p) (T.mem_base.2 hc) (T.mem_base.2 hd)

theorem child_fits (h : T.Child p c) : T.key c + 2 ^ T.keybits c ≤ keySpace ∧ T.keybits c < 64 :=
  h.elim (T.rbtree_fits p c) fun h => T.base_fits p c h.1

/-- A chain has the range of the entry it hides. -/
theorem last_eq_of_shadow (ha : some a ∈ T.base p) (hc : c ∈ T.rbtree p) (h : T.key a = T.key c) :
    T.last a = T.last c := by
  have := T.key_le_last a
  have := T.key_le_last c
  rcases T.shadow p a c ha hc with ⟨hk, hb⟩ | h | h
  · rw [Topology.last, Topology.last, hk, hb]
  · omega
  · omega

/-- `c` is the first child of `p` that ends at or past `keyBeg`. -/
structure Nearest (T : ChainTree ι) (p : ι) (keyBeg : Nat) (c : ι) : Prop where
  child : T.Child p c
  le_last : keyBeg ≤ T.last c
  first : ∀ d, T.Child p d → keyBeg ≤ T.last d → d = c ∨ T.last c < T.key d

/-- Children that end at or past `keyBeg` and do not begin before `c` begin after its end. -/
theorem Nearest.of_key_le (hc : T.Child p c) (hle : keyBeg ≤ T.last c)
    (h : ∀ d, T.Child p d → keyBeg ≤ T.last d → T.key c ≤ T.last d) : T.Nearest p keyBeg c where
  child := hc
  le_last := hle
  first d hd hdl := by
    have := h d hd hdl
    rcases T.child_disjoint hc hd with h | h | h
    · exact Or.inl h.symm
    · exact Or.inr h
    · omega

/-- Of an entry and a chain, the nearer one is taken, and of two alike the chain. -/
theorem nearer_cases (keyBeg : Nat) (a c : ι) :
    T.nearer keyBeg (some a) (some c) = some c ∧ (T.key c ≤ T.key a ∨ T.key c ≤ keyBeg) ∨
      T.nearer keyBeg (some a) (some c) = some a ∧ T.key a < T.key c := by
  rw [Topology.nearer]
  split
  · exact Or.inl ⟨rfl, by omega⟩
  · split
    · exact Or.inl ⟨rfl, by omega⟩
    · exact Or.inr ⟨rfl, by omega⟩

section
variable (hbeg : keyBeg ≤ keyEnd) (hend : keyEnd < keySpace)
include hbeg hend

/-- What the two searches of `hammer2_combined_find` return. -/
theorem combinedFind_searches : ∃ (x y : Option ι) (k : Nat),
    T.combinedFind p keyBeg keyEnd = ((T.nearer keyBeg x y).filter fun c => T.key c ≤ keyEnd, k) ∧
    (∀ a, x = some a → some a ∈ T.base p ∧ keyBeg ≤ T.last a ∧ keyLimit k ≤ T.last a + 1) ∧
    (∀ c, y = some c → c ∈ T.rbtree p ∧ keyBeg ≤ T.last c ∧ T.key c ≤ keyEnd ∧
      keyLimit k ≤ T.last c + 1) ∧
    (∀ d, some d ∈ T.base p → keyBeg ≤ T.last d → ∃ a, x = some a ∧ (d = a ∨ T.last a < T.key d)) ∧
    (∀ d ∈ T.rbtree p, keyBeg ≤ T.last d → T.key d ≤ keyEnd →
      ∃ c, y = some c ∧ (d = c ∨ T.last c < T.key d)) ∧
    k < keySpace ∧ keyBeg < keyLimit k := by
  have h0 : (keyEnd + 1) % keySpace < keySpace := Nat.mod_lt _ (by decide)
  have h1 : keyBeg < keyLimit ((keyEnd + 1) % keySpace) := by
    rw [keyLimit_mod (by omega) hend]
    omega
  obtain ⟨hb1, hb2, -, hb4⟩ := T.baseFind_advances (p := p) h0 h1
  obtain ⟨y, k, hfind, ⟨hk, hlt, hle, hy⟩, hmem, hfirst⟩ := T.chainFind_spec (p := p) hb1 hb2
  refine ⟨(T.baseFind p ((keyEnd + 1) % keySpace) keyBeg).1, y, k, ?_, fun a ha => ?_,
    fun c hc => ?_, fun d hd hdl => T.baseFind_first hd hdl, hfirst, hk, hlt⟩
  · rw [Topology.combinedFind, hfind]
  · obtain ⟨h2, h3⟩ := T.baseFind_mem ha
    exact ⟨h2, h3, hle.trans (hb4 a ha)⟩
  · obtain ⟨h2, h3, h4⟩ := hmem c hc
    exact ⟨h2, h3, h4, hy c hc⟩

/-- The child that `hammer2_combined_find` returns is the nearest one, and the next key lies past
`keyBeg` and not past the end of that child. -/
theorem combinedFind_some (h : T.combinedFind p keyBeg keyEnd = (some c, keyNext)) :
    T.Nearest p keyBeg c ∧ T.key c ≤ keyEnd ∧ keyNext < keySpace ∧ keyBeg < keyLimit keyNext ∧
      keyLimit keyNext ≤ T.last c + 1 := by
  obtain ⟨x, y, k, heq, hx, hy, hxf, hyf, hk, hlt⟩ := T.combinedFind_searches (p := p) hbeg hend
  obtain ⟨hsel, rfl⟩ := Prod.mk.inj (heq.symm.trans h)
  obtain ⟨hsel, hce⟩ : T.nearer keyBeg x y = some c ∧ T.key c ≤ keyEnd := by
    simpa [Option.filter_eq_some_iff] using hsel
  have hlast := T.key_le_last
  -- Children in memory that begin past the range need no comparison.
  have hmem : ∀ e, T.key e ≤ keyEnd → (∀ b, y = some b → T.key e ≤ T.key b ∨ T.key e ≤ keyBeg) →
      ∀ d ∈ T.rbtree p, keyBeg ≤ T.last d → T.key e ≤ T.last d := by
    intro e he hey d hd hdl
    by_cases hde : T.key d ≤ keyEnd
    · obtain ⟨b, hb, hdb⟩ := hyf d hd hdl hde
      have := hlast d
      have := hlast b
      rcases hey b hb with h | h <;> rcases hdb with rfl | hdb <;> omega
    · have := hlast d
      omega
  cases x with
  | none =>
    subst hsel
    obtain ⟨h1, h2, -, h4⟩ := hy c rfl
    refine ⟨.of_key_le T (Or.inl h1) h2 fun d hd hdl => ?_, hce, hk, hlt, h4⟩
    rcases hd with hd | ⟨hd, -⟩
    · exact hmem c hce (by rintro b ⟨⟩; exact Or.inl le_rfl) d hd hdl
    · obtain ⟨a, ⟨⟩, -⟩ := hxf d hd hdl
  | some a =>
    obtain ⟨ha1, ha2, ha3⟩ := hx a rfl
    have hbase : ∀ d, some d ∈ T.base p → keyBeg ≤ T.last d → T.key a ≤ T.last d := by
      intro d hd hdl
      obtain ⟨b, ⟨⟩, rfl | hlt⟩ := hxf d hd hdl
      · exact hlast d
      · exact (hlast a).trans (hlt.le.trans (hlast d))
    -- An array entry is chosen only if no chain in memory shadows it.
    have hchild : T.key a ≤ keyEnd → (∀ b, y = some b → T.key a < T.key b) → T.Child p a := by
      intro hae hay
      refine Or.inr ⟨ha1, fun d hd hda => ?_⟩
      have := T.last_eq_of_shadow ha1 hd hda.symm
      obtain ⟨b, hb, rfl | hdb⟩ := hyf d hd (by omega) (by omega)
      · exact absurd (hay d hb) (by omega)
      · exact absurd (hay b hb) (by have := hlast b; omega)
    cases y with
    | none =>
      obtain rfl : a = c := Option.some.inj hsel
      refine ⟨.of_key_le T (hchild hce (by simp)) ha2 fun d hd hdl => ?_, hce, hk, hlt, ha3⟩
      exact hd.elim (fun hd => hmem a hce (by simp) d hd hdl) fun hd => hbase d hd.1 hdl
    | some b =>
      obtain ⟨hb1, hb2, hb3, hb4⟩ := hy b rfl
      rcases T.nearer_cases keyBeg a b with ⟨heq, hkey⟩ | ⟨heq, hkey⟩
      · obtain rfl : b = c := Option.some.inj (heq.symm.trans hsel)
        refine ⟨.of_key_le T (Or.inl hb1) hb2 fun d hd hdl => ?_, hce, hk, hlt, hb4⟩
        rcases hd with hd | ⟨hd, -⟩
        · exact hmem b hce (by rintro e ⟨⟩; exact Or.inl le_rfl) d hd hdl
        · have := hbase d hd hdl
          omega
      · obtain rfl : a = c := Option.some.inj (heq.symm.trans hsel)
        have hab : ∀ e, some b = some e → T.key a < T.key e := by
          rintro e ⟨⟩
          exact hkey
        refine ⟨.of_key_le T (hchild hce hab) ha2 fun d hd hdl => ?_, hce, hk, hlt, ha3⟩
        exact hd.elim (fun hd => hmem a hce (fun e he => Or.inl (hab e he).le) d hd hdl)
          fun hd => hbase d hd.1 hdl

/-- If `hammer2_combined_find` finds nothing, no child meets the range. -/
theorem combinedFind_none (h : T.combinedFind p keyBeg keyEnd = (none, keyNext)) (hc : T.Child p c)
    (hle : keyBeg ≤ T.last c) : keyEnd < T.key c := by
  obtain ⟨x, y, k, heq, hx, hy, hxf, hyf, -⟩ := T.combinedFind_searches (p := p) hbeg hend
  obtain ⟨hsel, -⟩ := Prod.mk.inj (heq.symm.trans h)
  have hout : ∀ e, T.nearer keyBeg x y = some e → keyEnd < T.key e := by
    simpa [Option.filter_eq_none_iff] using hsel
  have hlast := T.key_le_last
  -- A chain in memory was found within the range, so the nearer of the two is within it.
  have hy : y = none := by
    cases y with
    | none => rfl
    | some b =>
      obtain ⟨-, -, hb, -⟩ := hy b rfl
      cases x with
      | none => exact absurd (hout b rfl) (by omega)
      | some a =>
        rcases T.nearer_cases keyBeg a b with ⟨heq, -⟩ | ⟨heq, hkey⟩
        · exact absurd (hout b heq) (by omega)
        · exact absurd (hout a heq) (by omega)
  subst hy
  rcases hc with hc | ⟨hc, -⟩
  · by_contra hce
    obtain ⟨b, ⟨⟩, -⟩ := hyf c hc hle (by omega)
  · obtain ⟨a, rfl, rfl | hlt⟩ := hxf c hc hle
    · exact hout c rfl
    · have := hout a rfl
      have := hlast a
      omega

end

/-! ## Loading a chain

A lookup that selects an array entry has `hammer2_chain_get` make its chain and insert it in the
`rbtree`. The merged view stays as it is, so the searches need not carry that state. -/

section
variable [DecidableEq ι]

/-- The `rbtree` of `p` once `hammer2_chain_get` has inserted `a`, in the order of the keys. -/
def inserted (T : ChainTree ι) (p a : ι) : List ι :=
  (T.rbtree p).filter (fun d => T.key d < T.key a) ++
    a :: (T.rbtree p).filter fun d => T.key a < T.key d

/-- The topology after that insertion. -/
def loaded (T : ChainTree ι) (p a : ι) : Topology ι :=
  { T.toTopology with rbtree := Function.update T.rbtree p (T.inserted p a) }

variable (ha : some a ∈ T.base p) (hs : ∀ d ∈ T.rbtree p, T.key d ≠ T.key a)
include ha hs

omit [DecidableEq ι] ha in
theorem mem_inserted : c ∈ T.inserted p a ↔ c = a ∨ c ∈ T.rbtree p := by
  have := hs c
  simp only [inserted, List.mem_append, List.mem_cons, List.mem_filter, decide_eq_true_eq]
  grind

omit [DecidableEq ι] in
/-- The tree stays sorted. -/
theorem inserted_sorted : (T.inserted p a).Pairwise fun a b => T.last a < T.key b := by
  have hsep : ∀ d ∈ T.rbtree p, (T.key d < T.key a → T.last d < T.key a) ∧
      (T.key a < T.key d → T.last a < T.key d) := by
    intro d hd
    have hdl := T.key_le_last d
    have hal := T.key_le_last a
    have := (T.shadow p a d ha hd).resolve_left fun h => hs d hd h.1.symm
    omega
  simp only [inserted, List.pairwise_append, List.pairwise_cons, List.mem_cons, List.mem_filter,
    decide_eq_true_eq]
  refine ⟨(T.rbtree_sorted p).filter _, ⟨fun d hd => (hsep d hd.1).2 hd.2,
    (T.rbtree_sorted p).filter _⟩, ?_⟩
  rintro c hc d (rfl | hd)
  · exact (hsep c hc.1).1 hc.2
  · exact ((hsep c hc.1).1 hc.2).trans hd.2

omit ha in
theorem mem_loaded {q : ι} :
    c ∈ (T.loaded p a).rbtree q ↔ q = p ∧ c = a ∨ c ∈ T.rbtree q := by
  by_cases hq : q = p
  · subst hq
    simp only [loaded, Function.update_self, T.mem_inserted hs, true_and]
  · simp only [loaded, Function.update_of_ne hq, hq, false_and, false_or]

/-- The children of the merged view are the same. -/
theorem loaded_child (q : ι) : (T.loaded p a).Child q c ↔ T.Child q c := by
  simp only [Topology.Child, T.mem_loaded hs]
  constructor
  · rintro ((⟨rfl, rfl⟩ | hc) | ⟨hc, hcs⟩)
    · exact Or.inr ⟨ha, hs⟩
    · exact Or.inl hc
    · exact Or.inr ⟨hc, fun d hd => hcs d (Or.inr hd)⟩
  · rintro (hc | ⟨hc, hcs⟩)
    · exact Or.inl (Or.inr hc)
    · by_cases hq : q = p ∧ c = a
      · exact Or.inl (Or.inl hq)
      · refine Or.inr ⟨hc, ?_⟩
        rintro d (⟨rfl, rfl⟩ | hd) heq
        · have hdl := T.key_le_last d
          have hcl := T.key_le_last c
          change T.key d = T.key c at heq
          rcases T.child_disjoint (Or.inr ⟨hc, hcs⟩) (Or.inr ⟨ha, hs⟩) with h | h | h
          · exact hq ⟨rfl, h⟩
          · omega
          · omega
        · exact hcs d hd heq

/-- `hammer2_chain_get` keeps the representation invariant. -/
def load : ChainTree ι where
  toTopology := T.loaded p a
  root_indirect := T.root_indirect
  root_top q h := T.root_top q ((T.loaded_child ha hs q).1 h)
  base_fits := T.base_fits
  rbtree_fits q c hc := by
    rcases (T.mem_loaded hs).1 hc with ⟨rfl, rfl⟩ | hc
    · exact T.base_fits q c ha
    · exact T.rbtree_fits q c hc
  base_sorted := T.base_sorted
  rbtree_sorted q := by
    by_cases hq : q = p
    · subst hq
      simp only [loaded, Function.update_self]
      exact T.inserted_sorted ha hs
    · simp only [loaded, Function.update_of_ne hq]
      exact T.rbtree_sorted q
  shadow q b c hb hc := by
    rcases (T.mem_loaded hs).1 hc with ⟨rfl, rfl⟩ | hc
    · rcases eq_or_rel_of_sorted (T.base_sorted q) (T.mem_base.2 hb) (T.mem_base.2 ha) with rfl | h
      · exact Or.inl ⟨rfl, rfl⟩
      · exact Or.inr h
    · exact T.shadow q b c hb hc
  base_live q b hb hbs :=
    T.base_live q b hb fun d hd => hbs d ((T.mem_loaded hs).2 (Or.inr hd))
  parent_eq q c h := T.parent_eq q c ((T.loaded_child ha hs q).1 h)
  inside q c hi h := T.inside q c hi ((T.loaded_child ha hs q).1 h)

end

end ChainTree

end Hammer2
