import Hammer2.Chain.Indirect

/-!
# What a split preserves

The loops of the split visit the children in order (`scan_children`, `Stands.moveLoop_eq`). Whatever
range is chosen, the split keeps the tree if the children that are not narrower than the new block
lie outside of it (`FullParent.Suits.preserves`).

Reference: `hammer2_chain.c:3589-4174`, `hammer2_chain.c:4538-4828`.
-/

namespace Hammer2

/-- The range of a blockref is an aligned block of keys. -/
def Bref.Aligned {ε : Type*} (b : Bref ε) : Prop :=
  2 ^ b.keybits ∣ b.key ∧ b.key + 2 ^ b.keybits ≤ keySpace ∧ b.keybits < 64

/-- A full parent that meets the representation invariant. -/
structure FullParent (ε : Type*) extends SplitParent ε where
  full : children.length = count
  four_le_count : 4 ≤ count
  count_le : count ≤ 512
  aligned : ∀ c ∈ children, c.Aligned
  sorted : children.Pairwise fun a b => a.last < b.key
  top : indirect = false → keybits = 0
  range : indirect = true → 2 ^ keybits ∣ key ∧ key + 2 ^ keybits ≤ keySpace ∧ keybits < 64
  inside : indirect = true → ∀ c ∈ children,
    key ≤ c.key ∧ c.last ≤ toSplitParent.last ∧ c.keybits < keybits

section
variable {ε : Type*} {b : Bref ε} {l xs ys : List (Bref ε)} {keyBeg key keybits n : Nat}

theorem Bref.key_le_last (b : Bref ε) : b.key ≤ b.last := by
  have := Nat.two_pow_pos b.keybits
  unfold Bref.last
  omega

/-- The next key of the loops: it is past the child, or it has wrapped behind the last one. -/
theorem Bref.keyNext (hb : b.Aligned) :
    (b.key + 2 ^ b.keybits) % keySpace = b.last + 1 ∧ b.last + 1 < keySpace ∨
      (b.key + 2 ^ b.keybits) % keySpace = 0 ∧ b.last + 1 = keySpace := by
  obtain ⟨-, hfit, -⟩ := hb
  have := Nat.two_pow_pos b.keybits
  unfold Bref.last
  rcases hfit.lt_or_eq with h | h
  · exact Or.inl ⟨by rw [Nat.mod_eq_of_lt h]; omega, by omega⟩
  · exact Or.inr ⟨by rw [h, Nat.mod_self], by omega⟩

/-- A loop over the children has passed `xs` and has `ys` before it. -/
structure Stands (xs ys : List (Bref ε)) (keyBeg : Nat) : Prop where
  sorted : (xs ++ ys).Pairwise fun a b => a.last < b.key
  aligned : ∀ y ∈ ys, y.Aligned
  passed : ∀ x ∈ xs, x.last < keyBeg
  ahead : ∀ y ∈ ys, keyBeg ≤ y.last

/-- The search finds the first child not yet visited. -/
theorem Stands.find (h : Stands xs ys keyBeg) : findFrom (xs ++ ys) keyBeg = ys.head? := by
  rw [findFrom, List.find?_append, List.find?_eq_none.2 fun x hx => by simpa using h.passed x hx,
    Option.none_or]
  cases ys with
  | nil => rfl
  | cons y ys => simp [h.ahead y List.mem_cons_self]

/-- Children behind the scan may have gone. -/
theorem Stands.sublist {zs : List (Bref ε)} (h : Stands xs ys keyBeg) (hz : zs.Sublist xs) :
    Stands zs ys keyBeg :=
  ⟨h.sorted.sublist (hz.append_right ys), h.aligned, fun x hx => h.passed x (hz.subset hx), h.ahead⟩

/-- One round: the loop ends behind the last key, or it goes on behind the child it has visited. -/
theorem Stands.next (h : Stands xs (b :: ys) keyBeg) :
    (b.key + 2 ^ b.keybits) % keySpace = 0 ∧ ys = [] ∨
      (b.key + 2 ^ b.keybits) % keySpace ≠ 0 ∧
        Stands (xs ++ [b]) ys ((b.key + 2 ^ b.keybits) % keySpace) := by
  have hafter : ∀ y ∈ ys, b.last < y.key := fun y hy =>
    List.rel_of_pairwise_cons (List.pairwise_append.1 h.sorted).2.1 hy
  have haligned : ∀ y ∈ ys, y.Aligned := fun y hy => h.aligned y (List.mem_cons_of_mem _ hy)
  rcases Bref.keyNext (h.aligned b List.mem_cons_self) with ⟨hnext, -⟩ | ⟨hnext, hlast⟩
  · rw [hnext]
    refine Or.inr ⟨by omega, by simpa using h.sorted, haligned, fun x hx => ?_, fun y hy => ?_⟩
    · rcases List.mem_append.1 hx with hx | hx
      · have := h.passed x hx
        have := h.ahead b List.mem_cons_self
        omega
      · obtain rfl := List.mem_singleton.1 hx
        omega
    · exact (hafter y hy).trans_le y.key_le_last
  · refine Or.inl ⟨hnext, ?_⟩
    cases ys with
    | nil => rfl
    | cons y ys =>
      -- A child past the last key does not fit.
      have h1 := hafter y List.mem_cons_self
      have h2 := (haligned y List.mem_cons_self).2.1
      have := Nat.two_pow_pos y.keybits
      omega

/-- **The scan visits the children in order.** -/
theorem Stands.scan_eq (h : Stands xs ys keyBeg) (hn : ys.length < n) :
    scan (xs ++ ys) n keyBeg = some ys := by
  induction ys generalizing xs keyBeg n with
  | nil =>
    cases n with
    | zero => simp at hn
    | succ n => rw [scan, h.find]; rfl
  | cons y ys ih =>
    cases n with
    | zero => simp at hn
    | succ n =>
      rw [scan, h.find]
      dsimp only [List.head?_cons]
      rcases h.next with ⟨h0, rfl⟩ | ⟨h0, hnext⟩
      · rw [if_pos h0]
      · have hrec := ih hnext (Nat.lt_of_succ_lt_succ hn)
        rw [List.append_assoc, List.singleton_append] at hrec
        rw [if_neg h0, hrec]
        rfl

/-- The test for keys that agree above a bit. -/
theorem rounddown2_xor_iff {x y k : Nat} : rounddown2 (x ^^^ y) (2 ^ k) = 0 ↔
    x / 2 ^ k = y / 2 ^ k := by
  have := Nat.two_pow_pos k
  rw [rounddown2, Nat.mul_eq_zero, Radix.xor_div_eq_zero_iff]
  omega

/-- The move loop splits the children ahead by their first key. -/
theorem Stands.moveLoop_eq {m : List (Bref ε)} (h : Stands xs ys keyBeg) (hn : ys.length < n) :
    moveLoop key keybits n keyBeg (xs ++ ys, m) =
      some (xs ++ ys.filter fun c => key / 2 ^ keybits ≠ c.key / 2 ^ keybits,
        m ++ ys.filter fun c => key / 2 ^ keybits = c.key / 2 ^ keybits) := by
  induction ys generalizing xs keyBeg n m with
  | nil =>
    cases n with
    | zero => simp at hn
    | succ n => rw [moveLoop, h.find]; simp
  | cons y ys ih =>
    cases n with
    | zero => simp at hn
    | succ n =>
      rw [moveLoop, h.find]
      simp only [List.head?_cons, ne_eq, rounddown2_xor_iff]
      by_cases hin : key / 2 ^ keybits = y.key / 2 ^ keybits
      · -- The child is deleted from the parent, by its key.
        have herase : (xs ++ y :: ys).eraseP (fun c => c.key = y.key) = xs ++ ys := by
          rw [List.eraseP_append_right, List.eraseP_cons_of_pos (by simp)]
          intro x hx
          have hlt := (List.pairwise_append.1 h.sorted).2.2 x hx y List.mem_cons_self
          have := x.key_le_last
          simp only [decide_eq_true_eq]
          omega
        rw [if_neg (not_not.2 hin), herase]
        rcases h.next with ⟨h0, rfl⟩ | ⟨h0, hnext⟩
        · simp [h0, hin]
        · rw [if_neg h0, ih (hnext.sublist (List.sublist_append_left xs [y]))
            (Nat.lt_of_succ_lt_succ hn)]
          simp [hin]
      · rw [if_pos hin]
        rcases h.next with ⟨h0, rfl⟩ | ⟨h0, hnext⟩
        · simp [h0, hin]
        · have hrec := ih (m := m) hnext (Nat.lt_of_succ_lt_succ hn)
          rw [List.append_assoc, List.singleton_append] at hrec
          rw [if_neg h0, hrec]
          simp [hin]

end

/-- What is asked of a split of `P`. -/
structure SplitParent.Preserves {ε : Type*} (P : SplitParent ε) (s : Split ε) : Prop where
  keybits_le : s.keybits ≤ 63
  /-- Under an indirect block the new block is inside and strictly narrower. -/
  fits : P.indirect = true →
    P.key ≤ s.key ∧ s.key + 2 ^ s.keybits - 1 ≤ P.last ∧ s.keybits < P.keybits
  /-- Every child is wholly inside or wholly outside of the new block. -/
  whole : ∀ c ∈ P.children, s.key ≤ c.key ∧ c.last ≤ s.key + 2 ^ s.keybits - 1 ∨
    c.last < s.key ∨ s.key + 2 ^ s.keybits - 1 < c.key
  moved : ∀ c, c ∈ s.moved ↔
    c ∈ P.children ∧ s.key ≤ c.key ∧ c.last ≤ s.key + 2 ^ s.keybits - 1
  /-- What moves is strictly narrower than the new block. -/
  narrower : ∀ c ∈ s.moved, c.keybits < s.keybits
  /-- The elements below the parent and the new block are those of the parent before. -/
  reachable : (s.stay ++ s.moved).Perm P.children

namespace FullParent
variable {ε : Type*} (P : FullParent ε) {keybits q : Nat} {c d : Bref ε}

/-- The scan starts before all children. -/
theorem stands : Stands [] P.children 0 :=
  ⟨P.sorted, P.aligned, by simp, fun _ _ => Nat.zero_le _⟩

theorem scan_children : scan P.children 299999 0 = some P.children := by
  have h1 := P.full
  have h2 := P.count_le
  exact P.stands.scan_eq (by omega)

/-- The children of a full parent are disjoint. -/
theorem child_disjoint (hc : c ∈ P.children) (hd : d ∈ P.children) :
    c = d ∨ c.last < d.key ∨ d.last < c.key :=
  ChainTree.eq_or_rel_of_sorted P.sorted hc hd

/-- The split at the block `q` of radix `keybits`. -/
def splitAt (createKey keybits q : Nat) : Split ε where
  key := q * 2 ^ keybits
  keybits := keybits
  stay := P.children.filter fun c => q ≠ c.key / 2 ^ keybits
  moved := P.children.filter fun c => q = c.key / 2 ^ keybits
  inNew := createKey / 2 ^ keybits = q

/-- The parent refuses the block `q` of radix `keybits`. -/
def Refuses (P : FullParent ε) (keybits q : Nat) : Prop :=
  P.indirect = true ∧ 0 < P.keybits ∧ 0 < keybits ∧ (q * 2 ^ keybits < P.key ∨
    P.last < q * 2 ^ keybits + 2 ^ keybits - 1 ∨ P.keybits ≤ keybits)

/-- `hammer2_chain_create_indirect` on the range that an `indkey` function returns. -/
theorem createIndirect_eq {forType : ForType} {createKey createBits k : Nat}
    (h : P.indkey forType createKey createBits = some (k, keybits)) :
    P.Refuses keybits (k / 2 ^ keybits) ∧
        createIndirect P.toSplitParent forType createKey createBits = none ∨
      ¬ P.Refuses keybits (k / 2 ^ keybits) ∧
        createIndirect P.toSplitParent forType createKey createBits =
          some (P.splitAt createKey keybits (k / 2 ^ keybits)) := by
  have h1 := P.full
  have h2 := P.count_le
  have hmove : moveLoop (rounddown2 k (2 ^ keybits)) keybits 100000 0 (P.children, []) = _ :=
    P.stands.moveLoop_eq (by omega)
  have hdiv : rounddown2 k (2 ^ keybits) / 2 ^ keybits = k / 2 ^ keybits :=
    Nat.mul_div_cancel _ (Nat.two_pow_pos keybits)
  unfold createIndirect
  rw [h, Option.bind_some]
  dsimp only
  by_cases hr : P.Refuses keybits (k / 2 ^ keybits)
  · exact Or.inl ⟨hr, if_pos hr⟩
  · refine Or.inr ⟨hr, (if_neg hr).trans ?_⟩
    rw [hmove]
    simp only [hdiv, Option.map_some, List.nil_append, rounddown2_xor_iff]
    rfl

/-- The block `q` of radix `keybits` suits `P`: it is inside an indirect parent, and the children
that are not narrower than it lie outside of it. -/
structure Suits (P : FullParent ε) (keybits q : Nat) : Prop where
  keybits_le : keybits ≤ 63
  fit : P.indirect = true →
    keybits < P.keybits ∧ q * 2 ^ keybits / 2 ^ P.keybits = P.key / 2 ^ P.keybits
  wide : ∀ c ∈ P.children, keybits ≤ c.keybits →
    c.last < q * 2 ^ keybits ∨ q * 2 ^ keybits + 2 ^ keybits - 1 < c.key

/-- **A split at a suitable block keeps the tree**, and the parent does not refuse it. -/
theorem Suits.preserves {P : FullParent ε} (h : P.Suits keybits q) (createKey : Nat) :
    P.Preserves (P.splitAt createKey keybits q) ∧ ¬ P.Refuses keybits q := by
  -- The test by the first key tells the children inside from those outside.
  have htest : ∀ c ∈ P.children, q = c.key / 2 ^ keybits ∧ c.keybits < keybits ∧
        q * 2 ^ keybits ≤ c.key ∧ c.last ≤ q * 2 ^ keybits + 2 ^ keybits - 1 ∨
      q ≠ c.key / 2 ^ keybits ∧
        (c.last < q * 2 ^ keybits ∨ q * 2 ^ keybits + 2 ^ keybits - 1 < c.key) := by
    intro c hc
    have hal := (P.aligned c hc).1
    have hkl := c.key_le_last
    by_cases hlt : c.keybits < keybits
    · by_cases hq : q = c.key / 2 ^ keybits
      · exact Or.inl ⟨hq, hlt, Radix.inside hal hlt.le hq.symm⟩
      · exact Or.inr ⟨hq, Radix.outside hal hlt.le (Ne.symm hq)⟩
    · have hout := h.wide c hc (by omega)
      refine Or.inr ⟨fun hq => ?_, hout⟩
      have := Radix.div_eq_iff_mem.1 hq.symm
      omega
  have hin : P.indirect = true → P.key ≤ q * 2 ^ keybits ∧
      q * 2 ^ keybits + 2 ^ keybits - 1 ≤ P.last ∧ keybits < P.keybits := by
    intro hi
    obtain ⟨hlt, hq⟩ := h.fit hi
    have hkey : P.key / 2 ^ P.keybits * 2 ^ P.keybits = P.key := Nat.div_mul_cancel (P.range hi).1
    have := Radix.inside (Dvd.intro_left q rfl) hlt.le hq
    rw [hkey] at this
    exact ⟨this.1, this.2, hlt⟩
  refine ⟨⟨h.keybits_le, hin, fun c hc => ?_, fun c => ?_, fun c hc => ?_, ?_⟩, ?_⟩
  · rcases htest c hc with ⟨-, -, h⟩ | ⟨-, h⟩
    · exact Or.inl h
    · exact Or.inr h
  · simp only [splitAt, List.mem_filter, decide_eq_true_eq]
    refine and_congr_right fun hc => ?_
    have := c.key_le_last
    have := Nat.two_pow_pos keybits
    rcases htest c hc with ⟨h1, -, h2⟩ | ⟨h1, h2⟩
    · exact iff_of_true h1 h2
    · exact iff_of_false h1 (by omega)
  · obtain ⟨hmem, hq⟩ := List.mem_filter.1 hc
    rcases htest c hmem with ⟨-, h, -⟩ | ⟨h, -⟩
    · exact h
    · exact absurd (by simpa using hq) h
  · have hperm := List.filter_append_perm (fun c : Bref ε => decide (q ≠ c.key / 2 ^ keybits))
      P.children
    simpa [splitAt] using hperm
  · rintro ⟨hi, -, -, h⟩
    have := hin hi
    omega

end FullParent

end Hammer2
