import Hammer2.Chain.Split

/-!
# The range chosen for a new indirect block

For a directory, `hammer2_chain_indkey_dir` grows a range until it holds every child and the key to
be created, and takes the half with more children; `DirInv` is what its scan maintains. For a file,
`hammer2_chain_indkey_file` takes the narrowest child and adds a fixed radix.

Reference: `hammer2_chain.c:4538-4828`.
-/

namespace Hammer2

variable {ε : Type*}

/-- The key and radix to be created are free in `P` and, if it is an indirect block, inside of
it. -/
structure FullParent.Creates (P : FullParent ε) (key bits : Nat) : Prop where
  aligned : 2 ^ bits ∣ key
  fits : key + 2 ^ bits ≤ keySpace
  disjoint : ∀ c ∈ P.children, c.last < key ∨ key + 2 ^ bits - 1 < c.key
  inside : P.indirect = true → P.key ≤ key ∧ key + 2 ^ bits - 1 ≤ P.last

/-! ## Files -/

/-- The scan of a file's children ends with the smallest radix and a child that has it. -/
theorem foldl_fileStep (l : List (Bref ε)) (s : Nat × Nat) :
    (l.foldl fileStep s).2 ≤ s.2 ∧ (∀ d ∈ l, (l.foldl fileStep s).2 ≤ d.keybits) ∧
      (l.foldl fileStep s = s ∨ ∃ c ∈ l, l.foldl fileStep s = (c.key, c.keybits)) := by
  induction l generalizing s with
  | nil => exact ⟨le_rfl, by simp, Or.inl rfl⟩
  | cons b l ih =>
    have hstep : (fileStep s b).2 ≤ s.2 ∧ (fileStep s b).2 ≤ b.keybits ∧
        (fileStep s b = s ∨ fileStep s b = (b.key, b.keybits)) := by
      unfold fileStep
      split
      · exact ⟨by omega, le_rfl, Or.inr rfl⟩
      · split
        · rename_i h
          exact ⟨le_rfl, h.1.le, Or.inr (by rw [h.1])⟩
        · exact ⟨le_rfl, by omega, Or.inl rfl⟩
    obtain ⟨h1, h2, h3⟩ := hstep
    obtain ⟨h4, h5, h6⟩ := ih (fileStep s b)
    rw [List.foldl_cons]
    refine ⟨h4.trans h1, fun d hd => ?_, ?_⟩
    · rcases List.mem_cons.1 hd with rfl | hd
      · exact h4.trans h2
      · exact h5 d hd
    · rcases h6 with h6 | ⟨c, hc, h6⟩
      · rw [h6]
        exact h3.imp_right fun h => ⟨b, List.mem_cons_self, h⟩
      · exact Or.inr ⟨c, List.mem_cons_of_mem _ hc, h6⟩

/-- The radix of a node's table is at most 9. -/
theorem nradix_bounds {n r : Nat} (h : nradix n = some r) : 0 < r ∧ r ≤ 9 := by
  unfold nradix at h
  split at h <;> simp at h <;> omega

namespace FullParent
variable (P : FullParent ε) {createKey createBits : Nat} {c : Bref ε}

/-- `c` is a child of the smallest radix. -/
def Narrowest (P : FullParent ε) (c : Bref ε) : Prop :=
  c ∈ P.children ∧ ∀ d ∈ P.children, c.keybits ≤ d.keybits

/-- `hammer2_chain_indkey_file` returns the block around a narrowest child. -/
theorem indkeyFile_eq (createKey : Nat) : ∃ c, P.Narrowest c ∧
    indkeyFile P.children createKey P.ncount =
      (nradix P.ncount).map fun r => (c.key, c.keybits + r) := by
  obtain ⟨-, h2, h3⟩ := foldl_fileStep P.children (createKey, 64)
  have hpos : 0 < P.children.length := by
    have := P.full
    have := P.four_le_count
    omega
  obtain ⟨c, hc, hfold⟩ : ∃ c ∈ P.children,
      P.children.foldl fileStep (createKey, 64) = (c.key, c.keybits) := by
    refine h3.resolve_left fun h => ?_
    obtain ⟨d, hd⟩ := List.exists_mem_of_length_pos hpos
    have := h2 d hd
    have := (P.aligned d hd).2.2
    rw [h] at *
    omega
  refine ⟨c, ⟨hc, fun d hd => by simpa [hfold] using h2 d hd⟩, ?_⟩
  rw [indkeyFile, P.scan_children, Option.bind_some]
  simp only [hfold]
  cases hr : nradix P.ncount with
  | none => rfl
  | some r =>
    have := nradix_bounds hr
    simp only [Option.map_some]
    rw [if_neg (by omega)]

/-- A file's split is possible: the narrowest child's radix and the new block's own add up to a
radix of the key space, and under an indirect block to less than the parent's. -/
def FileFits (P : FullParent ε) : Prop :=
  ∃ r c, nradix P.ncount = some r ∧ P.Narrowest c ∧ c.keybits + r ≤ 63 ∧
    (P.indirect = true → c.keybits + r < P.keybits)

/-- Children as wide as the block around a narrowest child lie outside of it. -/
theorem Narrowest.outside {P : FullParent ε} (hc : P.Narrowest c) {r : Nat} (hr : 0 < r)
    {d : Bref ε} (hd : d ∈ P.children) (hle : c.keybits + r ≤ d.keybits) :
    d.last < c.key / 2 ^ (c.keybits + r) * 2 ^ (c.keybits + r) ∨
      c.key / 2 ^ (c.keybits + r) * 2 ^ (c.keybits + r) + 2 ^ (c.keybits + r) - 1 < d.key := by
  have hkey : d.key / 2 ^ d.keybits * 2 ^ d.keybits = d.key := Nat.div_mul_cancel (P.aligned d hd).1
  have hblock : c.key / 2 ^ (c.keybits + r) * 2 ^ (c.keybits + r) / 2 ^ d.keybits =
      c.key / 2 ^ d.keybits :=
    Radix.div_eq_of_le hle (Nat.mul_div_cancel _ (Nat.two_pow_pos _))
  -- Otherwise `d` would hold the block, and with it `c`.
  have hne : c.key / 2 ^ d.keybits ≠ d.key / 2 ^ d.keybits := by
    intro h
    have hin := Radix.inside (P.aligned c hc.1).1 (by omega : c.keybits ≤ d.keybits) h
    rw [hkey] at hin
    have := c.key_le_last
    rcases P.child_disjoint hc.1 hd with rfl | h | h <;> unfold Bref.last at * <;> omega
  have hout := Radix.outside (Dvd.intro_left _ rfl) hle (hblock ▸ hne)
  rw [hkey] at hout
  exact hout.symm

end FullParent

/-! ## Directories -/

/-- The radix grows to the first one at which the two keys share a block. -/
theorem growRadix_spec {key bkey : Nat} (hk : key < keySpace) (hb : bkey < keySpace) (f n : Nat)
    (hn : n ≤ 64) (hf : 64 ≤ f + n) :
    n ≤ growRadix key bkey f n ∧ growRadix key bkey f n ≤ 64 ∧
      key / 2 ^ growRadix key bkey f n = bkey / 2 ^ growRadix key bkey f n ∧
      ∀ r, n ≤ r → key / 2 ^ r = bkey / 2 ^ r → growRadix key bkey f n ≤ r := by
  have h64 : key / 2 ^ 64 = bkey / 2 ^ 64 := (Nat.div_eq_of_lt hk).trans (Nat.div_eq_of_lt hb).symm
  induction f generalizing n with
  | zero =>
    obtain rfl : n = 64 := by omega
    exact ⟨le_rfl, le_rfl, h64, fun r hr _ => hr⟩
  | succ f ih =>
    simp only [growRadix, ne_eq, rounddown2_xor_iff]
    split
    · rename_i h
      obtain ⟨h1, h2, h3, h4⟩ := ih (n + 1) (by omega) (by omega)
      refine ⟨by omega, h2, h3, fun r hr heq => h4 r ?_ heq⟩
      rcases hr.lt_or_eq with hlt | rfl
      · exact hlt
      · exact absurd heq h.2
    · rename_i h
      refine ⟨le_rfl, hn, ?_, fun r hr _ => hr⟩
      by_cases hlt : n < 64
      · exact not_not.1 fun hne => h ⟨hlt, hne⟩
      · obtain rfl : n = 64 := by omega
        exact h64

/-- What the scan of `hammer2_chain_indkey_dir` knows of the children `bs` it has visited: its range
is the least that holds them and the key, and the counts are those of its halves. -/
structure DirInv (key bits : Nat) (bs : List (Bref ε)) (s : DirScan) : Prop where
  bits_le : bits ≤ s.keybits
  le_64 : s.keybits ≤ 64
  child : ∀ b ∈ bs, b.keybits ≤ s.keybits ∧ b.key / 2 ^ s.keybits = key / 2 ^ s.keybits
  least : ∀ r, bits ≤ r → (∀ b ∈ bs, b.keybits ≤ r ∧ b.key / 2 ^ r = key / 2 ^ r) → s.keybits ≤ r
  pos : bs ≠ [] → 0 < s.keybits
  locount : s.locount = bs.countP fun b => !b.key.testBit (s.keybits - 1)
  hicount : s.hicount = bs.countP fun b => b.key.testBit (s.keybits - 1)

section
variable {key bits : Nat} {bs : List (Bref ε)} {s : DirScan} {b : Bref ε}

/-- Every blockref is counted on one side. -/
theorem DirInv.total (h : DirInv key bits bs s) : s.locount + s.hicount = bs.length := by
  rw [h.locount, h.hicount, Nat.add_comm,
    List.length_eq_countP_add_countP fun b : Bref ε => b.key.testBit (s.keybits - 1)]
  simp

/-- A wider range has every child visited in the half of the key. -/
theorem DirInv.countP_collapse (h : DirInv key bits bs s) {n : Nat}
    (hn : s.keybits < n) (t : Bool) :
    bs.countP (fun b => b.key.testBit (n - 1) == t) =
      if key.testBit (n - 1) = t then bs.length else 0 := by
  have hbit : ∀ b ∈ bs, b.key.testBit (n - 1) = key.testBit (n - 1) := fun b hb =>
    Radix.testBit_eq (h.child b hb).2 (by omega)
  split
  · rename_i heq
    rw [List.countP_eq_length]
    intro b hb
    rw [hbit b hb, heq, beq_self_eq_true]
  · rename_i hne
    rw [List.countP_eq_zero]
    intro b hb
    rw [hbit b hb]
    simpa using hne

/-- The counts after the range has grown to the radix `n`. -/
theorem DirInv.grow (h : DirInv key bits bs s) {n : Nat} (hn : s.keybits ≤ n) :
    let s' := if s.keybits ≠ n then { s.collapse (key.testBit (n - 1)) with keybits := n } else s
    s'.keybits = n ∧ (s'.locount = bs.countP fun b => !b.key.testBit (n - 1)) ∧
      s'.hicount = bs.countP fun b => b.key.testBit (n - 1) := by
  have htotal := h.total
  dsimp only
  split
  · rename_i hne
    have hlt : s.keybits < n := by omega
    have hhi := h.countP_collapse hlt true
    have hlo := h.countP_collapse hlt false
    simp only [beq_true, beq_false] at hhi hlo
    rw [hhi, hlo, DirScan.collapse]
    cases key.testBit (n - 1)
    · simp [htotal]
    · simp [← htotal, Nat.add_comm]
  · rename_i heq
    obtain rfl : s.keybits = n := not_not.1 heq
    exact ⟨rfl, h.locount, h.hicount⟩

/-- One more child. -/
theorem DirInv.step (h : DirInv key bits bs s) (hk : key < keySpace) (hb : b.Aligned)
    (hne : key ≠ b.key) : ∃ s', dirStep key s b = some s' ∧ DirInv key bits (bs ++ [b]) s' := by
  obtain ⟨-, hfit, hbits⟩ := hb
  have hbk : b.key < keySpace := by
    have := Nat.two_pow_pos b.keybits
    omega
  have h64 := h.le_64
  obtain ⟨h1, h2, h3, h4⟩ := growRadix_spec hk hbk 64 (max s.keybits b.keybits)
    (by omega) (by omega)
  rw [dirStep, if_neg (by omega)]
  refine ⟨_, rfl, ?_⟩
  generalize growRadix key b.key 64 (max s.keybits b.keybits) = n at h1 h2 h3 h4
  obtain ⟨hn, hlo, hhi⟩ := h.grow (n := n) (by omega)
  dsimp only at hn hlo hhi ⊢
  generalize (if s.keybits ≠ n then
    { s.collapse (key.testBit (n - 1)) with keybits := n } else s) = s'
    at hn hlo hhi ⊢
  have hpos : 0 < n := by
    rcases Nat.eq_zero_or_pos n with rfl | hpos
    · simp at h3
      exact absurd h3 hne
    · exact hpos
  -- The new counts differ from the old in the half of `b` only.
  have hkey : ∀ c ∈ bs ++ [b], c.keybits ≤ n ∧ c.key / 2 ^ n = key / 2 ^ n := by
    intro c hc
    rcases List.mem_append.1 hc with hc | hc
    · obtain ⟨h5, h6⟩ := h.child c hc
      exact ⟨by omega, Radix.div_eq_of_le (by omega) h6⟩
    · obtain rfl := List.mem_singleton.1 hc
      exact ⟨by omega, h3.symm⟩
  have hleast : ∀ r, bits ≤ r → (∀ c ∈ bs ++ [b], c.keybits ≤ r ∧ c.key / 2 ^ r = key / 2 ^ r) →
      n ≤ r := by
    intro r hr hall
    have h5 := h.least r hr fun c hc => hall c (List.mem_append_left _ hc)
    obtain ⟨h6, h7⟩ := hall b (List.mem_append_right _ List.mem_cons_self)
    exact h4 r (by omega) h7.symm
  have hcb := h.bits_le
  cases hbit : b.key.testBit (n - 1)
  · refine ⟨?_, ?_, ?_, ?_, fun _ => ?_, ?_, ?_⟩ <;> simp only [Bool.false_eq_true, if_false, hn]
    · omega
    · exact h2
    · exact hkey
    · exact hleast
    · exact hpos
    · simp [hlo, hbit]
    · simp [hhi, hbit]
  · refine ⟨?_, ?_, ?_, ?_, fun _ => ?_, ?_, ?_⟩ <;> simp only [if_true, hn]
    · omega
    · exact h2
    · exact hkey
    · exact hleast
    · exact hpos
    · simp [hlo, hbit]
    · simp [hhi, hbit]

/-- The whole scan. -/
theorem DirInv.foldlM (h : DirInv key bits bs s) (hk : key < keySpace) {l : List (Bref ε)}
    (hl : ∀ b ∈ l, b.Aligned ∧ key ≠ b.key) :
    ∃ s', l.foldlM (dirStep key) s = some s' ∧ DirInv key bits (bs ++ l) s' := by
  induction l generalizing bs s with
  | nil => exact ⟨s, rfl, by simpa using h⟩
  | cons b l ih =>
    obtain ⟨hb, hne⟩ := hl b List.mem_cons_self
    obtain ⟨s₁, hs₁, h₁⟩ := h.step hk hb hne
    obtain ⟨s₂, hs₂, h₂⟩ := ih h₁ fun c hc => hl c (List.mem_cons_of_mem _ hc)
    refine ⟨s₂, ?_, by simpa using h₂⟩
    rw [List.foldlM_cons, hs₁]
    exact hs₂

/-- Widening to hold `ncount` elements does nothing, or it puts every child on the key's side. -/
theorem expandRadix_cases (key ncount f : Nat) (s : DirScan) :
    expandRadix key ncount f s = s ∨
      s.keybits < (expandRadix key ncount f s).keybits ∧
      2 ^ ((expandRadix key ncount f s).keybits - 1) < ncount ∧
      (expandRadix key ncount f s).locount + (expandRadix key ncount f s).hicount =
        s.locount + s.hicount ∧
      if key.testBit (expandRadix key ncount f s).keybits then
        (expandRadix key ncount f s).locount = 0
      else (expandRadix key ncount f s).hicount = 0 := by
  induction f generalizing s with
  | zero => exact Or.inl rfl
  | succ f ih =>
    rw [expandRadix]
    split
    · rename_i hlt
      right
      have hstep : ∀ t : DirScan,
          t = { s.collapse (key.testBit (s.keybits + 1)) with keybits := s.keybits + 1 } →
          t.keybits = s.keybits + 1 ∧ t.locount + t.hicount = s.locount + s.hicount ∧
            if key.testBit (s.keybits + 1) then t.locount = 0 else t.hicount = 0 := by
        rintro t rfl
        rw [DirScan.collapse]
        cases key.testBit (s.keybits + 1)
        · simp
        · simp [Nat.add_comm]
      obtain ⟨h1, h2, h3⟩ := hstep _ rfl
      generalize DirScan.mk (s.keybits + 1) _ _ = t at h1 h2 h3 ⊢
      rcases ih t with heq | ⟨h4, h5, h6, h7⟩
      · rw [heq, h1]
        exact ⟨by omega, by simpa using hlt, h2, h3⟩
      · exact ⟨by omega, h5, by omega, h7⟩
    · exact Or.inl rfl

end

/-- The half of the range that the counts select. -/
theorem halfKey_div (key k : Nat) (t : Bool) :
    (if t then key ||| 2 ^ k else rounddown2 key (2 ^ (k + 1))) / 2 ^ k =
      2 * (key / 2 ^ (k + 1)) + t.toNat := by
  have hk := Nat.two_pow_pos k
  cases t with
  | false =>
    rw [if_neg (by simp), rounddown2, Nat.pow_succ', ← Nat.mul_assoc, Nat.mul_div_cancel _ hk]
    simp [Nat.mul_comm]
  | true =>
    have hlt : 2 ^ k / 2 ^ (k + 1) = 0 := Nat.div_eq_of_lt (Nat.pow_lt_pow_succ (by decide))
    rw [if_pos rfl, Radix.half_eq_iff, Nat.or_div_two_pow, hlt]
    simp

namespace FullParent
variable (P : FullParent ε) {createKey createBits : Nat} {c : Bref ε}

/-- A node has at most 512 entries. -/
theorem ncount_le : P.ncount ≤ 512 := by
  have := P.count_le
  have hn : P.nbytes / blockrefBytes ≤ 512 := by
    unfold SplitParent.nbytes blockrefBytes indBytesMin indBytesNom
    split <;> omega
  unfold SplitParent.ncount
  split <;> omega

/-- A full indirect block covers more than one key. -/
theorem keybits_pos (hi : P.indirect = true) : 0 < P.keybits := by
  have h1 := P.full
  have h2 := P.four_le_count
  obtain ⟨c, hc⟩ := List.exists_mem_of_length_pos (by omega : 0 < P.children.length)
  exact Nat.zero_lt_of_lt (P.inside hi c hc).2.2

/-- A full indirect block covers at least twice as many keys as it has entries. -/
theorem ncount_le_half (hi : P.indirect = true) : P.ncount ≤ 2 ^ (P.keybits - 1) := by
  rw [SplitParent.ncount, if_pos (P.keybits_pos hi)]
  omega

/-- Keys inside an indirect parent share its block. -/
theorem div_eq_of_inside (hi : P.indirect = true) {x : Nat} (h1 : P.key ≤ x) (h2 : x ≤ P.last) :
    x / 2 ^ P.keybits = P.key / 2 ^ P.keybits := by
  have hkey : P.key / 2 ^ P.keybits * 2 ^ P.keybits = P.key := Nat.div_mul_cancel (P.range hi).1
  rw [Radix.div_eq_iff_mem, hkey]
  exact ⟨h1, h2⟩

variable {s : DirScan} {k : Nat}

/-- A child as wide as the whole range would hold the key to be created. -/
theorem keybits_lt_of_dirInv (hcr : P.Creates createKey createBits)
    (h : DirInv createKey createBits P.children s) (hc : c ∈ P.children) :
    c.keybits < s.keybits := by
  obtain ⟨hle, hdiv⟩ := h.child c hc
  refine hle.lt_of_ne fun heq => ?_
  rw [← heq] at hdiv
  have hmem := Radix.div_eq_iff_mem.1 hdiv.symm
  rw [Nat.div_mul_cancel (P.aligned c hc).1] at hmem
  have := Nat.two_pow_pos createBits
  rcases hcr.disjoint c hc with h | h <;> unfold Bref.last at * <;> omega

/-- A half of the range that one child fills holds no other. -/
theorem countP_half_le (h : DirInv createKey createBits P.children s) (hk : s.keybits = k + 1)
    (hc : c ∈ P.children) (hck : c.keybits = k) :
    P.children.countP (fun b => b.key.testBit k == c.key.testBit k) ≤ 1 := by
  have hall : ∀ b ∈ P.children.filter fun b => b.key.testBit k == c.key.testBit k, b = c := by
    intro b hb
    obtain ⟨hb, hbit⟩ := List.mem_filter.1 hb
    have hdiv : ∀ d ∈ P.children, d.key / 2 ^ (k + 1) = createKey / 2 ^ (k + 1) := fun d hd =>
      hk ▸ (h.child d hd).2
    have hsame : b.key / 2 ^ k = c.key / 2 ^ k := by
      rw [Radix.div_succ b.key, Radix.div_succ c.key, hdiv b hb, hdiv c hc, beq_iff_eq.1 hbit]
    have hmem := Radix.div_eq_iff_mem.1 hsame
    have hal := (P.aligned c hc).1
    rw [hck] at hal
    rw [Nat.div_mul_cancel hal] at hmem
    have := b.key_le_last
    rcases P.child_disjoint hb hc with h | h | h
    · exact h
    · omega
    · unfold Bref.last at *
      rw [hck] at h
      omega
  rw [List.countP_eq_length_filter]
  have hsort := P.sorted.filter fun b => b.key.testBit k == c.key.testBit k
  generalize P.children.filter _ = l at hall hsort
  match l, hall, hsort with
  | [], _, _ => simp
  | [_], _, _ => simp
  | x :: y :: _, hall, hsort =>
    have hx := hall x (by simp)
    have hy := hall y (by simp)
    have := List.rel_of_pairwise_cons hsort (List.mem_cons_self : y ∈ y :: _)
    have := c.key_le_last
    subst hx hy
    omega

/-- Under an indirect parent the range of the scan is no wider than the parent. -/
theorem keybits_le_of_dirInv (hcr : P.Creates createKey createBits)
    (h : DirInv createKey createBits P.children s) (hi : P.indirect = true) :
    s.keybits ≤ P.keybits ∧ createKey / 2 ^ P.keybits = P.key / 2 ^ P.keybits := by
  obtain ⟨h1, h2⟩ := hcr.inside hi
  have hpos := Nat.two_pow_pos createBits
  have hdiv := P.div_eq_of_inside hi h1 (by omega)
  refine ⟨h.least _ ?_ fun c hc => ?_, hdiv⟩
  · rw [← Nat.pow_le_pow_iff_right (a := 2) (by decide)]
    have := Nat.two_pow_pos P.keybits
    unfold SplitParent.last at h2
    omega
  · obtain ⟨h3, h4, h5⟩ := P.inside hi c hc
    exact ⟨h5.le, (P.div_eq_of_inside hi h3 (c.key_le_last.trans h4)).trans hdiv.symm⟩

/-- The half of the range with more children suits the parent. -/
theorem suits_half (hcr : P.Creates createKey createBits)
    (h : DirInv createKey createBits P.children s) (hk : s.keybits = k + 1) :
    P.Suits k (2 * (createKey / 2 ^ (k + 1)) + (decide (s.locount < s.hicount)).toNat) := by
  have h64 := h.le_64
  refine ⟨by omega, fun hi => ?_, fun c hc hle => ?_⟩
  · obtain ⟨hle, hdiv⟩ := P.keybits_le_of_dirInv hcr h hi
    refine ⟨by omega, hdiv ▸ Radix.div_eq_of_le (hk ▸ hle) ?_⟩
    exact (Radix.half_eq_iff.1 (Nat.mul_div_cancel _ (Nat.two_pow_pos k))).1
  · have hlt := P.keybits_lt_of_dirInv hcr h hc
    have hck : c.keybits = k := by omega
    have hout : c.key / 2 ^ k ≠ 2 * (createKey / 2 ^ (k + 1)) +
      (decide (s.locount < s.hicount)).toNat := by
      intro heq
      -- `c` fills the half with more children alone, so there are two children at most.
      have hone := P.countP_half_le h hk hc hck
      have hbit := (Radix.half_eq_iff.1 heq).2
      have hlo := h.locount
      have hhi := h.hicount
      rw [hk, Nat.add_sub_cancel] at hlo hhi
      have htotal := h.total
      have h1 := P.full
      have h2 := P.four_le_count
      rw [hbit] at hone
      by_cases hlt : s.locount < s.hicount
      · simp only [hlt, decide_true, beq_true] at hone
        omega
      · simp only [hlt, decide_false, beq_false] at hone
        omega
    exact Radix.outside (P.aligned c hc).1 hck.le hout

/-- A block widened around the key suits the parent. -/
theorem suits_expanded (hcr : P.Creates createKey createBits)
    (h : DirInv createKey createBits P.children s) (hk : s.keybits ≤ k)
    (hn : 2 ^ (k - 1) < P.ncount) : P.Suits k (createKey / 2 ^ k) := by
  refine ⟨?_, fun hi => ?_, fun c hc hle => ?_⟩
  · have : 2 ^ (k - 1) < 2 ^ 9 := hn.trans_le P.ncount_le
    have := (Nat.pow_lt_pow_iff_right (by decide)).1 this
    omega
  · have hpos := P.keybits_pos hi
    have hlt := (Nat.pow_lt_pow_iff_right (by decide)).1 (hn.trans_le (P.ncount_le_half hi))
    have hdiv := (P.keybits_le_of_dirInv hcr h hi).2
    refine ⟨by omega, hdiv ▸ Radix.div_eq_of_le (j := k) (by omega) ?_⟩
    exact Nat.mul_div_cancel _ (Nat.two_pow_pos k)
  · have := P.keybits_lt_of_dirInv hcr h hc
    omega

/-- The half of the range with more children has two of them or more. -/
theorem two_le_half (h : DirInv createKey createBits P.children s) (hk : s.keybits = k + 1) :
    2 ≤ (P.splitAt createKey k
      (2 * (createKey / 2 ^ (k + 1)) + (decide (s.locount < s.hicount)).toNat)).moved.length := by
  have hside : ∀ c ∈ P.children,
      decide
        (2 * (createKey / 2 ^ (k + 1)) + (decide (s.locount < s.hicount)).toNat = c.key / 2 ^ k) =
        (c.key.testBit k == decide (s.locount < s.hicount)) := by
    intro c hc
    have hdiv : c.key / 2 ^ (k + 1) = createKey / 2 ^ (k + 1) := hk ▸ (h.child c hc).2
    rw [Bool.eq_iff_iff, decide_eq_true_iff, eq_comm, Radix.half_eq_iff]
    simp [hdiv]
  have hlo := h.locount
  have hhi := h.hicount
  rw [hk, Nat.add_sub_cancel] at hlo hhi
  have htotal := h.total
  have h1 := P.full
  have h2 := P.four_le_count
  rw [splitAt, List.filter_congr hside, ← List.countP_eq_length_filter]
  by_cases hlt : s.locount < s.hicount
  · simp only [hlt, decide_true, beq_true]
    omega
  · simp only [hlt, decide_false, beq_false]
    omega

/-- A block widened around the key has every child. -/
theorem two_le_expanded (h : DirInv createKey createBits P.children s) (hk : s.keybits ≤ k) :
    2 ≤ (P.splitAt createKey k (createKey / 2 ^ k)).moved.length := by
  have hall : (P.splitAt createKey k (createKey / 2 ^ k)).moved = P.children :=
    List.filter_eq_self.2 fun c hc =>
      decide_eq_true (Radix.div_eq_of_le hk (h.child c hc).2).symm
  have h1 := P.full
  have h2 := P.four_le_count
  rw [hall]
  omega

/-- **The range for a directory** suits the parent, and two children or more are in it. -/
theorem indkeyDir_suits (hcr : P.Creates createKey createBits) :
    ∃ k keybits, indkeyDir P.children createKey createBits P.ncount = some (k, keybits) ∧
      P.Suits keybits (k / 2 ^ keybits) ∧
      2 ≤ (P.splitAt createKey keybits (k / 2 ^ keybits)).moved.length := by
  have hfits := hcr.fits
  have hpos := Nat.two_pow_pos createBits
  have hlen : 4 ≤ P.children.length := P.full.symm ▸ P.four_le_count
  have hinit : DirInv createKey createBits ([] : List (Bref ε)) ⟨createBits, 0, 0⟩ := by
    refine ⟨le_rfl, ?_, by simp, fun r hr _ => hr, by simp, rfl, rfl⟩
    exact (Nat.pow_le_pow_iff_right (a := 2) (by decide)).1 ((Nat.le_add_left _ _).trans hfits)
  have hchild : ∀ b ∈ P.children, b.Aligned ∧ createKey ≠ b.key := by
    refine fun b hb => ⟨P.aligned b hb, ?_⟩
    rintro rfl
    have := b.key_le_last
    rcases hcr.disjoint b hb with h | h <;> omega
  obtain ⟨s, hs, hinv⟩ := hinit.foldlM (by omega) hchild
  rw [List.nil_append] at hinv
  have htotal := hinv.total
  have hspos : 0 < s.keybits := hinv.pos fun h => by simp [h] at hlen
  rw [indkeyDir, P.scan_children, Option.bind_some, hs, Option.map_some]
  dsimp only
  have hexpand := expandRadix_cases createKey P.ncount 64 { s with keybits := s.keybits - 1 }
  generalize expandRadix createKey P.ncount 64 { s with keybits := s.keybits - 1 } = t at hexpand ⊢
  have hhalf := halfKey_div createKey t.keybits (t.locount < t.hicount)
  simp only [decide_eq_true_eq] at hhalf
  refine ⟨_, t.keybits, rfl, ?_⟩
  rw [hhalf]
  rcases hexpand with rfl | ⟨h1, h2, h3, h4⟩
  · exact ⟨P.suits_half (s := s) hcr hinv (Nat.sub_add_cancel hspos).symm,
      P.two_le_half (s := s) hinv (Nat.sub_add_cancel hspos).symm⟩
  · -- Every child is on the key's side, so that side is taken.
    dsimp only at h1 h3
    have hside : decide (t.locount < t.hicount) = createKey.testBit t.keybits := by
      cases hbit : createKey.testBit t.keybits <;> simp only [hbit] at h4 <;> simp at h4 ⊢ <;> omega
    rw [hside, ← Radix.div_succ]
    exact ⟨P.suits_expanded hcr hinv (by omega) h2, P.two_le_expanded hinv (by omega)⟩

/-! ## Both -/

/-- The block around a narrowest child suits the parent if its radix fits. -/
theorem Narrowest.suits {P : FullParent ε} (hc : P.Narrowest c) {r : Nat} (hr : 0 < r)
    (h63 : c.keybits + r ≤ 63) (hlt : P.indirect = true → c.keybits + r < P.keybits) :
    P.Suits (c.keybits + r) (c.key / 2 ^ (c.keybits + r)) := by
  refine ⟨h63, fun hi => ⟨hlt hi, ?_⟩, fun d hd hle => hc.outside hr hd hle⟩
  obtain ⟨h1, h2, -⟩ := P.inside hi c hc.1
  rw [← P.div_eq_of_inside hi h1 (c.key_le_last.trans h2)]
  exact Radix.div_eq_of_le (hlt hi).le (Nat.mul_div_cancel _ (Nat.two_pow_pos _))

/-- A split that is possible is made at a suitable block with a child in it, and with two if it is
for a directory. -/
theorem createIndirect_suits (hcr : P.Creates createKey createBits) {forType : ForType}
    (hfits : forType = .data → P.FileFits) :
    ∃ keybits q, createIndirect P.toSplitParent forType createKey createBits =
        some (P.splitAt createKey keybits q) ∧ P.Suits keybits q ∧
      (P.splitAt createKey keybits q).moved ≠ [] ∧
      (forType ≠ .data → 2 ≤ (P.splitAt createKey keybits q).moved.length) := by
  have hsome : ∀ k keybits, P.indkey forType createKey createBits = some (k, keybits) →
      P.Suits keybits (k / 2 ^ keybits) →
      createIndirect P.toSplitParent forType createKey createBits =
        some (P.splitAt createKey keybits (k / 2 ^ keybits)) := by
    intro k keybits hkey hs
    rcases P.createIndirect_eq hkey with ⟨hr, -⟩ | ⟨-, heq⟩
    · exact absurd hr (hs.preserves createKey).2
    · exact heq
  by_cases hdata : forType = .data
  · subst hdata
    obtain ⟨r, c', hr, hc', h63, hlt⟩ := hfits rfl
    obtain ⟨c, hc, heq⟩ := P.indkeyFile_eq createKey
    have hbits : c'.keybits = c.keybits := le_antisymm (hc'.2 c hc.1) (hc.2 c' hc'.1)
    rw [hbits] at h63 hlt
    have hkey : P.indkey .data createKey createBits = some (c.key, c.keybits + r) := by
      rw [SplitParent.indkey, heq, hr, Option.map_some]
    have hs := hc.suits (nradix_bounds hr).1 h63 hlt
    refine ⟨_, _, hsome _ _ hkey hs, hs, ?_, fun hne => absurd rfl hne⟩
    exact List.ne_nil_of_mem (List.mem_filter.2 ⟨hc.1, decide_eq_true rfl⟩)
  · obtain ⟨k, keybits, hkey, hs, htwo⟩ := P.indkeyDir_suits hcr
    have hdir : P.indkey forType createKey createBits =
        indkeyDir P.children createKey createBits P.ncount := by
      cases forType <;> simp_all [SplitParent.indkey]
    refine ⟨_, _, hsome _ _ (hdir.trans hkey) hs, hs, fun hnil => ?_, fun _ => htwo⟩
    rw [hnil] at htwo
    cases htwo

/-- A file's split that is made at a radix of the key space is possible. -/
theorem fileFits_of_createIndirect {s : Split ε}
    (h : createIndirect P.toSplitParent .data createKey createBits = some s)
    (h63 : s.keybits ≤ 63) : P.FileFits := by
  obtain ⟨c, hc, heq⟩ := P.indkeyFile_eq createKey
  cases hr : nradix P.ncount with
  | none =>
    rw [createIndirect, SplitParent.indkey, heq, hr] at h
    cases h
  | some r =>
    have hkey : P.indkey .data createKey createBits = some (c.key, c.keybits + r) := by
      rw [SplitParent.indkey, heq, hr, Option.map_some]
    have hpos := (nradix_bounds hr).1
    rcases P.createIndirect_eq hkey with ⟨-, hnone⟩ | ⟨hnot, hsome⟩
    · cases hnone.symm.trans h
    · obtain rfl := Option.some.inj (hsome.symm.trans h)
      refine ⟨r, c, hr, hc, h63, fun hi => Nat.lt_of_not_le fun hle => hnot ?_⟩
      exact ⟨hi, P.keybits_pos hi, by omega, Or.inr (Or.inr hle)⟩

/-- **Splitting a full node keeps the tree**, for directories always, for files exactly if the radix
of the narrowest child and the radix of the new block's own entries add up to at most 63 and, under
an indirect block, to less than the parent's. -/
theorem createIndirect_preserves_iff (hcr : P.Creates createKey createBits) (forType : ForType) :
    (∃ s, createIndirect P.toSplitParent forType createKey createBits = some s ∧ P.Preserves s) ↔
      (forType = .data → P.FileFits) := by
  constructor
  · rintro ⟨s, hs, hpres⟩ rfl
    exact P.fileFits_of_createIndirect hs hpres.keybits_le
  · intro hfits
    obtain ⟨keybits, q, heq, hs, -⟩ := P.createIndirect_suits hcr hfits
    exact ⟨_, heq, (hs.preserves createKey).1⟩

end FullParent

/-! ## Four blocks in a file's inode -/

/-- A file's inode with four children of one radix, `2 ^ 60` apart. -/
def fourBlocks (keybits : Nat) (h : keybits ≤ 58) : FullParent (Fin 4) where
  key := 0
  keybits := 0
  indirect := false
  directory := false
  count := 4
  children := [⟨0, keybits, 0⟩, ⟨2 ^ 60, keybits, 1⟩, ⟨2 * 2 ^ 60, keybits, 2⟩,
    ⟨3 * 2 ^ 60, keybits, 3⟩]
  full := rfl
  four_le_count := le_rfl
  count_le := by decide
  aligned := by
    have hdvd : 2 ^ keybits ∣ 2 ^ 60 := Nat.pow_dvd_pow 2 (by omega)
    have hle : 2 ^ keybits ≤ 2 ^ 58 := Nat.pow_le_pow_right (by decide) h
    simp only [List.mem_cons, List.not_mem_nil, or_false, Bref.Aligned]
    rintro c (rfl | rfl | rfl | rfl)
    · exact ⟨dvd_zero _, by dsimp only [keySpace]; omega, by dsimp only; omega⟩
    · exact ⟨hdvd, by dsimp only [keySpace]; omega, by dsimp only; omega⟩
    · exact ⟨hdvd.mul_left 2, by dsimp only [keySpace]; omega, by dsimp only; omega⟩
    · exact ⟨hdvd.mul_left 3, by dsimp only [keySpace]; omega, by dsimp only; omega⟩
  sorted := by
    have hle : 2 ^ keybits ≤ 2 ^ 58 := Nat.pow_le_pow_right (by decide) h
    have := Nat.two_pow_pos keybits
    simp only [List.pairwise_cons, List.mem_cons, List.not_mem_nil, or_false, forall_eq_or_imp,
      forall_eq, Bref.last, List.Pairwise.nil, IsEmpty.forall_iff, implies_true, and_true]
    omega
  top := fun _ => rfl
  range := by simp
  inside := by simp

/-- Four data blocks make room for a fifth. -/
theorem createIndirect_preserves_data :
    ∃ s, createIndirect (fourBlocks 16 (by decide)).toSplitParent .data (2 ^ 62) 16 = some s ∧
      (fourBlocks 16 (by decide)).Preserves s := by
  refine ((fourBlocks 16 (by decide)).createIndirect_preserves_iff ?_ .data).2 fun _ => ?_
  · exact ⟨by decide +kernel, by decide +kernel, by decide +kernel, by simp [fourBlocks]⟩
  · exact ⟨7, ⟨0, 16, 0⟩, by decide +kernel, ⟨by decide +kernel, by decide +kernel⟩, by decide,
      by simp [fourBlocks]⟩

/-- Four blocks of radix 58 get a block of radix 65. -/
theorem createIndirect_too_wide :
    (createIndirect (fourBlocks 58 le_rfl).toSplitParent .data (2 ^ 62) 16).map (·.keybits) =
      some 65 := by
  decide +kernel

end Hammer2
