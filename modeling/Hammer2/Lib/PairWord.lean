import Mathlib

/-!
# Machine words as rows of two-bit pairs

A word of `w` bits is read as a row of pairs, pair `k` in the bits `2 * k` and `2 * k + 1`. The
operations a bitmap performs on such a row are all masks: a run of set bits tested with `&`, set
with `|`, or one bit of one pair cleared with `& ~`. Each lemma here says what a mask operation does
to the pairs (`pairAt`), so that a development about a bitmap never opens a word.
-/

namespace PairWord

variable {w : Nat}

/-- The pair at position `k` of a word. -/
def pairAt (x : BitVec w) (k : Nat) : BitVec 2 := x.extractLsb' (2 * k) 2

/-- The word whose low `n` bits are set. A shift by the word's own width is not taken: the all-ones
word is written for it, as portable C has to. -/
def lowMask (w n : Nat) : BitVec w := if n = w then BitVec.allOnes w else (1#w <<< n) - 1#w

/-- The run of `n` set bits that starts at bit `j`, cut at the width of the word. -/
def runMask (w j n : Nat) : BitVec w := lowMask w n <<< j

/-! ## Bits of the masks -/

variable {n i j m k a : Nat} {x : BitVec w} {p : BitVec 2}

theorem toNat_lowMask (h : n ≤ w) : (lowMask w n).toNat = 2 ^ n - 1 := by
  unfold lowMask
  split
  · next hn => subst hn; simp
  · next hn =>
    have hlt : n < w := by omega
    have hpow : 2 ^ n < 2 ^ w := Nat.pow_lt_pow_right (by decide) hlt
    have hone : (1 : Nat) < 2 ^ w := Nat.one_lt_two_pow (by omega)
    have hpos : 0 < 2 ^ n := Nat.two_pow_pos n
    have hsh : (1#w <<< n).toNat = 2 ^ n := by
      rw [BitVec.toNat_shiftLeft, BitVec.toNat_ofNat, Nat.mod_eq_of_lt hone, Nat.one_shiftLeft,
        Nat.mod_eq_of_lt hpow]
    rw [BitVec.toNat_sub, hsh, BitVec.toNat_ofNat, Nat.mod_eq_of_lt hone]
    have : 2 ^ w - 1 + 2 ^ n = 2 ^ n - 1 + 2 ^ w := by omega
    rw [this, Nat.add_mod_right, Nat.mod_eq_of_lt (by omega)]

/-- A bit of the low mask is set exactly below its length. -/
theorem getLsbD_lowMask (h : n ≤ w) : (lowMask w n).getLsbD i = decide (i < n) := by
  rw [BitVec.getLsbD, toNat_lowMask h, Nat.testBit_two_pow_sub_one]

/-- A bit of a run is set exactly inside the run and inside the word. -/
theorem getLsbD_runMask (h : n ≤ w) :
    (runMask w j n).getLsbD i = decide (j ≤ i ∧ i < j + n ∧ i < w) := by
  rw [runMask, BitVec.getLsbD_shiftLeft, getLsbD_lowMask h, Bool.eq_iff_iff]
  simp only [Bool.and_eq_true, decide_eq_true_eq, Bool.not_eq_true', decide_eq_false_iff_not]
  omega

/-- Shifting a run moves it. -/
theorem runMask_shiftLeft : runMask w j n <<< m = runMask w (j + m) n := by
  rw [runMask, runMask, BitVec.shiftLeft_add]

theorem runMask_zero : runMask w 0 n = lowMask w n := by
  simp [runMask]

/-- One pair's mask, as the literal `3` shifted into place. -/
theorem three_shiftLeft (h : 2 < w) : 3#w <<< j = runMask w j 2 := by
  have h3 : 3#w = lowMask w 2 := by
    apply BitVec.eq_of_toNat_eq
    have : 2 ^ 2 < 2 ^ w := Nat.pow_lt_pow_right (by decide) h
    rw [toNat_lowMask (by omega), BitVec.toNat_ofNat, Nat.mod_eq_of_lt (by omega)]
    rfl
  rw [runMask, h3]

/-! ## Pairs and bits -/

theorem pairAt_getLsbD :
    (pairAt x k).getLsbD i = (decide (i < 2) && x.getLsbD (2 * k + i)) := by
  rw [pairAt, BitVec.getLsbD_extractLsb']

/-- Two pairs agree when their two bits do. -/
theorem pairAt_eq_iff :
    pairAt x k = p ↔ x.getLsbD (2 * k) = p.getLsbD 0 ∧ x.getLsbD (2 * k + 1) = p.getLsbD 1 := by
  constructor
  · rintro rfl
    rw [pairAt_getLsbD, pairAt_getLsbD]
    exact ⟨rfl, rfl⟩
  · rintro ⟨h0, h1⟩
    apply BitVec.eq_of_getLsbD_eq
    intro i hi
    rw [pairAt_getLsbD]
    obtain rfl | rfl : i = 0 ∨ i = 1 := by omega
    · simp [h0]
    · simp [h1]

theorem pairAt_eq_zero_iff :
    pairAt x k = 0#2 ↔ x.getLsbD (2 * k) = false ∧ x.getLsbD (2 * k + 1) = false := by
  rw [pairAt_eq_iff]; simp

theorem pairAt_eq_three_iff :
    pairAt x k = 3#2 ↔ x.getLsbD (2 * k) = true ∧ x.getLsbD (2 * k + 1) = true := by
  rw [pairAt_eq_iff]; rfl

/-- Two pairs with the same bits are equal. -/
theorem pairAt_congr {y : BitVec w} {l : Nat} (h0 : x.getLsbD (2 * k) = y.getLsbD (2 * l))
    (h1 : x.getLsbD (2 * k + 1) = y.getLsbD (2 * l + 1)) : pairAt x k = pairAt y l := by
  rw [pairAt_eq_iff, pairAt_getLsbD, pairAt_getLsbD]
  simp [h0, h1]

@[simp] theorem pairAt_zero : pairAt (0#w) k = 0#2 := by
  rw [pairAt_eq_zero_iff]; simp

theorem pairAt_allOnes (h : 2 * k + 1 < w) : pairAt (BitVec.allOnes w) k = 3#2 := by
  rw [pairAt_eq_three_iff]
  simp only [BitVec.getLsbD_allOnes, decide_eq_true_eq]
  omega

/-! ## What a mask operation does to the pairs -/

/-- The bits of a run that fits the word, as a disjoint test: no bit of `x` in the run is set. -/
theorem and_runMask_eq_zero_iff_bits (h : j + n ≤ w) :
    x &&& runMask w j n = 0#w ↔ ∀ i, j ≤ i → i < j + n → x.getLsbD i = false := by
  have hbit : ∀ i, (x &&& runMask w j n).getLsbD i =
      (x.getLsbD i && decide (j ≤ i ∧ i < j + n ∧ i < w)) := by
    intro i
    rw [BitVec.getLsbD_and, getLsbD_runMask (by omega)]
  constructor
  · intro h0 i h1 h2
    have := hbit i
    rw [h0, BitVec.getLsbD_zero, decide_eq_true ⟨h1, h2, by omega⟩, Bool.and_true] at this
    exact this.symm
  · intro hall
    apply BitVec.eq_of_getLsbD_eq
    intro i _
    rw [hbit, BitVec.getLsbD_zero, Bool.and_eq_false_iff, decide_eq_false_iff_not]
    by_cases hin : j ≤ i ∧ i < j + n
    · exact Or.inl (hall i hin.1 hin.2)
    · exact Or.inr (by omega)

/-- A bit position is one of the two of its pair. -/
theorem getLsbD_eq_pairAt :
    x.getLsbD i = (pairAt x (i / 2)).getLsbD (i % 2) := by
  rw [pairAt_getLsbD, decide_eq_true (Nat.mod_lt i (by decide)), Bool.true_and,
    Nat.div_add_mod]

/-- A run of pairs tests free exactly when each of its pairs is `00`. -/
theorem and_runMask_eq_zero_iff (h : 2 * (a + m) ≤ w) :
    x &&& runMask w (2 * a) (2 * m) = 0#w ↔ ∀ k, a ≤ k → k < a + m → pairAt x k = 0#2 := by
  rw [and_runMask_eq_zero_iff_bits (by omega)]
  constructor
  · intro hbits k hk1 hk2
    rw [pairAt_eq_zero_iff]
    exact ⟨hbits _ (by omega) (by omega), hbits _ (by omega) (by omega)⟩
  · intro hpairs i h1 h2
    rw [getLsbD_eq_pairAt, hpairs (i / 2) (by omega) (by omega), BitVec.getLsbD_zero]

/-- A bit after a run was set. -/
theorem getLsbD_or_runMask (h : n ≤ w) (hi : i < w) :
    (x ||| runMask w j n).getLsbD i = (x.getLsbD i || decide (j ≤ i ∧ i < j + n)) := by
  rw [BitVec.getLsbD_or, getLsbD_runMask h]
  simp only [hi, and_true]

/-- Setting a run of pairs makes each of its pairs `11` and keeps the others. -/
theorem pairAt_or_runMask (hm : 2 * m ≤ w) (hk : 2 * k + 1 < w) :
    pairAt (x ||| runMask w (2 * a) (2 * m)) k =
      if a ≤ k ∧ k < a + m then 3#2 else pairAt x k := by
  split
  · next h =>
    rw [pairAt_eq_three_iff, getLsbD_or_runMask hm (by omega), getLsbD_or_runMask hm hk,
      decide_eq_true (by omega), decide_eq_true (by omega)]
    simp
  · next h =>
    apply pairAt_congr
    · rw [getLsbD_or_runMask hm (by omega), decide_eq_false (by omega), Bool.or_false]
    · rw [getLsbD_or_runMask hm hk, decide_eq_false (by omega), Bool.or_false]

/-- One pair tests fully set exactly when it is `11`. -/
theorem and_runMask_eq_self_iff (h : 2 * (a + 1) ≤ w) :
    x &&& runMask w (2 * a) 2 = runMask w (2 * a) 2 ↔ pairAt x a = 3#2 := by
  have hbit : ∀ i, (runMask w (2 * a) 2).getLsbD i =
      decide (2 * a ≤ i ∧ i < 2 * a + 2 ∧ i < w) := fun i => getLsbD_runMask (by omega)
  constructor
  · intro heq
    have hset : ∀ i, 2 * a ≤ i → i < 2 * a + 2 → x.getLsbD i = true := by
      intro i h1 h2
      have := congrArg (fun y => BitVec.getLsbD y i) heq
      simp only [BitVec.getLsbD_and, hbit] at this
      rw [decide_eq_true ⟨h1, h2, by omega⟩, Bool.and_true] at this
      exact this
    rw [pairAt_eq_three_iff]
    exact ⟨hset _ (by omega) (by omega), hset _ (by omega) (by omega)⟩
  · intro h3
    apply BitVec.eq_of_getLsbD_eq
    intro i _
    rw [BitVec.getLsbD_and, hbit]
    by_cases hin : 2 * a ≤ i ∧ i < 2 * a + 2 ∧ i < w
    · have ha : i / 2 = a := by omega
      have hone : (3#2).getLsbD (i % 2) = true := by
        rcases Nat.mod_two_eq_zero_or_one i with h0 | h0 <;> rw [h0] <;> rfl
      rw [getLsbD_eq_pairAt, ha, h3, hone, Bool.true_and]
    · rw [decide_eq_false hin, Bool.and_false]

/-! ## Reading the lowest pair and clearing one bit of a pair -/

/-- Shifting a word right by a pair moves every pair down. -/
theorem pairAt_ushiftRight :
    pairAt (x >>> (2 * a)) k = pairAt x (a + k) := by
  apply pairAt_congr
  · rw [BitVec.getLsbD_ushiftRight, Nat.mul_add]
  · rw [BitVec.getLsbD_ushiftRight, Nat.mul_add, Nat.add_assoc]

/-- The two low bits of a word are its lowest pair. -/
theorem and_three_eq_iff (h : 2 < w) :
    x &&& 3#w = p.setWidth w ↔ pairAt x 0 = p := by
  have hbits : ∀ i, (3#w).getLsbD i = decide (i < 2) := by
    intro i
    have := getLsbD_runMask (w := w) (j := 0) (n := 2) (i := i) (by omega)
    rw [← three_shiftLeft h, BitVec.shiftLeft_zero] at this
    rw [this]
    exact decide_eq_decide.2 (by omega)
  rw [pairAt_eq_iff]
  constructor
  · intro heq
    have hbit : ∀ i, i < 2 → x.getLsbD i = p.getLsbD i := by
      intro i hi
      have := congrArg (fun y => BitVec.getLsbD y i) heq
      simp only [BitVec.getLsbD_and, hbits, BitVec.getLsbD_setWidth] at this
      rwa [decide_eq_true hi, Bool.and_true, decide_eq_true (show i < w by omega),
        Bool.true_and] at this
    exact ⟨hbit 0 (by decide), hbit 1 (by decide)⟩
  · rintro ⟨h0, h1⟩
    apply BitVec.eq_of_getLsbD_eq
    intro i hi
    rw [BitVec.getLsbD_and, hbits, BitVec.getLsbD_setWidth, decide_eq_true hi, Bool.true_and]
    by_cases hi2 : i < 2
    · rw [decide_eq_true hi2, Bool.and_true]
      obtain rfl | rfl : i = 0 ∨ i = 1 := by omega
      · exact h0
      · exact h1
    · rw [decide_eq_false hi2, Bool.and_false, BitVec.getLsbD_of_ge _ _ (by omega)]

/-- Masking with the complement of one shifted pair acts on that pair only. -/
theorem pairAt_and_not (hk : 2 * k + 1 < w) :
    pairAt (x &&& ~~~(p.setWidth w <<< (2 * a))) k =
      if k = a then pairAt x k &&& ~~~p else pairAt x k := by
  have hbit : ∀ i, i < w → (x &&& ~~~(p.setWidth w <<< (2 * a))).getLsbD i =
      (x.getLsbD i && !(decide (2 * a ≤ i) && p.getLsbD (i - 2 * a))) := by
    intro i hi
    rw [BitVec.getLsbD_and, BitVec.getLsbD_not, BitVec.getLsbD_shiftLeft,
      BitVec.getLsbD_setWidth, decide_eq_true hi, decide_eq_true (show i - 2 * a < w by omega)]
    by_cases h : i < 2 * a
    · rw [decide_eq_true h, decide_eq_false (by omega)]; simp
    · rw [decide_eq_false h, decide_eq_true (by omega)]; simp
  rw [pairAt_eq_iff, hbit _ (by omega), hbit _ hk]
  split
  · next heq =>
    subst heq
    rw [decide_eq_true (le_refl _), decide_eq_true (by omega), Nat.sub_self,
      show 2 * k + 1 - 2 * k = 1 by omega]
    simp only [BitVec.getLsbD_and, BitVec.getLsbD_not, pairAt_getLsbD]
    simp
  · next hne =>
    simp only [pairAt_getLsbD]
    by_cases hlt : a ≤ k
    · rw [BitVec.getLsbD_of_ge _ _ (show 2 ≤ 2 * k - 2 * a by omega),
        BitVec.getLsbD_of_ge _ _ (show 2 ≤ 2 * k + 1 - 2 * a by omega)]
      simp
    · rw [decide_eq_false (show ¬ 2 * a ≤ 2 * k by omega),
        decide_eq_false (show ¬ 2 * a ≤ 2 * k + 1 by omega)]
      simp

end PairWord
