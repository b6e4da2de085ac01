import Mathlib.Data.Nat.Bitwise
import Mathlib.Tactic.Ring
import Mathlib.Tactic.Linarith

/-!
# Aligned blocks of powers of two

The block of radix `k` that holds `a` is given by the quotient `a / 2 ^ k`. A block of radix `j ≤ k`
that begins at a multiple of `2 ^ j` lies wholly inside one block of radix `k` (`Radix.div_last`),
so it is inside or outside a given one by its first number alone (`Radix.inside`, `Radix.outside`).
A block of radix `k + 1` has two halves, told apart by bit `k` (`Radix.half_eq_iff`).
-/

namespace Radix

variable {a b j k q : Nat}

/-- Keys that agree above a bit agree above a higher one. -/
theorem div_eq_of_le (hjk : j ≤ k) (h : a / 2 ^ j = b / 2 ^ j) : a / 2 ^ k = b / 2 ^ k := by
  rw [← Nat.add_sub_cancel' hjk, Nat.pow_add, ← Nat.div_div_eq_div_mul, h, Nat.div_div_eq_div_mul]

/-- They have the same bits there. -/
theorem testBit_eq (h : a / 2 ^ j = b / 2 ^ j) {i : Nat} (hi : j ≤ i) :
    a.testBit i = b.testBit i := by
  obtain ⟨d, rfl⟩ := Nat.exists_eq_add_of_le hi
  rw [Nat.add_comm, ← Nat.testBit_div_two_pow, h, Nat.testBit_div_two_pow]

/-- The exclusive or of two numbers keeps nothing from bit `k` on exactly if they share the
block. -/
theorem xor_div_eq_zero_iff : (a ^^^ b) / 2 ^ k = 0 ↔ a / 2 ^ k = b / 2 ^ k := by
  rw [← Nat.shiftRight_eq_div_pow, Nat.shiftRight_xor_distrib, Nat.xor_eq_zero_iff,
    Nat.shiftRight_eq_div_pow, Nat.shiftRight_eq_div_pow]

/-- An aligned block of radix `j` ends in the block of radix `k` it begins in. -/
theorem div_last (ha : 2 ^ j ∣ a) (hjk : j ≤ k) : (a + 2 ^ j - 1) / 2 ^ k = a / 2 ^ k := by
  have hj := Nat.two_pow_pos j
  have hdiv : (a + 2 ^ j - 1) / 2 ^ j = a / 2 ^ j := by
    obtain ⟨m, rfl⟩ := ha
    rw [Nat.mul_div_cancel_left _ hj, Nat.div_eq_iff hj]
    constructor
    · rw [Nat.mul_comm]
      omega
    · rw [Nat.mul_comm]
  exact div_eq_of_le hjk hdiv

/-- The keys of an aligned range. -/
theorem div_eq_iff_mem : a / 2 ^ k = q ↔ q * 2 ^ k ≤ a ∧ a ≤ q * 2 ^ k + 2 ^ k - 1 := by
  have hk := Nat.two_pow_pos k
  rw [Nat.div_eq_iff hk]

/-- An aligned block that begins in the block `q` of a larger or equal radix lies inside it. -/
theorem inside (ha : 2 ^ j ∣ a) (hjk : j ≤ k) (hq : a / 2 ^ k = q) :
    q * 2 ^ k ≤ a ∧ a + 2 ^ j - 1 ≤ q * 2 ^ k + 2 ^ k - 1 :=
  ⟨(div_eq_iff_mem.1 hq).1, (div_eq_iff_mem.1 ((div_last ha hjk).trans hq)).2⟩

/-- One that begins outside of it lies outside. -/
theorem outside (ha : 2 ^ j ∣ a) (hjk : j ≤ k) (hq : a / 2 ^ k ≠ q) :
    a + 2 ^ j - 1 < q * 2 ^ k ∨ q * 2 ^ k + 2 ^ k - 1 < a := by
  have hk := Nat.two_pow_pos k
  rcases Nat.lt_or_gt_of_ne hq with hlt | hgt
  · rw [← div_last ha hjk, Nat.div_lt_iff_lt_mul hk] at hlt
    exact Or.inl hlt
  · rw [gt_iff_lt, ← Nat.succ_le_iff, Nat.le_div_iff_mul_le hk, Nat.succ_mul] at hgt
    exact Or.inr (by omega)

/-- The blocks of radix `k` in one block of radix `k + 1`. -/
theorem div_succ (a k : Nat) : a / 2 ^ k = 2 * (a / 2 ^ (k + 1)) + (a.testBit k).toNat := by
  rw [Nat.pow_succ, ← Nat.div_div_eq_div_mul, Nat.toNat_testBit]
  omega

/-- The keys of one half of an aligned range. -/
theorem half_eq_iff {t : Bool} :
    a / 2 ^ k = 2 * (b / 2 ^ (k + 1)) + t.toNat ↔
      a / 2 ^ (k + 1) = b / 2 ^ (k + 1) ∧ a.testBit k = t := by
  rw [div_succ a k]
  cases a.testBit k <;> cases t <;> simp <;> omega

end Radix
