import Mathlib

/-!
# Counting after a change in one place

A table that is changed in one place changes a sum over it by the new entry less the old one. Both
rules are stated with the two entries on opposite sides, so that they can be used for natural
numbers.
-/

namespace Count

variable {ι M : Type*} [DecidableEq ι] [AddCommMonoid M] {s : Finset ι} {i₀ : ι}

/-- The sums of two functions that differ at `i₀` only. -/
theorem sum_change {f g : ι → M} (hi : i₀ ∈ s) (h : ∀ i ∈ s, i ≠ i₀ → g i = f i) :
    ∑ i ∈ s, g i + f i₀ = ∑ i ∈ s, f i + g i₀ := by
  have hrest : ∑ i ∈ s.erase i₀, g i = ∑ i ∈ s.erase i₀, f i :=
    Finset.sum_congr rfl fun i hmem =>
      h i (Finset.mem_of_mem_erase hmem) (Finset.ne_of_mem_erase hmem)
  rw [← Finset.add_sum_erase s g hi, ← Finset.add_sum_erase s f hi, hrest, add_comm (g i₀),
    add_right_comm, add_comm (f i₀), add_right_comm]

/-- The numbers of elements with two properties that differ at `i₀` only. -/
theorem card_change {p q : ι → Prop} [DecidablePred p] [DecidablePred q] (hi : i₀ ∈ s)
    (h : ∀ i ∈ s, i ≠ i₀ → (q i ↔ p i)) :
    (s.filter q).card + (if p i₀ then 1 else 0) = (s.filter p).card + if q i₀ then 1 else 0 := by
  rw [Finset.card_filter, Finset.card_filter]
  exact sum_change hi fun i hmem hne => if_congr (h i hmem hne) rfl rfl

end Count
