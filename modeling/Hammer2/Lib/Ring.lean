import Mathlib

/-!
# Ring buffers with free-running counters

A ring keeps its entries in a memory of `2 ^ j` slots, between a read and a write counter of `w`
bits that are never reduced; the slot of a counter is its low `j` bits. `Holds j mem ri wi q` says
that the memory holds the queue `q`. Slots outside of the window are not restricted.

A ring that is full is made twice as large by moving the entries whose slot is another one under the
larger mask (`relocate`).
-/

namespace Ring

variable {w : Nat} {α : Type*}

/-- The slot of a counter. -/
def slot (k : BitVec w) (size : Nat) : Nat := (k &&& BitVec.ofNat w (size - 1)).toNat

/-- A slot is the index modulo the size. -/
theorem slot_eq (k : BitVec w) {j : Nat} (hj : j ≤ w) : slot k (2 ^ j) = k.toNat % 2 ^ j := by
  have hle : 2 ^ j ≤ 2 ^ w := Nat.pow_le_pow_right (by decide) hj
  have hpos := Nat.two_pow_pos j
  rw [slot, BitVec.toNat_and, BitVec.toNat_ofNat, Nat.mod_eq_of_lt (by omega),
    Nat.and_two_pow_sub_one_eq_mod]

/-- The slot of the i-th entry after an index. -/
theorem slot_add (k : BitVec w) (i : Nat) {j : Nat} (hj : j ≤ w) :
    slot (k + BitVec.ofNat w i) (2 ^ j) = (k.toNat + i) % 2 ^ j := by
  rw [slot_eq _ hj, BitVec.toNat_add, BitVec.toNat_ofNat, Nat.add_mod_mod,
    Nat.mod_mod_of_dvd _ (Nat.pow_dvd_pow 2 hj)]

/-- One index on, the entries move up by one. -/
theorem succ_add_mod (k : BitVec w) (i : Nat) {j : Nat} (hj : j ≤ w) :
    ((k + 1).toNat + i) % 2 ^ j = (k.toNat + (i + 1)) % 2 ^ j := by
  rw [← slot_add _ _ hj, ← slot_add _ _ hj, Nat.add_comm i 1, BitVec.ofNat_add, ← add_assoc]
  rfl

/-- Counters less than the size apart have different slots. -/
theorem slot_inj {a i i' j : Nat} (hi : i < 2 ^ j) (hi' : i' < 2 ^ j)
    (h : (a + i) % 2 ^ j = (a + i') % 2 ^ j) : i = i' := by
  have hmod : i ≡ i' [MOD 2 ^ j] := Nat.ModEq.add_left_cancel' a h
  exact Nat.ModEq.eq_of_lt_of_lt hmod hi hi'

/-- The memory holds the queue between the counters. -/
structure Holds (j : Nat) (mem : List α) (ri wi : BitVec w) (q : List α) : Prop where
  lt : j < w
  length : mem.length = 2 ^ j
  wi : wi = ri + BitVec.ofNat w q.length
  le : q.length ≤ 2 ^ j
  get : ∀ i < q.length, mem[(ri.toNat + i) % 2 ^ j]? = q[i]?

section
variable {j : Nat} {mem : List α} {ri wi : BitVec w} {q : List α}

/-- Distances up to the size are told apart. -/
theorem ofNat_inj {a b : Nat} (hj : j < w) (ha : a ≤ 2 ^ j) (hb : b ≤ 2 ^ j) :
    BitVec.ofNat w a = BitVec.ofNat w b ↔ a = b := by
  have hlt : 2 ^ j < 2 ^ w := Nat.pow_lt_pow_right (by decide) hj
  refine ⟨fun h => ?_, fun h => h ▸ rfl⟩
  have := congrArg BitVec.toNat h
  rwa [BitVec.toNat_ofNat, BitVec.toNat_ofNat, Nat.mod_eq_of_lt (by omega),
    Nat.mod_eq_of_lt (by omega)] at this

/-- An empty ring, wherever its counters are. -/
theorem Holds.nil (hj : j < w) (hm : mem.length = 2 ^ j) (k : BitVec w) : Holds j mem k k [] :=
  ⟨hj, hm, by simp, Nat.zero_le _, by simp⟩

/-- Equal indices mean an empty ring. -/
theorem Holds.empty_iff (h : Holds j mem ri wi q) : ri = wi ↔ q = [] := by
  rw [h.wi, left_eq_add, ← List.length_eq_zero_iff]
  exact ofNat_inj h.lt h.le (Nat.zero_le _)

/-- Indices one size apart mean a full ring. -/
theorem Holds.full_iff (h : Holds j mem ri wi q) :
    ri = wi - BitVec.ofNat w (2 ^ j) ↔ q.length = 2 ^ j := by
  rw [h.wi, eq_sub_iff_add_eq, add_right_inj, eq_comm]
  exact ofNat_inj h.lt h.le le_rfl

/-- The number of entries, as the counters have it. -/
theorem Holds.count (h : Holds j mem ri wi q) : (wi - ri).toNat = q.length := by
  have hlt : 2 ^ j < 2 ^ w := Nat.pow_lt_pow_right (by decide) h.lt
  have := h.le
  rw [h.wi, add_sub_cancel_left, BitVec.toNat_ofNat, Nat.mod_eq_of_lt (by omega)]

/-- Every slot lies in the memory. -/
theorem Holds.slot_lt (h : Holds j mem ri wi q) (k : BitVec w) : slot k (2 ^ j) < mem.length := by
  rw [slot_eq k h.lt.le, h.length]
  exact Nat.mod_lt _ (Nat.two_pow_pos j)

/-- An entry more, in the slot of the write counter. -/
theorem Holds.push (h : Holds j mem ri wi q) (hroom : q.length ≠ 2 ^ j) (a : α) :
    Holds j (mem.set (slot wi (2 ^ j)) a) ri (wi + 1) (q ++ [a]) := by
  have hle := h.le
  have hslot : slot wi (2 ^ j) = (ri.toNat + q.length) % 2 ^ j := by rw [h.wi, slot_add _ _ h.lt.le]
  refine ⟨h.lt, by rw [List.length_set, h.length], ?_, by simp; omega, fun i hi => ?_⟩
  · rw [h.wi, List.length_append, List.length_singleton, BitVec.ofNat_add, ← add_assoc]
    rfl
  · rw [List.length_append, List.length_singleton] at hi
    rw [hslot]
    by_cases heq : i = q.length
    · subst heq
      rw [List.getElem?_set_self (by rw [h.length]; exact Nat.mod_lt _ (Nat.two_pow_pos j)),
        List.getElem?_concat_length]
    · rw [List.getElem?_set_ne fun h => heq (slot_inj (by omega) (by omega) h).symm,
        h.get i (by omega), List.getElem?_append_left (by omega)]

/-- The first entry is in the slot of the read counter. -/
theorem Holds.pop {a : α} (h : Holds j mem ri wi (a :: q)) :
    mem[slot ri (2 ^ j)]? = some a ∧ Holds j mem (ri + 1) wi q := by
  have hlt : 2 ^ j < 2 ^ w := Nat.pow_lt_pow_right (by decide) h.lt
  have hle := h.le
  rw [List.length_cons] at hle
  refine ⟨?_, h.lt, h.length, ?_, by omega, fun i hi => ?_⟩
  · rw [slot_eq _ h.lt.le]
    exact h.get 0 (by simp)
  · rw [h.wi, List.length_cons, add_comm q.length, BitVec.ofNat_add, ← add_assoc]
    rfl
  · have hget := h.get (i + 1) (by simpa using hi)
    rwa [succ_add_mod ri i h.lt.le]

/-! ## Growth -/

/-- Moves the `n` entries from the counter `k` on from their slot under the smaller mask to that
under the larger one; `none` is an access outside of the memory. -/
def relocate (old new : Nat) : Nat → BitVec w → List α → Option (List α)
  | 0, _, mem => some mem
  | n + 1, k, mem =>
    if slot k old = slot k new then relocate old new n (k + 1) mem
    else
      match mem[slot k old]? with
      | none => none
      | some a =>
        if slot k new < mem.length then
          relocate old new n (k + 1) (mem.set (slot k new) a)
        else none

/-- A slot under the larger mask is that under the smaller one or lies in the upper half. -/
theorem mod_two_pow_succ (a j : Nat) :
    a % 2 ^ (j + 1) = a % 2 ^ j ∨ 2 ^ j ≤ a % 2 ^ (j + 1) := by
  have hpos := Nat.two_pow_pos j
  rcases Nat.lt_or_ge (a % 2 ^ (j + 1)) (2 ^ j) with hlt | hge
  · left
    rw [← Nat.mod_mod_of_dvd a (Nat.pow_dvd_pow 2 (Nat.le_succ j)), Nat.mod_eq_of_lt hlt]
  · exact Or.inr hge

/-- The move puts each entry where the larger mask looks for it, and touches no other slot. -/
theorem relocate_eq (hj : j + 1 ≤ w) {n : Nat} (hn : n ≤ 2 ^ j) (k : BitVec w)
    (hm : mem.length = 2 ^ (j + 1)) :
    ∃ mem', relocate (2 ^ j) (2 ^ (j + 1)) n k mem = some mem' ∧ mem'.length = 2 ^ (j + 1) ∧
      (∀ x, (∀ i < n, (k.toNat + i) % 2 ^ (j + 1) ≠ x) → mem'[x]? = mem[x]?) ∧
      ∀ i < n, mem'[(k.toNat + i) % 2 ^ (j + 1)]? = mem[(k.toNat + i) % 2 ^ j]? := by
  have hsucc : 2 ^ (j + 1) = 2 * 2 ^ j := by rw [Nat.pow_succ, Nat.mul_comm]
  have hpos := Nat.two_pow_pos j
  induction n generalizing k mem with
  | zero => exact ⟨mem, rfl, hm, fun _ _ => rfl, by simp⟩
  | succ n ih =>
    -- The memory after the first entry has it in its new slot and the lower half as it was.
    obtain ⟨mem₁, heq, hlen, hfirst, hlow, hother⟩ : ∃ mem₁ : List α,
        relocate (2 ^ j) (2 ^ (j + 1)) (n + 1) k mem =
          relocate (2 ^ j) (2 ^ (j + 1)) n (k + 1) mem₁ ∧
        mem₁.length = 2 ^ (j + 1) ∧ mem₁[k.toNat % 2 ^ (j + 1)]? = mem[k.toNat % 2 ^ j]? ∧
        (∀ x < 2 ^ j, mem₁[x]? = mem[x]?) ∧
        ∀ x, k.toNat % 2 ^ (j + 1) ≠ x → mem₁[x]? = mem[x]? := by
      have hlt : k.toNat % 2 ^ j < mem.length := by
        have := Nat.mod_lt k.toNat hpos
        omega
      have hlt' : k.toNat % 2 ^ (j + 1) < mem.length := by
        have := Nat.mod_lt k.toNat (Nat.two_pow_pos (j + 1))
        omega
      rw [relocate, slot_eq k (by omega : j ≤ w), slot_eq k hj]
      split
      · rename_i hsame
        exact ⟨mem, rfl, hm, by rw [← hsame], fun _ _ => rfl, fun _ _ => rfl⟩
      · rename_i hne
        have hup := (mod_two_pow_succ k.toNat j).resolve_left (Ne.symm hne)
        rw [List.getElem?_eq_getElem hlt]
        dsimp only
        refine ⟨_, rfl, by rw [List.length_set, hm], by rw [List.getElem?_set_self hlt'],
          fun x hx => List.getElem?_set_ne (by omega), fun x hx => List.getElem?_set_ne hx⟩
    obtain ⟨mem', hrun, hlen', hframe, hmoved⟩ := ih (by omega) (k + 1) hlen
    refine ⟨mem', heq.trans hrun, hlen', fun x hx => ?_, fun i hi => ?_⟩
    · rw [hframe x fun i hi => by rw [succ_add_mod k i hj]; exact hx (i + 1) (by omega)]
      exact hother x (by simpa using hx 0 (by omega))
    · cases i with
      | zero =>
        rw [Nat.add_zero, ← hfirst]
        refine hframe _ fun i hi hcl => ?_
        rw [succ_add_mod k i hj, ← Nat.add_zero k.toNat, Nat.add_assoc] at hcl
        have := slot_inj (by omega) (by omega) hcl
        omega
      | succ i =>
        rw [← succ_add_mod k i hj, ← succ_add_mod k i (by omega : j ≤ w), hmoved i (by omega)]
        exact hlow _ (Nat.mod_lt _ hpos)

/-- **A ring that has grown holds the same queue.** -/
theorem Holds.relocate (h : Holds j mem ri wi q) (hj : j + 1 < w) {mem' : List α}
    (hm : mem'.length = 2 ^ (j + 1)) (hcopy : ∀ x < 2 ^ j, mem'[x]? = mem[x]?) :
    ∃ mem'', relocate (2 ^ j) (2 ^ (j + 1)) (wi - ri).toNat ri mem' = some mem'' ∧
      Holds (j + 1) mem'' ri wi q := by
  have hle : 2 ^ j ≤ 2 ^ (j + 1) := Nat.pow_le_pow_right (by decide) (Nat.le_succ j)
  obtain ⟨mem'', heq, hlen, -, hmoved⟩ := relocate_eq hj.le h.le ri hm
  refine ⟨mem'', h.count ▸ heq, hj, hlen, h.wi, h.le.trans hle, fun i hi => ?_⟩
  rw [hmoved i hi, hcopy _ (Nat.mod_lt _ (Nat.two_pow_pos j)), h.get i hi]

end

end Ring
