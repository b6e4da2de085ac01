import Mathlib

/-!
# The first maximum of a scan

A scan over the indices below `n` that keeps, among those with a property, the first one whose key
is largest: a later index replaces the kept one only if its key is strictly larger.
`firstMax_eq_some_iff` says which index that is. The choice survives the loss of any other candidate
(`firstMax_of_subset`), and a candidate with a strictly larger key is chosen (`firstMax_of_lt`).
-/

namespace Select

variable {κ : Type*} [LinearOrder κ]

/-- The first index below `n` with the property `ok` whose key is largest. -/
def firstMax (ok : Nat → Prop) [DecidablePred ok] (key : Nat → κ) : Nat → Option Nat
  | 0 => none
  | n + 1 =>
    if ok n then
      match firstMax ok key n with
      | none => some n
      | some z => if key z < key n then some n else some z
    else firstMax ok key n

variable {ok ok' : Nat → Prop} [DecidablePred ok] [DecidablePred ok']
    {key key' : Nat → κ} {n z : Nat}

/-- Nothing is selected if nothing qualifies. -/
theorem firstMax_eq_none_iff : firstMax ok key n = none ↔ ∀ i < n, ¬ ok i := by
  induction n with
  | zero => simp [firstMax]
  | succ n ih =>
    rw [firstMax]
    split
    · next hn =>
      refine ⟨fun h => ?_, fun h => absurd hn (h n (Nat.lt_succ_self n))⟩
      split at h
      · cases h
      · split at h <;> cases h
    · next hn =>
      rw [ih]
      refine ⟨fun h i hi => ?_, fun h i hi => h i (Nat.lt_succ_of_lt hi)⟩
      rcases Nat.lt_succ_iff_lt_or_eq.1 hi with hi | rfl
      · exact h i hi
      · exact hn

/-- The chosen index is a candidate; no candidate has a larger key, and none before it an equal
one. -/
theorem firstMax_spec (h : firstMax ok key n = some z) :
    z < n ∧ ok z ∧ (∀ i < n, ok i → key i ≤ key z) ∧ ∀ i < z, ok i → key i < key z := by
  induction n generalizing z with
  | zero => cases h
  | succ n ih =>
    rw [firstMax] at h
    split at h
    · next hn =>
      split at h
      · next hnone =>
        cases h
        have hno := firstMax_eq_none_iff.1 hnone
        refine ⟨Nat.lt_succ_self _, hn, fun i hi hoki => ?_, fun i hi hoki =>
          absurd hoki (hno i hi)⟩
        rcases Nat.lt_succ_iff_lt_or_eq.1 hi with hi | rfl
        · exact absurd hoki (hno i hi)
        · exact le_rfl
      · next y hy =>
        obtain ⟨hyn, hoky, hle, hlt⟩ := ih hy
        split at h
        · next hk =>
          cases h
          refine ⟨Nat.lt_succ_self _, hn, fun i hi hoki => ?_, fun i hi hoki =>
            (hle i hi hoki).trans_lt hk⟩
          rcases Nat.lt_succ_iff_lt_or_eq.1 hi with hi | rfl
          · exact (hle i hi hoki).trans hk.le
          · exact le_rfl
        · next hk =>
          cases h
          refine ⟨Nat.lt_succ_of_lt hyn, hoky, fun i hi hoki => ?_, hlt⟩
          rcases Nat.lt_succ_iff_lt_or_eq.1 hi with hi | rfl
          · exact hle i hi hoki
          · exact not_lt.1 hk
    · next hn =>
      obtain ⟨hzn, hokz, hle, hlt⟩ := ih h
      refine ⟨Nat.lt_succ_of_lt hzn, hokz, fun i hi hoki => ?_, hlt⟩
      rcases Nat.lt_succ_iff_lt_or_eq.1 hi with hi | rfl
      · exact hle i hi hoki
      · exact absurd hoki hn

/-- What is selected has the largest key, and is the first of those. -/
theorem firstMax_eq_some_iff : firstMax ok key n = some z ↔
    z < n ∧ ok z ∧ (∀ i < n, ok i → key i ≤ key z) ∧ ∀ i < z, ok i → key i < key z := by
  refine ⟨firstMax_spec, fun ⟨hz, hokz, hle, hlt⟩ => ?_⟩
  cases h : firstMax ok key n with
  | none => exact absurd hokz (firstMax_eq_none_iff.1 h z hz)
  | some y =>
    obtain ⟨hy, hoky, hle', hlt'⟩ := firstMax_spec h
    rcases Nat.lt_trichotomy y z with hyz | rfl | hyz
    · exact absurd (hlt y hyz hoky) (not_lt.2 (hle' z hz hokz))
    · rfl
    · exact absurd (hlt' z hyz hokz) (not_lt.2 (hle y hy hoky))

/-- The choice stays when other candidates are lost. -/
theorem firstMax_of_subset (h : firstMax ok key n = some z) (hz : ok' z)
    (hsub : ∀ i, ok' i → ok i) (hkey : ∀ i, ok' i → key' i = key i) :
    firstMax ok' key' n = some z := by
  obtain ⟨hzn, -, hle, hlt⟩ := firstMax_spec h
  refine firstMax_eq_some_iff.2 ⟨hzn, hz, fun i hi hoki => ?_, fun i hi hoki => ?_⟩
  · rw [hkey i hoki, hkey z hz]
    exact hle i hi (hsub i hoki)
  · rw [hkey i hoki, hkey z hz]
    exact hlt i hi (hsub i hoki)

/-- A candidate whose key is strictly larger than every other one's is chosen. -/
theorem firstMax_of_lt (hz : z < n) (hokz : ok z) (hlt : ∀ i < n, i ≠ z → ok i → key i < key z) :
    firstMax ok key n = some z := by
  refine firstMax_eq_some_iff.2 ⟨hz, hokz, fun i hi hoki => ?_, fun i hi hoki =>
    hlt i (Nat.lt_trans hi hz) (Nat.ne_of_lt hi) hoki⟩
  rcases eq_or_ne i z with rfl | hne
  · exact le_rfl
  · exact (hlt i hi hne hoki).le

end Select
