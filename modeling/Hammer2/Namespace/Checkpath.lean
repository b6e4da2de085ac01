import Hammer2.Lib.Rooted
import Hammer2.Lib.Run

/-!
# Renaming directories keeps the tree

`hammer2_checkpath` follows the `iparent` fields from the target directory of a rename and refuses
the rename if it meets the directory that is moved. An inode that is in memory is read there, any
other by a lookup of its number in the index of the PFS. The walk ends because the fields lead to
the root (`DirTable.Tree`), and the renames that pass it keep this.

Reference: `hammer2_inode.c:553-577`, `hammer2_inode.c:1957-2039`, `hammer2_vnops.c:596-801`,
`hammer2_xops.c:655-672`, `hammer2_xops.c:798-837`.
-/

namespace Hammer2

/-- A lookup in the index that fails: the device, or a check code. -/
inductive ReadError
  | io
  | check
  deriving DecidableEq

/-- Its `errno`: `EIO` or `EDOM`. -/
def ReadError.errno : ReadError → Nat
  | .io => 5
  | .check => 33

/-- The `iparent` fields of the directories: of the inodes in memory, and of the inodes on the
media. -/
structure DirTable where
  mem : Nat → Option Nat
  media : Nat → Option Nat

namespace DirTable

/-- The newest `iparent`. An inode in memory was read from the media or is newer. -/
def newest (t : DirTable) (inum : Nat) : Option Nat := (t.mem inum).or (t.media inum)

/-- `hammer2_checkpath` from `inum` on, in at most `n` turns of its loop: 0, `EINVAL` (22) or the
error of a lookup. The target directory is an inode in memory, so its own chain is never asked; an
inode that is not in the index ends the walk as if the root had been reached. -/
def checkpath (t : DirTable) (fault : Nat → Option ReadError) (dip tdip : Nat) :
    Nat → Nat → Option Nat
  | 0, _ => none
  | n + 1, inum =>
    if inum = 1 then some 0
    else
      match if inum = tdip then some ((t.mem tdip).getD 0) else t.mem inum with
      | some iparent => if dip = iparent then some 22 else t.checkpath fault dip tdip n iparent
      | none =>
        match fault inum, t.media inum with
        | some e, _ => some e.errno
        | none, none => some 0
        | none, some iparent =>
          if dip = iparent then some 22 else t.checkpath fault dip tdip n iparent

/-- The newest fields lead from every directory to the root. -/
def Tree (t : DirTable) : Prop := ∀ d, (t.newest d).isSome → Rooted.Reaches t.newest 1 d

/-- `a` is an ancestor of `d`. -/
def Ancestor (t : DirTable) (a d : Nat) : Prop := Rooted.Ancestor t.newest 1 a d

/-! ## The walk -/

section
variable {t : DirTable} {fault : Nat → Option ReadError} {dip tdip inum : Nat}

/-- One turn at a directory other than the root: the walk goes on with the newest `iparent`, or a
lookup has failed. -/
theorem checkpath_succ (fault : Nat → Option ReadError) (dip : Nat) {p : Nat}
    (ht : (t.mem tdip).isSome) (hne : inum ≠ 1) (hp : t.newest inum = some p) :
    (∀ n, t.checkpath fault dip tdip (n + 1) inum =
        if dip = p then some 22 else t.checkpath fault dip tdip n p) ∨
      ∃ e, fault inum = some e ∧ ∀ n, t.checkpath fault dip tdip (n + 1) inum = some e.errno := by
  have hfirst : (if inum = tdip then some ((t.mem tdip).getD 0) else t.mem inum) = t.mem inum := by
    split
    · rename_i heq
      obtain ⟨q, hq⟩ := Option.isSome_iff_exists.1 ht
      rw [heq, hq, Option.getD_some]
    · rfl
  cases hm : t.mem inum with
  | some q =>
    obtain rfl : q = p := by simpa [newest, hm] using hp
    exact Or.inl fun n => by rw [checkpath, if_neg hne, hfirst, hm]
  | none =>
    have hmedia : t.media inum = some p := by simpa [newest, hm] using hp
    cases hf : fault inum with
    | none =>
      exact Or.inl fun n => by rw [checkpath, if_neg hne, hfirst, hm, hf, hmedia]
    | some e =>
      exact Or.inr ⟨e, rfl, fun n => by rw [checkpath, if_neg hne, hfirst, hm, hf]⟩

/-- More turns than needed do not change what the walk returns. -/
theorem checkpath_mono {n m r : Nat} (h : t.checkpath fault dip tdip n inum = some r)
    (hnm : n ≤ m) :
    t.checkpath fault dip tdip m inum = some r := by
  induction n generalizing inum m with
  | zero => cases h
  | succ n ih =>
    obtain ⟨m, rfl⟩ := Nat.exists_eq_add_of_le' hnm
    rw [← Nat.add_assoc, checkpath]
    rw [checkpath] at h
    have hturn : ∀ p, (if dip = p then some 22 else t.checkpath fault dip tdip n p) = some r →
        (if dip = p then some 22 else t.checkpath fault dip tdip (m + n) p) = some r := by
      intro p hp
      split at hp
      · rename_i heq
        rwa [if_pos heq]
      · rename_i hne
        rw [if_neg hne, ih hp (Nat.le_add_left n m)]
    by_cases h1 : inum = 1
    · rwa [if_pos h1] at h ⊢
    · rw [if_neg h1] at h ⊢
      cases hm : if inum = tdip then some ((t.mem tdip).getD 0) else t.mem inum with
      | some p =>
        rw [hm] at h
        exact hturn p h
      | none =>
        rw [hm] at h
        cases hf : fault inum with
        | some e => rwa [hf] at h
        | none =>
          cases hp : t.media inum with
          | none => rwa [hf, hp] at h
          | some p =>
            rw [hf, hp] at h
            exact hturn p h

/-- **The walk ends**, with 0 only if the directory is not an ancestor and with `EINVAL` only if it
is one; without a failing lookup it ends with one of them. -/
theorem checkpath_spec (fault : Nat → Option ReadError) (dip : Nat) (ht : (t.mem tdip).isSome)
    (h : Rooted.Reaches t.newest 1 inum) :
    ∃ n r, (∀ m, n ≤ m → t.checkpath fault dip tdip m inum = some r) ∧
      (r = 22 → t.Ancestor dip inum) ∧ (r = 0 → ¬ t.Ancestor dip inum) ∧
      ((∀ i, fault i = none) → r = 22 ∨ r = 0) := by
  induction h using Relation.ReflTransGen.head_induction_on with
  | refl =>
    refine ⟨1, 0, fun m hm => ?_, nofun, fun _ => Rooted.not_ancestor_root, fun _ => Or.inr rfl⟩
    obtain ⟨k, rfl⟩ := Nat.exists_eq_add_of_le' hm
    rw [checkpath, if_pos rfl]
  | @head d p hstep _ ih =>
    obtain ⟨hne, hp⟩ := hstep
    have hanc : t.Ancestor dip d ↔ p = dip ∨ t.Ancestor dip p := Rooted.ancestor_iff hne hp
    rw [hanc]
    rcases checkpath_succ fault dip ht hne hp with hturn | ⟨e, hf, herr⟩
    · by_cases hdip : dip = p
      · refine ⟨1, 22, fun m hm => ?_, fun _ => Or.inl hdip.symm, nofun, fun _ => Or.inl rfl⟩
        obtain ⟨k, rfl⟩ := Nat.exists_eq_add_of_le' hm
        rw [hturn, if_pos hdip]
      · obtain ⟨n, r, hrun, h22, h0, hfree⟩ := ih
        refine ⟨n + 1, r, fun m hm => ?_, fun hr => Or.inr (h22 hr),
          fun hr => not_or.2 ⟨Ne.symm hdip, h0 hr⟩, hfree⟩
        obtain ⟨k, rfl⟩ := Nat.exists_eq_add_of_le' hm
        rw [← Nat.add_assoc, hturn, if_neg hdip, hrun _ (Nat.le_add_left n k)]
    · have hne : e.errno ≠ 22 ∧ e.errno ≠ 0 := by cases e <;> decide
      refine ⟨1, e.errno, fun m hm => ?_, fun hr => absurd hr hne.1, fun hr => absurd hr hne.2,
        fun hfree => by simp [hfree] at hf⟩
      obtain ⟨k, rfl⟩ := Nat.exists_eq_add_of_le' hm
      exact herr k

end

/-! ## Runs of renames -/

/-- The inode of a directory is read into memory, written to the media, or leaves the memory. Or a
directory is renamed from `fdip` to `tdip`; `embedded` says that the backend has changed the field
on the media too, and `fault` which lookups of the walk fail. -/
inductive Act
  | load (inum : Nat)
  | sync (inum : Nat)
  | evict (inum : Nat)
  | rename (fdip fip tdip : Nat) (fault : Nat → Option ReadError) (embedded : Bool)

/-- What a step does. A rename is a successful one of a directory other than the root, whose entry
is in the directory that its `iparent` names; the VFS does not move a directory into itself. -/
inductive Step (t : DirTable) : Act → DirTable → Prop
  | load {inum : Nat} : t.mem inum = none →
      Step t (.load inum) { t with mem := Function.update t.mem inum (t.media inum) }
  | sync {inum : Nat} : (t.mem inum).isSome →
      Step t (.sync inum) { t with media := Function.update t.media inum (t.mem inum) }
  | evict {inum : Nat} : t.mem inum = t.media inum →
      Step t (.evict inum) { t with mem := Function.update t.mem inum none }
  | rename {fdip fip tdip n : Nat} {fault : Nat → Option ReadError} {embedded : Bool} :
      fip ≠ 1 → t.newest fip = some fdip → tdip ≠ fip → (t.mem tdip).isSome →
      (fdip ≠ tdip → t.checkpath fault fip tdip n tdip = some 0) →
      Step t (.rename fdip fip tdip fault embedded)
        { mem := Function.update t.mem fip (some tdip)
          media := if embedded then Function.update t.media fip (some tdip) else t.media }

section
variable {t u : DirTable} {a : Act}

/-- A rename changes one newest field, and no other step changes any. -/
theorem Step.newest (h : t.Step a u) : u.newest = t.newest ∨
    ∃ fdip fip tdip n fault, u.newest = Function.update t.newest fip (some tdip) ∧ fip ≠ 1 ∧
      t.newest fip = some fdip ∧ tdip ≠ fip ∧ (t.mem tdip).isSome ∧
      (fdip ≠ tdip → t.checkpath fault fip tdip n tdip = some 0) := by
  cases h with
  | @load inum hnone =>
    refine Or.inl (funext fun i => ?_)
    rcases eq_or_ne i inum with rfl | hi
    · simp [DirTable.newest, hnone]
    · simp [DirTable.newest, hi]
  | @sync inum hsome =>
    refine Or.inl (funext fun i => ?_)
    rcases eq_or_ne i inum with rfl | hi
    · simp [DirTable.newest, Option.or_of_isSome hsome]
    · simp [DirTable.newest, hi]
  | @evict inum heq =>
    refine Or.inl (funext fun i => ?_)
    rcases eq_or_ne i inum with rfl | hi
    · simp [DirTable.newest, heq]
    · simp [DirTable.newest, hi]
  | @rename fdip fip tdip n fault embedded h1 h2 h3 h4 h5 =>
    refine Or.inr ⟨fdip, fip, tdip, n, fault, funext fun i => ?_, h1, h2, h3, h4, h5⟩
    rcases eq_or_ne i fip with rfl | hi
    · simp [DirTable.newest]
    · cases embedded <;> simp [DirTable.newest, hi]

/-- A field that is set leads to the root. -/
theorem Tree.reaches_of_mem (h : t.Tree) {i : Nat} (hi : (t.mem i).isSome) :
    Rooted.Reaches t.newest 1 i :=
  h i (by rw [DirTable.newest, Option.or_of_isSome hi]; exact hi)

/-- A step keeps the tree. -/
theorem Tree.step (h : t.Tree) (hstep : t.Step a u) : u.Tree := by
  rcases hstep.newest with heq | ⟨fdip, fip, tdip, n, fault, heq, hne, hp, htf, hmem, hcheck⟩
  · intro d hd
    rw [heq] at hd ⊢
    exact h d hd
  · have htdip := h.reaches_of_mem hmem
    have hold : ∀ d, Rooted.Reaches t.newest 1 d → Rooted.Reaches u.newest 1 d := by
      intro d hd
      rw [heq]
      by_cases hsame : fdip = tdip
      · -- The field keeps its value.
        rwa [← hsame, ← hp, Function.update_eq_self]
      · refine Rooted.Reaches.reparent hne htf (fun hanc => ?_) htdip hd
        obtain ⟨k, r, hrun, -, h0, -⟩ := checkpath_spec fault fip hmem htdip
        have hr := (checkpath_mono (hcheck hsame) (le_max_left n k)).symm.trans
          (hrun _ (le_max_right n k))
        exact h0 (Option.some.inj hr).symm hanc
    intro d hd
    rcases eq_or_ne d fip with rfl | hdf
    · exact hold d (h d (by rw [hp]; rfl))
    · rw [heq, Function.update_of_ne hdf] at hd
      exact hold d (h d hd)

end

/-- **Directory renames keep the tree a tree**: after every run of successful renames, with the
inodes' newest fields in memory, on the media or both, every directory leads to the root;
`hammer2_checkpath` returns for any two directories, and it returns `EINVAL` exactly if the one
moved is an ancestor of the target. -/
theorem checkpath_tree {s t : DirTable} {as : List Act} (hs : s.Tree)
    (hrun : Transition.Run Step s as t) :
    t.Tree ∧ ∀ dip tdip, dip ≠ tdip → (t.mem tdip).isSome →
      (∀ fault, ∃ n r, ∀ m, n ≤ m → t.checkpath fault dip tdip m tdip = some r) ∧
      ((∃ n, t.checkpath (fun _ => none) dip tdip n tdip = some 22) ↔ t.Ancestor dip tdip) := by
  have ht : t.Tree := hrun.invariant Tree.step hs
  refine ⟨ht, fun dip tdip _ hmem => ⟨fun fault => ?_, ?_⟩⟩
  · obtain ⟨n, r, h, -⟩ := checkpath_spec fault dip hmem (ht.reaches_of_mem hmem)
    exact ⟨n, r, h⟩
  · obtain ⟨n, r, h, h22, h0, hfree⟩ :=
      checkpath_spec (fun _ => none) dip hmem (ht.reaches_of_mem hmem)
    constructor
    · rintro ⟨k, hk⟩
      have hr := (checkpath_mono hk (le_max_left k n)).symm.trans (h _ (le_max_right k n))
      exact h22 (Option.some.inj hr).symm
    · intro hanc
      rcases hfree fun _ => rfl with rfl | rfl
      · exact ⟨n, h n le_rfl⟩
      · exact absurd hanc (h0 rfl)

/-- The directories 2 and 4 in the root and 3 in 2, with 2 in memory only and 3 on the media
only. -/
def three : DirTable where
  mem := fun i => if i = 1 ∨ i = 2 ∨ i = 4 then some 1 else none
  media := fun i => if i = 3 then some 2 else if i = 4 then some 1 else none

theorem three_tree : three.Tree := by
  have hroot : ∀ d p, d ≠ 1 → three.newest d = some p → Rooted.Reaches three.newest 1 p →
      Rooted.Reaches three.newest 1 d := fun d p hd hp h => h.head ⟨hd, hp⟩
  have h2 := hroot 2 1 (by decide) rfl .refl
  intro d hd
  by_cases h1 : d = 1
  · exact h1 ▸ .refl
  · have hcases : d = 2 ∨ d = 3 ∨ d = 4 := by
      by_contra hno
      simp only [not_or] at hno
      have hnone : three.newest d = none := by simp [DirTable.newest, three, h1, hno]
      simp [hnone] at hd
    rcases hcases with rfl | rfl | rfl
    · exact h2
    · exact hroot 3 2 (by decide) rfl h2
    · exact hroot 4 1 (by decide) rfl .refl

end DirTable

/-- Moving 2 into 4, which makes 4 an ancestor of 3. -/
theorem checkpath_tree_three : ∃ t, Transition.Run DirTable.Step DirTable.three
      [.rename 1 2 4 (fun _ => none) false] t ∧ t.Tree := by
  have hrun : Transition.Run DirTable.Step DirTable.three [.rename 1 2 4 (fun _ => none) false] _ :=
    .cons trivial (.rename (n := 9) (by decide) rfl (by decide) rfl fun _ => by decide) (.nil _)
  exact ⟨_, hrun, (DirTable.checkpath_tree DirTable.three_tree hrun).1⟩

end Hammer2
