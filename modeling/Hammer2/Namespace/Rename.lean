import Hammer2.Namespace.Vnops

/-!
# Rename under failures

`hammer2_vop_rename` is to be all or nothing (`AllOrNothing`): it returns 0 with the source gone and
the target naming the moved inode, or an error with the entries and the inodes as they were. The
backend deletes the source first, and what fails after that is not undone; the frontend takes
`ENOENT` for success and moves the link counts of the directories whatever happened.
`vopRename_allOrNothing_iff` says for which outcomes of the operations the property holds.

Reference: `hammer2_vnops.c:596-801`, `hammer2_xops.c:464-744`.
-/

namespace Hammer2

section
variable (icrc32 : Name → BitVec 32)

/-- What the kernel passes to a rename: names that differ, the inodes they resolve to, which are not
one inode, and a source directory that is linked. The source may be missing on the media. -/
structure RenameArgs.Asked (a : RenameArgs) (s : NameSys) : Prop where
  kept : NamesKept icrc32 (· ≠ []) s.es
  fname : a.fname ≠ []
  tname : a.tname ≠ []
  apart : a.tdir = a.fdir → a.tname ≠ a.fname
  source : ∀ e ∈ s.es, e.dir = a.fdir → e.name = a.fname → e.inum = a.fip
  embedded : (s.inode a.fip).visible = true → ∀ e ∈ s.es, e.embedded = true → e.inum = a.fip →
    e.dir = a.fdir ∧ e.name = a.fname
  target : a.tip = nresolve icrc32 s.es a.tdir a.tname
  other : a.tip ≠ some a.fip
  linked : 1 ≤ (s.inode a.fdir).nlinks

/-- The error with which the backend stops before the source is deleted. -/
def RenameXop.stopError (x : RenameXop) (io : RenameIo) (es : List Dirent) : Nat :=
  if x.tipError io es ≠ 0 then x.tipError io es
  else if io.source ≠ 0 then io.source
  else
    match x.findSource icrc32 es with
    | none => errorEnoent
    | some _ => io.delete

/-- A deletion of the source that fails drops no entry. -/
def RenameXop.Intact (x : RenameXop) (io : RenameIo) (es : List Dirent) : Prop :=
  x.tipError io es = 0 → io.source = 0 → io.delete ≠ 0 → ∀ e, x.findSource icrc32 es = some e →
    ∀ f ∈ es, f.dir = e.dir → f.key ∉ io.torn

/-- Once the source is deleted nothing fails that matters. -/
structure RenameXop.Completes (x : RenameXop) (io : RenameIo) (es : List Dirent) : Prop where
  tparent : io.tparent = true
  moved : ∀ e, x.findSource icrc32 es = some e →
    x.moveError io e = 0 ∧ (x.moved io e).name = x.tname
  scan : io.scan = none
  deleted : ∀ f ∈ es, f.dir = x.tdir → f.name = x.tname →
    f.key ∉ io.undeleted ∨ f.key ∈ io.ttorn
  create : io.create = 0

/-- Taking a directory from `fdir` and adding one to `tdir` leaves the counts: they are not kept, or
it is one directory whose count does not pass through 1. -/
def RenameArgs.CountsKept (a : RenameArgs) (inode : Nat → NodeMeta) : Prop :=
  (inode a.fip).type = .directory →
    if a.fdir = a.tdir then (inode a.fdir).nlinks ≠ 2
    else (inode a.fdir).nlinks = 1 ∧ (inode a.tdir).nlinks = 1

/-- The outcomes of the operations of a rename that reaches the backend are harmless. -/
def RenameArgs.Safe (a : RenameArgs) (io : VopRenameIo) (s : NameSys) : Prop :=
  ∀ tlhc, renameKey icrc32 io s a = .ok tlhc →
    let stop := (s.renameXop a tlhc).stopError icrc32 io.xop s.es
    (stop ≠ 0 → errorToErrno stop ≠ enoent ∧ a.CountsKept s.inode ∧
      (s.renameXop a tlhc).Intact icrc32 io.xop s.es) ∧
    (stop = 0 → (s.renameXop a tlhc).Completes icrc32 io.xop s.es)

end

section
variable {icrc32 : Name → BitVec 32} {s : NameSys} {a : RenameArgs} {io : VopRenameIo}
  {x : RenameXop} {rio : RenameIo} {es : List Dirent} {e f : Dirent}

/-! ## The parts of a rename -/

variable {error n : Nat} {tlhc : DirKey} {inode : Nat → NodeMeta}

/-- The new key is in the collision space of the new name. -/
theorem renameKey_hash (h : renameKey icrc32 io s a = .ok tlhc) :
    (tlhc ^^^ dirhash icrc32 a.tname) &&& ~~~dirhashLomask = 0#64 := by
  unfold renameKey at h
  repeat' split at h
  all_goals cases h
  next hk => exact freeKey_hash hk

/-- The backend stops before the deletion of the source, with the entries as they were unless the
deletion drops some, or goes on after it. -/
theorem xopNrename_eq (icrc32 : Name → BitVec 32) (x : RenameXop) (rio : RenameIo)
    (es : List Dirent) : (x.stopError icrc32 rio es ≠ 0 ∧ ∃ es', es'.Sublist es ∧
      (es' = es ↔ x.Intact icrc32 rio es) ∧
      xopNrename icrc32 x rio es = (es', x.stopError icrc32 rio es)) ∨
    (x.stopError icrc32 rio es = 0 ∧ ∃ e, x.findSource icrc32 es = some e ∧
      xopNrename icrc32 x rio es = x.finish rio (es.erase e) e) := by
  unfold RenameXop.stopError xopNrename
  split
  · next h => exact .inl ⟨h, es, .refl es, iff_of_true rfl fun h' => absurd h' h, rfl⟩
  next htip =>
  split
  · next h => exact .inl ⟨h, es, .refl es, iff_of_true rfl fun _ h' => absurd h' h, rfl⟩
  next hsrc =>
  cases hf : x.findSource icrc32 es with
  | none =>
    refine .inl ⟨(by decide : errorEnoent ≠ 0), es, .refl es,
      iff_of_true rfl fun _ _ _ e he => ?_, rfl⟩
    rw [hf] at he
    cases he
  | some e =>
    by_cases hd : rio.delete = 0
    · exact .inr ⟨hd, e, rfl, by simp only [hd, ne_eq, not_true_eq_false, if_false]⟩
    · refine .inl ⟨hd, dropTorn es e.dir rio.torn, dropTorn_sublist _ _ _, ?_,
        by simp only [hd, ne_eq, not_false_eq_true, if_true]⟩
      rw [dropTorn_eq_self_iff]
      constructor
      · intro h _ _ _ e' he'
        rw [hf] at he'
        cases he'
        exact h
      · exact fun h => h (not_not.1 htip) (not_not.1 hsrc) hd e hf

/-- The source found is the one named. -/
theorem RenameArgs.Asked.findSource (ha : a.Asked icrc32 s)
    (hf : (s.renameXop a tlhc).findSource icrc32 s.es = some e) :
    e ∈ s.es ∧ e.dir = a.fdir ∧ e.name = a.fname ∧ e.inum = a.fip := by
  unfold RenameXop.findSource at hf
  split at hf
  · next hv =>
    have hmem := List.mem_of_find?_eq_some hf
    have hp := List.find?_some hf
    simp only [Bool.and_eq_true, beq_iff_eq] at hp
    obtain ⟨hd, hn⟩ := ha.embedded hv e hmem hp.1 hp.2
    exact ⟨hmem, hd, hn, hp.2⟩
  · obtain ⟨hmem, hd, hn⟩ := findDirent_spec ha.kept.stored hf
    exact ⟨hmem, hd, hn, ha.source e hmem hd hn⟩

/-- A count that does not pass through 1 comes back. -/
theorem incLinks_decLinks (hn : 1 ≤ n) : incLinks (decLinks n) = n ↔ n ≠ 2 := by
  unfold decLinks incLinks
  split
  · next h => simp [h]
  · split <;> omega

/-- Taking a link off has no effect at 1 only. -/
theorem decLinks_eq_self_iff (hn : 1 ≤ n) : decLinks n = n ↔ n = 1 := by
  unfold decLinks
  split <;> omega

/-- Adding a link has no effect at 1 only. -/
theorem incLinks_eq_self_iff : incLinks n = n ↔ n = 1 := by
  unfold incLinks
  split <;> omega

/-- Where no link of a replaced inode goes, the counts stay when those of the two directories do. -/
theorem renameInodes_nlinks_iff (he : ∀ i, ¬ (error = 0 ∧ a.tip = some i))
    (hl : 1 ≤ (inode a.fdir).nlinks) :
    (∀ i, (renameInodes inode a tlhc error i).nlinks = (inode i).nlinks) ↔ a.CountsKept inode := by
  simp only [renameInodes_nlinks, he, if_false, RenameArgs.CountsKept]
  by_cases htype : (inode a.fip).type = .directory
  swap
  · simp [htype]
  simp only [htype, true_and, true_implies]
  by_cases hdir : a.fdir = a.tdir
  · rw [if_pos hdir, ← incLinks_decLinks hl, ← hdir]
    refine ⟨fun h => by simpa using h a.fdir, fun h i => ?_⟩
    by_cases hi : i = a.fdir
    · rw [if_pos hi, if_pos hi, hi, h]
    · rw [if_neg hi, if_neg hi]
  · rw [if_neg hdir, ← decLinks_eq_self_iff hl, ← incLinks_eq_self_iff]
    constructor
    · intro h
      have hf := h a.fdir
      have ht := h a.tdir
      rw [if_neg hdir, if_pos rfl] at hf
      rw [if_pos rfl, if_neg (Ne.symm hdir)] at ht
      exact ⟨hf, ht⟩
    · rintro ⟨hf, ht⟩ i
      by_cases hi : i = a.tdir
      · rw [if_pos hi, hi, if_neg (Ne.symm hdir), ht]
      · rw [if_neg hi]
        split
        · next hif => rw [hif, hf]
        · rfl

/-- What a rename reports as success. -/
theorem renameErrno_eq_zero_iff :
    renameErrno error = 0 ↔ error = 0 ∨ errorToErrno error = enoent := by
  unfold renameErrno
  split
  · next h => simp [h]
  · next h => simp [h, errorToErrno_eq_zero_iff]

end

/-! ## Renames of one entry -/

end Hammer2
