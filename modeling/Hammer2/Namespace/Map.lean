import Hammer2.Lib.Run
import Hammer2.Namespace.Xop

/-!
# A directory is a map

What the directories are for is a map from a directory and a name to an inode number (`NameMap`). A
creation sets the name, a removal clears it, a rename moves the number of the source to the target.
The entries refine the map: along every run of the three operations on any directories, whatever the
hash does to the names, a lookup gives what the map has (`directory_is_map`).

Reference: `hammer2_inode.c:1466-1529`, `hammer2_xops.c:233-793`, `hammer2_vnops.c:661-720`.
-/

namespace Hammer2

open Transition

/-! ## The map -/

/-- The inode number of a name in a directory. -/
def NameMap := Nat → Name → Option Nat

/-- The map with another entry for one name. -/
def NameMap.set (m : NameMap) (dir : Nat) (name : Name) (v : Option Nat) : NameMap :=
  fun d n => if d = dir ∧ n = name then v else m d n

/-- The operations on names. -/
inductive NameAct
  | create (dir : Nat) (name : Name) (inum : Nat) (type : ObjType)
  | unlink (dir : Nat) (name : Name) (isdir : Bool)
  | rename (fdir : Nat) (fname : Name) (tdir : Nat) (tname : Name)

/-- What an operation does to the map. -/
def NameMap.next (m : NameMap) : NameAct → NameMap
  | .create dir name inum _ => m.set dir name (some inum)
  | .unlink dir name _ => m.set dir name none
  | .rename fdir fname tdir tname => (m.set fdir fname none).set tdir tname (m fdir fname)

/-! ## The entries -/

/-- A name of 1 to 255 bytes. -/
def ValidName (name : Name) : Prop := 1 ≤ name.length ∧ name.length ≤ 255

instance decidableValidName : DecidablePred ValidName :=
  fun name => inferInstanceAs (Decidable (1 ≤ name.length ∧ name.length ≤ 255))

section
variable (icrc32 : Name → BitVec 32)

/-- The request of `hammer2_vop_rename`: the directory that the target names is checked to be
empty. -/
def renameRequest (es : List Dirent) (fdir : Nat) (fname : Name) (tdir : Nat) (tname : Name)
    (tlhc : DirKey) : RenameXop where
  fdir := fdir
  fname := fname
  fip := (nresolve icrc32 es fdir fname).getD 0
  visible := false
  tdir := tdir
  tname := tname
  tlhc := tlhc
  tipDir := ((findDirent icrc32 es tdir tname).filter (·.type = .directory)).map Dirent.inum

/-- The entries after an operation whose backends do not fail, and the error it returns. -/
def nameNext (es : List Dirent) : NameAct → List Dirent × Nat
  | .create dir name inum type => direntCreate icrc32 .ok es dir name inum type
  | .unlink dir name isdir =>
    let r := xopUnlink icrc32 .ok es dir name isdir
    (r.1, r.2.1)
  | .rename fdir fname tdir tname =>
    match freeKey icrc32 es tdir tname with
    | none => (es, errorEnospc)
    | some tlhc => xopNrename icrc32 (renameRequest icrc32 es fdir fname tdir tname tlhc) .ok es

/-- The operation is one the kernel asks for: names are of the length allowed, and a name that is
created is not there yet. -/
def NameAct.Asked (es : List Dirent) : NameAct → Prop
  | .create dir name _ _ => ValidName name ∧ nresolve icrc32 es dir name = none
  | .unlink _ name _ => ValidName name
  | .rename _ fname _ tname => ValidName fname ∧ ValidName tname

/-- What an operation needs to succeed: room in the collision space for a new key, an entry of the
kind to be removed, a directory that goes being empty. -/
def NameAct.Possible (es : List Dirent) : NameAct → Prop
  | .create dir name _ _ =>
    (collisions es dir (dirhash icrc32 name)).length + 1 < collisionSpace
  | .unlink dir name isdir => ∃ e ∈ es, e.dir = dir ∧ e.name = name ∧
      (e.type = .directory ↔ isdir = true) ∧ (isdir = true → ∀ f ∈ es, f.dir ≠ e.inum)
  | .rename fdir fname tdir tname => (∃ e ∈ es, e.dir = fdir ∧ e.name = fname) ∧
      (collisions es tdir (dirhash icrc32 tname)).length + 1 < collisionSpace ∧
      ∀ t ∈ es, t.dir = tdir → t.name = tname → t.type = .directory → ∀ f ∈ es, f.dir ≠ t.inum

/-- The entries together with the map they are to represent. -/
structure DirSys where
  entries : List Dirent
  names : NameMap

/-- One operation on both. One that returns an error is none on the map. -/
def DirSys.next (s : DirSys) (a : NameAct) : DirSys where
  entries := (nameNext icrc32 s.entries a).1
  names := if (nameNext icrc32 s.entries a).2 = 0 then s.names.next a else s.names

/-- The step of the system. -/
def DirStep (s : DirSys) (a : NameAct) (t : DirSys) : Prop :=
  a.Asked icrc32 s.entries ∧ t = s.next icrc32 a

/-- No directory has an entry. -/
def DirSys.empty : DirSys := ⟨[], fun _ _ => none⟩

/-- The entries are well kept and the lookup gives what the map has. -/
structure DirSys.Represents (s : DirSys) : Prop where
  kept : WellKept icrc32 s.entries
  resolve : ∀ dir name, nresolve icrc32 s.entries dir name = s.names dir name

end

section
variable {icrc32 : Name → BitVec 32} {es es' : List Dirent} {dir : Nat} {name : Name}

/-- Two lookups agree when they find the same numbers. -/
theorem nresolve_eq_of_iff {v : Option Nat} (h : WellKept icrc32 es)
    (hv : ∀ i, (∃ e ∈ es, e.dir = dir ∧ e.name = name ∧ e.inum = i) ↔ v = some i) :
    nresolve icrc32 es dir name = v := by
  ext i
  rw [nresolve_eq_some_iff h, hv]

/-! ## One operation -/

/-- A create sets one name. -/
theorem create_refines (h : WellKept icrc32 es) {inum : Nat} {type : ObjType}
    (hnew : nresolve icrc32 es dir name = none) {key : DirKey}
    (hk : freeKey icrc32 es dir name = some key) :
    WellKept icrc32 (insertDirent (mkdirent dir key inum type name) es) ∧
      ∀ d n, nresolve icrc32 (insertDirent (mkdirent dir key inum type name) es) d n =
        NameMap.set (nresolve icrc32 es) dir name (some inum) d n := by
  obtain ⟨hst, hn, hd, hkey, hi, -⟩ := mkdirent_spec dir key inum type name
  obtain ⟨hhash, hfree⟩ := freeKey_spec h hk
  have hfresh : ∀ f ∈ es, f.dir = dir → f.name ≠ name := by
    rw [nresolve, Option.map_eq_none_iff] at hnew
    exact (findDirent_eq_none_iff h).1 hnew
  have hwk : WellKept icrc32 (insertDirent (mkdirent dir key inum type name) es) := by
    refine h.insert hst (by rw [hkey, hn]; exact hhash) ?_ ?_
    · intro f hf hdf hkf
      exact hfree f hf (hdf ▸ hd) (by rw [← hkf, hkey])
    · intro f hf hdf hnf
      exact hfresh f hf (hdf ▸ hd) (by rw [← hnf, hn])
  refine ⟨hwk, fun d n => nresolve_eq_of_iff hwk fun i => ?_⟩
  unfold NameMap.set
  split
  · next hdn =>
    obtain ⟨rfl, rfl⟩ := hdn
    constructor
    · rintro ⟨f, hf, hfd, hfn, rfl⟩
      rcases mem_insertDirent.1 hf with rfl | hf
      · rw [hi]
      · exact absurd hfn (hfresh f hf hfd)
    · intro hv
      cases hv
      exact ⟨_, mem_insertDirent.2 (.inl rfl), hd, hn, hi⟩
  · next hdn =>
    rw [nresolve_eq_some_iff h]
    constructor
    · rintro ⟨f, hf, hfd, hfn, hfi⟩
      rcases mem_insertDirent.1 hf with rfl | hf
      · exact absurd ⟨hfd.symm.trans hd, hfn.symm.trans hn⟩ hdn
      · exact ⟨f, hf, hfd, hfn, hfi⟩
    · rintro ⟨f, hf, hfd, hfn, hfi⟩
      exact ⟨f, mem_insertDirent.2 (.inr hf), hfd, hfn, hfi⟩

/-- An unlink clears one name. -/
theorem unlink_refines (h : WellKept icrc32 es) {e : Dirent}
    (he : findDirent icrc32 es dir name = some e) :
    WellKept icrc32 (es.erase e) ∧ ∀ d n, nresolve icrc32 (es.erase e) d n =
      NameMap.set (nresolve icrc32 es) dir name none d n := by
  obtain ⟨hmem, hed, hen⟩ := (findDirent_eq_some_iff h).1 he
  have hwk := h.sublist (List.erase_sublist (a := e))
  refine ⟨hwk, fun d n => nresolve_eq_of_iff hwk fun i => ?_⟩
  unfold NameMap.set
  split
  · next hdn =>
    obtain ⟨rfl, rfl⟩ := hdn
    refine iff_of_false ?_ (by rintro ⟨⟩)
    rintro ⟨f, hf, hfd, hfn, -⟩
    obtain ⟨hne, hf⟩ := h.mem_erase.1 hf
    exact hne (h.eq_of_name hf hmem (hfd.trans hed.symm) (hfn.trans hen.symm))
  · next hdn =>
    rw [nresolve_eq_some_iff h]
    constructor
    · rintro ⟨f, hf, hfd, hfn, hfi⟩
      exact ⟨f, (h.mem_erase.1 hf).2, hfd, hfn, hfi⟩
    · rintro ⟨f, hf, hfd, hfn, hfi⟩
      refine ⟨f, h.mem_erase.2 ⟨?_, hf⟩, hfd, hfn, hfi⟩
      rintro rfl
      exact hdn ⟨hfd.symm.trans hed, hfn.symm.trans hen⟩

/-- A rename clears one name and sets another. -/
theorem rename_refines (h : WellKept icrc32 es) {x : RenameXop} {e : Dirent}
    (he : findDirent icrc32 es x.fdir x.fname = some e)
    (hk : freeKey icrc32 es x.tdir x.tname = some x.tlhc) :
    let es' := insertDirent (x.moved .ok e) ((es.erase e).filter fun f => !x.replaces .ok f)
    WellKept icrc32 es' ∧ ∀ d n, nresolve icrc32 es' d n =
      NameMap.set (NameMap.set (nresolve icrc32 es) x.fdir x.fname none) x.tdir x.tname
        (nresolve icrc32 es x.fdir x.fname) d n := by
  obtain ⟨hmem, hed, hen⟩ := (findDirent_eq_some_iff h).1 he
  have h0 : (x.newName .ok e).2 = 0 := by
    unfold RenameXop.newName
    split
    · simp [RenameIo.ok]
    · rfl
  obtain ⟨-, hmd, -, hmi, -⟩ := moved_frame x .ok (h.stored e hmem)
  have hmn := moved_name hen h0
  obtain ⟨hwk, hin⟩ := h.rename hmem hen hk h0 rfl fun _ _ _ _ => List.not_mem_nil
  refine ⟨hwk, fun d n => nresolve_eq_of_iff hwk fun i => ?_⟩
  simp only [hin]
  unfold NameMap.set
  split
  · -- the target's name: only the moved entry has it
    next hdn =>
    obtain ⟨rfl, rfl⟩ := hdn
    rw [nresolve, he, Option.map_some, Option.some_inj]
    constructor
    · rintro ⟨f, rfl | ⟨-, -, hno⟩, hfd, hfn, rfl⟩
      · exact hmi.symm
      · exact absurd ⟨hfd, hfn⟩ hno
    · rintro rfl
      exact ⟨_, .inl rfl, hmd, hmn, hmi⟩
  · next hdn =>
    split
    · -- the source's name: its entry is gone
      next hfn =>
      obtain ⟨rfl, rfl⟩ := hfn
      refine iff_of_false ?_ (by rintro ⟨⟩)
      rintro ⟨f, rfl | ⟨hf, hne, -⟩, hfd, hfn, -⟩
      · exact hdn ⟨hfd.symm.trans hmd, hfn.symm.trans hmn⟩
      · exact hne (h.eq_of_name hf hmem (hfd.trans hed.symm) (hfn.trans hen.symm))
    · next hfn =>
      rw [nresolve_eq_some_iff h]
      constructor
      · rintro ⟨f, rfl | ⟨hf, -, -⟩, hfd, hfn', hfi⟩
        · exact absurd ⟨hfd.symm.trans hmd, hfn'.symm.trans hmn⟩ hdn
        · exact ⟨f, hf, hfd, hfn', hfi⟩
      · rintro ⟨f, hf, hfd, hfn', hfi⟩
        refine ⟨f, .inr ⟨hf, ?_, ?_⟩, hfd, hfn', hfi⟩
        · rintro rfl
          exact hfn ⟨hfd.symm.trans hed, hfn'.symm.trans hen⟩
        · rintro ⟨htd, htn⟩
          exact hdn ⟨hfd.symm.trans htd, hfn'.symm.trans htn⟩

/-- What the backend of a rename does when none of its operations fails. -/
theorem xopNrename_ok (icrc32 : Name → BitVec 32) (es : List Dirent) (x : RenameXop)
    (hv : x.visible = false) :
    (∃ e, findDirent icrc32 es x.fdir x.fname = some e ∧ xopNrename icrc32 x .ok es =
      (insertDirent (x.moved .ok e) ((es.erase e).filter fun f => !x.replaces .ok f), 0)) ∨
    ((xopNrename icrc32 x .ok es).1 = es ∧ (xopNrename icrc32 x .ok es).2 ≠ 0 ∧
      (x.tipError .ok es ≠ 0 ∨ findDirent icrc32 es x.fdir x.fname = none)) := by
  have hsrc : x.findSource icrc32 es = findDirent icrc32 es x.fdir x.fname := by
    simp [RenameXop.findSource, hv]
  by_cases htip : x.tipError .ok es = 0
  · cases hf : findDirent icrc32 es x.fdir x.fname with
    | none =>
      have heq : xopNrename icrc32 x .ok es = (es, errorEnoent) := by
        rw [xopNrename, if_neg (not_not.2 htip), if_neg (by decide), hsrc, hf]
      rw [heq]
      exact .inr ⟨rfl, (by decide : errorEnoent ≠ 0), .inr rfl⟩
    | some e =>
      refine .inl ⟨e, rfl, ?_⟩
      have hm : x.moveError .ok e = 0 := by
        unfold RenameXop.moveError RenameXop.newName
        split
        · rfl
        · split
          · simp [RenameIo.ok]
          · rfl
      rw [xopNrename, if_neg (not_not.2 htip), if_neg (by decide), hsrc, hf]
      rw [← kept_eq_filter fun _ _ _ => List.not_mem_nil]
      exact finish_done rfl hm rfl rfl
  · refine .inr ⟨?_, ?_, .inl htip⟩
    · rw [xopNrename, if_pos htip]
    · rw [xopNrename, if_pos htip]
      exact htip

/-- An operation that succeeds does to the entries what it does to the map; one that does not,
leaves them. -/
theorem nameNext_refines (h : WellKept icrc32 es) {a : NameAct} (ha : a.Asked icrc32 es) :
    ((nameNext icrc32 es a).2 = 0 ∧ WellKept icrc32 (nameNext icrc32 es a).1 ∧
      ∀ d n, nresolve icrc32 (nameNext icrc32 es a).1 d n =
        NameMap.next (nresolve icrc32 es) a d n) ∨
    ((nameNext icrc32 es a).2 ≠ 0 ∧ (nameNext icrc32 es a).1 = es) := by
  cases a with
  | create dir name inum type =>
    rcases direntCreate_ok h inum type with ⟨key, hk, heq⟩ | ⟨-, heq⟩
    · refine .inl ?_
      rw [nameNext, heq]
      exact ⟨rfl, create_refines h ha.2 hk⟩
    · refine .inr ?_
      rw [nameNext, heq]
      exact ⟨(by decide : errorEnospc ≠ 0), rfl⟩
  | unlink dir name isdir =>
    rcases xopUnlink_ok icrc32 es dir name isdir with ⟨e, he, -, heq⟩ | ⟨hes, herr, -⟩
    · refine .inl ?_
      simp only [nameNext, heq]
      exact ⟨trivial, unlink_refines h he⟩
    · exact .inr ⟨herr, hes⟩
  | rename fdir fname tdir tname =>
    cases hk : freeKey icrc32 es tdir tname with
    | none =>
      refine .inr ?_
      simp only [nameNext, hk]
      exact ⟨(by decide : errorEnospc ≠ 0), trivial⟩
    | some tlhc =>
      simp only [nameNext, hk]
      rcases xopNrename_ok icrc32 es (renameRequest icrc32 es fdir fname tdir tname tlhc) rfl
        with ⟨e, he, heq⟩ | ⟨hes, herr, -⟩
      · rw [heq]
        exact .inl ⟨rfl, rename_refines h he hk⟩
      · exact .inr ⟨herr, hes⟩

/-- An operation that is possible succeeds. -/
theorem nameNext_possible (h : WellKept icrc32 es) {a : NameAct} (ha : a.Possible icrc32 es) :
    (nameNext icrc32 es a).2 = 0 := by
  cases a with
  | create dir name inum type =>
    rcases direntCreate_ok h inum type with ⟨key, -, heq⟩ | ⟨hk, -⟩
    · rw [nameNext, heq]
    · have := freeKey_isSome h ha
      rw [hk] at this
      cases this
  | unlink dir name isdir =>
    obtain ⟨e, he, hd, hn, htype, hempty⟩ := ha
    have hf := (findDirent_eq_some_iff h).2 ⟨he, hd, hn⟩
    rcases xopUnlink_ok icrc32 es dir name isdir with ⟨_, -, -, heq⟩ | ⟨-, -, herr⟩
    · simp only [nameNext, heq]
    · refine absurd ?_ (herr e hf)
      cases isdir with
      | true =>
        have hne : dirNotEmpty es e.inum = false := by
          rw [dirNotEmpty, List.any_eq_false]
          intro f hf hfd
          exact hempty rfl f hf (by simpa using hfd)
        simp [unlinkError, unlinkRefused, htype.2 rfl, hne, UnlinkIo.ok]
      | false =>
        have ht : e.type ≠ .directory := fun ht => by cases htype.1 ht
        simp [unlinkError, unlinkRefused, ht, UnlinkIo.ok]
  | rename fdir fname tdir tname =>
    obtain ⟨⟨e, he, hd, hn⟩, hroom, hempty⟩ := ha
    obtain ⟨tlhc, hk⟩ := Option.isSome_iff_exists.1 (freeKey_isSome h hroom)
    simp only [nameNext, hk]
    rcases xopNrename_ok icrc32 es (renameRequest icrc32 es fdir fname tdir tname tlhc) rfl
      with ⟨_, -, heq⟩ | ⟨-, -, htip | hnone⟩
    · rw [heq]
    · refine absurd ?_ htip
      unfold RenameXop.tipError
      split
      · rfl
      · next t ht =>
        simp only [renameRequest, Option.map_eq_some_iff, Option.filter_eq_some_iff,
          decide_eq_true_eq] at ht
        obtain ⟨f, ⟨hf, hft⟩, rfl⟩ := ht
        obtain ⟨hfm, hfd, hfn⟩ := (findDirent_eq_some_iff h).1 hf
        have hne : dirNotEmpty es f.inum = false := by
          rw [dirNotEmpty, List.any_eq_false]
          intro g hg hgd
          exact hempty f hfm hfd hfn hft g hg (by simpa using hgd)
        simp [hne, RenameIo.ok]
    · exact absurd hn ((findDirent_eq_none_iff h).1 hnone e he hd)

/-! ## Runs -/

/-- **Every step keeps the map.** -/
theorem DirSys.Represents.step {s t : DirSys} {a : NameAct} (h : s.Represents icrc32)
    (hst : DirStep icrc32 s a t) : t.Represents icrc32 := by
  obtain ⟨ha, rfl⟩ := hst
  have hnames : (fun d n => nresolve icrc32 s.entries d n) = s.names :=
    funext fun d => funext fun n => h.resolve d n
  rcases nameNext_refines h.kept ha with ⟨h0, hwk, hres⟩ | ⟨h0, hsame⟩
  · refine ⟨hwk, fun d n => ?_⟩
    rw [DirSys.next, if_pos h0, hres, ← hnames]
  · refine ⟨?_, fun d n => ?_⟩
    · rw [DirSys.next, hsame]
      exact h.kept
    · rw [DirSys.next, if_neg h0, hsame]
      exact h.resolve d n

/-- **A directory is a map from names to inode numbers.** After every run of creations, removals and
renames, a lookup gives what the map has; no two entries of a directory have one key, each key is in
the collision space of its name, and an operation that has what it needs succeeds. -/
theorem directory_is_map (icrc32 : Name → BitVec 32) {as : List NameAct} {s : DirSys}
    (hrun : Run (DirStep icrc32) .empty as s) :
    (∀ dir name, nresolve icrc32 s.entries dir name = s.names dir name) ∧
    s.entries.Pairwise (fun a b => a.dir = b.dir → a.key ≠ b.key) ∧
    (∀ e ∈ s.entries, (e.key ^^^ dirhash icrc32 e.name) &&& ~~~dirhashLomask = 0#64) ∧
    ∀ a : NameAct, a.Possible icrc32 s.entries → (nameNext icrc32 s.entries a).2 = 0 := by
  have h : s.Represents icrc32 := by
    refine Run.invariant (I := DirSys.Represents icrc32) (fun hs hst => hs.step hst) hrun ?_
    exact ⟨WellKept.nil, fun _ _ => rfl⟩
  exact ⟨h.resolve, h.kept.keys, h.kept.hashed, fun a ha => nameNext_possible h.kept ha⟩

end

/-- Three names with one hash: two are created, one is renamed to the third, the other removed. -/
def collidingActs : List NameAct :=
  [.create 1 [97] 5 .regfile, .create 1 [98] 6 .regfile, .rename 1 [97] 1 [99],
    .unlink 1 [98] false]

/-- The state after them. -/
def collidingSys : DirSys := collidingActs.foldl (DirSys.next fun _ => 0) .empty

/-- Three names with one hash. -/
theorem directory_is_map_colliding :
    Run (DirStep fun _ => 0) .empty collidingActs collidingSys ∧
    nresolve (fun _ => 0) collidingSys.entries 1 [99] = some 5 ∧
    collidingSys.names 1 [99] = some 5 := by
  have hrun : Run (DirStep fun _ => 0) .empty collidingActs collidingSys :=
    .cons trivial ⟨⟨by decide, by decide +kernel⟩, rfl⟩
      (.cons trivial ⟨⟨by decide, by decide +kernel⟩, rfl⟩
        (.cons trivial ⟨⟨by decide, by decide⟩, rfl⟩
          (.cons trivial ⟨(by decide : ValidName [98]), rfl⟩ (.nil _))))
  have hres : nresolve (fun _ => 0) collidingSys.entries 1 [99] = some 5 := by decide +kernel
  exact ⟨hrun, hres, by rw [← (directory_is_map _ hrun).1, hres]⟩

end Hammer2
