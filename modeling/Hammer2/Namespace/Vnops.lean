import Hammer2.Namespace.Xop

/-!
# The operations on names

The frontends of create, mkdir, link, unlink, rmdir and rename. The entries are changed by the
backends of `Hammer2.Namespace.Xop`; the link counts, the parent and the key of a name are fields of
the inodes in memory, which the frontends change by themselves, before or after they know what the
backend did.

Every check that depends on the device, on free space or on the caller is an input, as are the
errors of the backends. An error is returned as its positive number.

Reference: `hammer2_vnops.c:361-447`, `hammer2_vnops.c:475-556`, `hammer2_vnops.c:596-877`,
`hammer2_inode.c:1330-1464`, `hammer2_inode.c:1712-1775`.
-/

namespace Hammer2

/-! ## Inodes -/

/-- The fields of an inode that the operations on names read or change. `scrapped` is set when there
is no inode of the number, or only one that goes with the next sync (`DELETING`). -/
structure NodeMeta where
  type : ObjType
  nlinks : Nat
  iparent : Nat
  nameKey : DirKey
  unlinked : Bool
  scrapped : Bool
  deriving DecidableEq

/-- The entries of all directories and the inodes in memory. -/
structure NameSys where
  es : List Dirent
  inode : Nat → NodeMeta

/-- `meta.name_key & HAMMER2_DIRHASH_VISIBLE`: the inode stands in its directory. -/
def NodeMeta.visible (m : NodeMeta) : Bool := m.nameKey.msb

/-- `hammer2_inode_modify` and what follows it. -/
def modifyInode (inode : Nat → NodeMeta) (i : Nat) (f : NodeMeta → NodeMeta) : Nat → NodeMeta :=
  Function.update inode i (f (inode i))

theorem modifyInode_apply (inode : Nat → NodeMeta) (d : Nat) (g : NodeMeta → NodeMeta) (i : Nat) :
    modifyInode inode d g i = if i = d then g (inode i) else inode i := by
  rw [modifyInode, Function.update_apply]
  split
  · next h => rw [h]
  · rfl

/-- `hammer2_inode_unlink_finisher`; `vp` tells whether there is a Linux inode. -/
def NodeMeta.unlinkFinisher (vp : Bool) (m : NodeMeta) : NodeMeta :=
  if m.type ≠ .directory ∧ 1 < m.nlinks then { m with nlinks := m.nlinks - 1 }
  else if !vp then { m with unlinked := true, scrapped := true }
  else { m with unlinked := true, nlinks := 0 }

/-- A subdirectory more. A count of 1 stands for one that is not kept. -/
def NodeMeta.addSubdir (m : NodeMeta) : NodeMeta :=
  if m.nlinks ≠ 1 then { m with nlinks := m.nlinks + 1 } else m

/-- A subdirectory less. -/
def NodeMeta.dropSubdir (m : NodeMeta) : NodeMeta :=
  if m.nlinks ≠ 1 then { m with nlinks := m.nlinks - 1 } else m

/-- The count of a directory with a subdirectory more. -/
def incLinks (n : Nat) : Nat := if n = 1 then 1 else n + 1

/-- The count of a directory with a subdirectory less. -/
def decLinks (n : Nat) : Nat := if n = 1 then 1 else n - 1

theorem NodeMeta.addSubdir_nlinks (m : NodeMeta) : m.addSubdir.nlinks = incLinks m.nlinks := by
  unfold NodeMeta.addSubdir incLinks
  by_cases h : m.nlinks = 1 <;> simp [h]

theorem NodeMeta.dropSubdir_nlinks (m : NodeMeta) : m.dropSubdir.nlinks = decLinks m.nlinks := by
  unfold NodeMeta.dropSubdir decLinks
  by_cases h : m.nlinks = 1 <;> simp [h]

/-- `U32_MAX`. -/
def uint32Max : Nat := 2 ^ 32 - 1

/-- `ENOENT`. -/
def enoent : Nat := 2

/-- `ENOSPC`. -/
def enospc : Nat := 28

/-- `EMLINK`. -/
def emlink : Nat := 31

/-- `ENAMETOOLONG`. -/
def enametoolong : Nat := 36

/-- `EOPNOTSUPP`. -/
def eopnotsupp : Nat := 95

section
variable (icrc32 : Name → BitVec 32)

/-! ## Creation -/

/-- The outcomes of a creation: of the checks before it, of `hammer2_xop_inode_create_det`, of
`hammer2_dirent_create`, of `hammer2_igetv` and of `page_symlink`. -/
structure CreateIo where
  check : Nat
  create : Nat
  dirent : DirentIo
  igetv : Nat
  symlink : Nat

/-- The inode of `hammer2_inode_create_normal`. -/
def newNode (dir inum : Nat) (type : ObjType) : NodeMeta where
  type := type
  nlinks := if type = .directory then 2 else 1
  iparent := dir
  nameKey := BitVec.ofNat 64 inum
  unlinked := false
  scrapped := false

/-- What a creation is refused for before anything is done. -/
def createRefused (io : CreateIo) (s : NameSys) (dir : Nat) (name : Name) (type : ObjType) : Nat :=
  if io.check ≠ 0 then io.check
  else if type = .directory ∧ uint32Max ≤ (s.inode dir).nlinks then emlink
  else if inodeMaxname < name.length then enametoolong
  else 0

/-- `hammer2_vop_ncreate`, with the number `inum` from `hammer2_trans_newinum`. -/
def vopNcreate (io : CreateIo) (s : NameSys) (dir : Nat) (name : Name) (inum : Nat)
    (type : ObjType) : NameSys × Nat :=
  if createRefused io s dir name type ≠ 0 then (s, createRefused io s dir name type)
  else
    let nip := newNode dir inum type
    let r := if io.create ≠ 0 then (s.es, io.create)
      else direntCreate icrc32 io.dirent s.es dir name inum type
    if r.2 ≠ 0 then
      (⟨r.1, Function.update s.inode inum (nip.unlinkFinisher false)⟩, errorToErrno r.2)
    else
      let inode := Function.update s.inode inum nip
      if io.igetv ≠ 0 then (⟨r.1, inode⟩, io.igetv)
      else if type = .softlink ∧ io.symlink ≠ 0 then (⟨r.1, inode⟩, io.symlink)
      else if type = .directory then (⟨r.1, modifyInode inode dir .addSubdir⟩, 0)
      else (⟨r.1, inode⟩, 0)

/-! ## Hard links -/

/-- The outcomes of a link: of the checks before it and of `hammer2_dirent_create`. -/
structure LinkIo where
  check : Nat
  dirent : DirentIo

/-- What a link is refused for before anything is done. -/
def linkRefused (io : LinkIo) (s : NameSys) (name : Name) (ip : Nat) : Nat :=
  if uint32Max ≤ (s.inode ip).nlinks then emlink
  else if io.check ≠ 0 then io.check
  else if inodeMaxname < name.length then enametoolong
  else if (s.inode ip).visible then eopnotsupp
  else 0

/-- `hammer2_vop_link`: the count goes up before the error is looked at. -/
def vopLink (io : LinkIo) (s : NameSys) (dir : Nat) (name : Name) (ip : Nat) : NameSys × Nat :=
  if linkRefused io s name ip ≠ 0 then (s, linkRefused io s name ip)
  else
    let r := direntCreate icrc32 io.dirent s.es dir name ip (s.inode ip).type
    (⟨r.1, modifyInode s.inode ip fun m => { m with nlinks := m.nlinks + 1 }⟩, errorToErrno r.2)

/-! ## Removal -/

/-- The outcomes of a removal: of the checks before it and of the backend. -/
structure RemoveIo where
  check : Nat
  xop : UnlinkIo

/-- `hammer2_vop_nremove`. -/
def vopNremove (io : RemoveIo) (s : NameSys) (dir : Nat) (name : Name) (isdir : Bool) :
    NameSys × Nat :=
  if io.check ≠ 0 then (s, io.check)
  else
    let r := xopUnlink icrc32 io.xop s.es dir name isdir
    if r.2.1 ≠ 0 then (⟨r.1, s.inode⟩, errorToErrno r.2.1)
    else
      let inode := match r.2.2 with
        | some i => modifyInode s.inode i (.unlinkFinisher true)
        | none => s.inode
      (⟨r.1, if isdir then modifyInode inode dir .dropSubdir else inode⟩, 0)

/-! ## Rename -/

/-- What `hammer2_vop_rename` is given: the entry `fname` of `fdir` for the inode `fip`, and the
entry `tname` of `tdir`, for the inode `tip` if it exists. -/
structure RenameArgs where
  fdir : Nat
  fname : Name
  fip : Nat
  tdir : Nat
  tname : Name
  tip : Option Nat
  deriving DecidableEq

/-- The outcomes of a rename: of the checks before it, of `hammer2_checkpath`, of the scan for a
free key (no error of a scan is `ENOENT`) and of the backend. -/
structure VopRenameIo where
  check : Nat
  checkpath : Nat
  scan : Option ErrorCode
  xop : RenameIo

/-- The part of `hammer2_vop_rename` before the backend: the error to return, or the new key. -/
def renameKey (io : VopRenameIo) (s : NameSys) (a : RenameArgs) : Except Nat DirKey :=
  if io.check ≠ 0 then .error io.check
  else if inodeMaxname < a.tname.length then .error enametoolong
  else if (s.inode a.fip).type = .directory ∧ a.fdir ≠ a.tdir ∧ io.checkpath ≠ 0 then
    .error io.checkpath
  else if (s.inode a.fip).type = .directory ∧ a.fdir ≠ a.tdir ∧
      uint32Max ≤ (s.inode a.tdir).nlinks then .error emlink
  else
    match io.scan with
    | some error => .error (errorToErrno error.1)
    | none =>
      match freeKey icrc32 s.es a.tdir a.tname with
      | none => .error enospc
      | some tlhc => .ok tlhc

/-- The request to the backend. -/
def NameSys.renameXop (s : NameSys) (a : RenameArgs) (tlhc : DirKey) : RenameXop where
  fdir := a.fdir
  fname := a.fname
  fip := a.fip
  visible := (s.inode a.fip).visible
  tdir := a.tdir
  tname := a.tname
  tlhc := tlhc
  tipDir := a.tip.filter fun t => (s.inode t).type = .directory

/-- The moved inode gets its new parent, and its new key if it stands in the directory. -/
def movedInodes (inode : Nat → NodeMeta) (a : RenameArgs) (tlhc : DirKey) : Nat → NodeMeta :=
  modifyInode inode a.fip fun m =>
    { m with nameKey := if m.visible then tlhc else m.nameKey, iparent := a.tdir }

/-- The moved inode and the replaced one, when the rename has been done. -/
def replacedInodes (inode : Nat → NodeMeta) (a : RenameArgs) (tlhc : DirKey) : Nat → NodeMeta :=
  match a.tip with
  | some t => modifyInode (movedInodes inode a tlhc) t (.unlinkFinisher true)
  | none => movedInodes inode a tlhc

/-- The inodes when the backend has returned: the moved inode and the replaced one if `error` is 0,
and the counts of the directories in every case. -/
def renameInodes (inode : Nat → NodeMeta) (a : RenameArgs) (tlhc : DirKey) (error : Nat) :
    Nat → NodeMeta :=
  let inode' := if error = 0 then replacedInodes inode a tlhc else inode
  if (inode a.fip).type = .directory then
    modifyInode (modifyInode inode' a.fdir .dropSubdir) a.tdir .addSubdir
  else inode'

/-- `if (error == ENOENT) error = 0`: the backend feeds no chain, so that its success is the end of
a scan. -/
def renameErrno (error : Nat) : Nat := if errorToErrno error = enoent then 0 else errorToErrno error

/-- `hammer2_vop_rename`. -/
def vopRename (io : VopRenameIo) (s : NameSys) (a : RenameArgs) : NameSys × Nat :=
  match renameKey icrc32 io s a with
  | .error error => (s, error)
  | .ok tlhc =>
    let r := xopNrename icrc32 (s.renameXop a tlhc) io.xop s.es
    (⟨r.1, renameInodes s.inode a tlhc (renameErrno r.2)⟩, renameErrno r.2)

end

/-! ## The counts after a rename -/

/-- The new key and the new parent do not matter to the finisher. -/
theorem unlinkFinisher_nlinks_of_eq {m m' : NodeMeta} (ht : m'.type = m.type)
    (hn : m'.nlinks = m.nlinks) :
    (m'.unlinkFinisher true).nlinks = (m.unlinkFinisher true).nlinks := by
  unfold NodeMeta.unlinkFinisher
  rw [ht, hn]
  split
  · rfl
  · rfl

theorem movedInodes_same (inode : Nat → NodeMeta) (a : RenameArgs) (tlhc : DirKey) (i : Nat) :
    (movedInodes inode a tlhc i).type = (inode i).type ∧
      (movedInodes inode a tlhc i).nlinks = (inode i).nlinks := by
  rw [movedInodes, modifyInode_apply]
  split
  · exact ⟨rfl, rfl⟩
  · exact ⟨rfl, rfl⟩

/-- The target that is replaced loses a link. -/
theorem replacedInodes_nlinks (inode : Nat → NodeMeta) (a : RenameArgs) (tlhc : DirKey) (i : Nat) :
    (replacedInodes inode a tlhc i).nlinks =
      if a.tip = some i then ((inode i).unlinkFinisher true).nlinks else (inode i).nlinks := by
  obtain ⟨ht, hn⟩ := movedInodes_same inode a tlhc i
  unfold replacedInodes
  cases a.tip with
  | none => simpa using hn
  | some t =>
    dsimp only
    rw [modifyInode_apply]
    by_cases hi : i = t
    · rw [if_pos hi, if_pos (by rw [hi]), unlinkFinisher_nlinks_of_eq ht hn]
    · rw [if_neg hi, if_neg (by simpa using Ne.symm hi), hn]

/-- The link counts after a rename. -/
theorem renameInodes_nlinks (inode : Nat → NodeMeta) (a : RenameArgs) (tlhc : DirKey)
    (error i : Nat) : (renameInodes inode a tlhc error i).nlinks =
      let n := if error = 0 ∧ a.tip = some i then ((inode i).unlinkFinisher true).nlinks
        else (inode i).nlinks
      let n' := if (inode a.fip).type = .directory ∧ i = a.fdir then decLinks n else n
      if (inode a.fip).type = .directory ∧ i = a.tdir then incLinks n' else n' := by
  have hn : ((if error = 0 then replacedInodes inode a tlhc else inode) i).nlinks =
      if error = 0 ∧ a.tip = some i then ((inode i).unlinkFinisher true).nlinks
      else (inode i).nlinks := by
    by_cases h0 : error = 0
    · simp only [h0, if_true, true_and, replacedInodes_nlinks]
    · simp only [h0, if_false, false_and]
  dsimp only [renameInodes]
  rw [← hn]
  by_cases hd : (inode a.fip).type = .directory
  · simp only [hd, if_true, modifyInode_apply, true_and, apply_ite NodeMeta.nlinks,
      NodeMeta.addSubdir_nlinks, NodeMeta.dropSubdir_nlinks]
  · simp only [hd, false_and, if_false]

end Hammer2
