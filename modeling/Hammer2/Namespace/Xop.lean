import Hammer2.Namespace.Dirent
import Hammer2.Xop.Collect

/-!
# The backends of the name space

The entries of all directories are one list in the order of their keys; the chains of a directory
are those with its number. The backends look a name up in the collision space of its hash, remove an
entry, or move one; the frontend picks a free key for a new entry by walking the collision space.
The outcome of every operation on the media is an input (`DirentIo`, `UnlinkIo`, `RenameIo`).

That a lookup followed by `hammer2_chain_next` goes through the entries of a range in order is what
`iterate` in `Hammer2.Chain.Iterate` is about; here it is `collisions`.

Reference: `hammer2_inode.c:1466-1529`, `hammer2_xops.c:59-120`, `hammer2_xops.c:233-744`,
`hammer2_xops.c:943-1004`.
-/

namespace Hammer2

/-- The order of the entries. -/
def keyLe (a b : Dirent) : Prop := a.key ≤ b.key

instance decidableKeyLe : DecidableRel keyLe := fun a b =>
  inferInstanceAs (Decidable (a.key ≤ b.key))

/-- The entry is in the range `[lo, hi]` of the directory. -/
def Dirent.inRange (dir : Nat) (lo hi : DirKey) (e : Dirent) : Bool :=
  e.dir == dir && decide (lo ≤ e.key) && decide (e.key ≤ hi)

/-- `hammer2_chain_create`: the chain is inserted under its key. -/
def insertDirent (e : Dirent) (es : List Dirent) : List Dirent := es.orderedInsert keyLe e

/-! ## A free key -/

/-- The walk over the keys that follow the hash: it stops at the first gap, and goes one past a run
that has no gap. -/
def scanLhc : DirKey → List DirKey → DirKey
  | lhc, [] => lhc + 1#64
  | lhc, k :: ks => if lhc ≠ k then lhc else scanLhc (lhc + 1#64) ks

section
variable (icrc32 : Name → BitVec 32)

/-- The entries that `hammer2_chain_lookup` and `hammer2_chain_next` return for the hash `lhc`. -/
def collisions (es : List Dirent) (dir : Nat) (lhc : DirKey) : List Dirent :=
  es.filter (Dirent.inRange dir lhc (lhc + dirhashLomask))

/-- The entry the backends take for a name. -/
def findDirent (es : List Dirent) (dir : Nat) (name : Name) : Option Dirent :=
  (collisions es dir (dirhash icrc32 name)).find? (direntTest · name)

/-- The inode number `hammer2_xop_nresolve` returns for a name. -/
def nresolve (es : List Dirent) (dir : Nat) (name : Name) : Option Nat :=
  (findDirent icrc32 es dir name).map Dirent.inum

/-- The key for a new entry, if the walk ends in the collision space. -/
def freeKey (es : List Dirent) (dir : Nat) (name : Name) : Option DirKey :=
  let base := dirhash icrc32 name
  let lhc := scanLhc base ((collisions es dir base).map Dirent.key)
  if (base ^^^ lhc) &&& ~~~dirhashLomask = 0#64 then some lhc else none

/-! ## Creating an entry -/

/-- The entries without those that went with a block of the directory: `hammer2_chain_modify` of the
block failed in I/O and dropped its table (`ChainBlock.failed`), with these keys in it. -/
def dropTorn (es : List Dirent) (dir : Nat) (torn : List DirKey) : List Dirent :=
  es.filter fun e => !(e.dir == dir && torn.contains e.key)

/-- The outcome of the operations of `hammer2_dirent_create`: the scan fails, the directory's chain
is not found, or the insertion fails, after the chain without a name is in place, or before that,
when the directory needs an indirect block and the modify of a block drops the entries `torn`. -/
inductive DirentIo
  | ok
  | scan (error : ErrorCode)
  | noParent
  | create (error : ErrorCode) (inserted : Bool) (torn : List DirKey)

/-- The entries that a creation drops. -/
def DirentIo.torn : DirentIo → List DirKey
  | .create _ false torn => torn
  | _ => []

/-- The chain that a creation leaves when it fails after the insertion. -/
def blankDirent (dir : Nat) (key : DirKey) : Dirent :=
  ⟨dir, key, 0, .unknown, false, 0, List.replicate checkBufBytes 0, none⟩

/-- `hammer2_xop_inode_mkdirent`. -/
def xopMkdirent (io : DirentIo) (es : List Dirent) (dir : Nat) (key : DirKey) (name : Name)
    (inum : Nat) (type : ObjType) : List Dirent × Nat :=
  match io with
  | .noParent => (es, errorEio)
  | _ =>
    if es.any (Dirent.inRange dir key key) then (es, errorEexist)
    else
      match io with
      | .create error inserted torn =>
        (if inserted then insertDirent (blankDirent dir key) es else dropTorn es dir torn, error.1)
      | _ => (insertDirent (mkdirent dir key inum type name) es, 0)

/-- `hammer2_dirent_create`, with the error word of the backend. -/
def direntCreate (io : DirentIo) (es : List Dirent) (dir : Nat) (name : Name) (inum : Nat)
    (type : ObjType) : List Dirent × Nat :=
  match io with
  | .scan error => (es, error.1)
  | _ =>
    match freeKey icrc32 es dir name with
    | none => (es, errorEnospc)
    | some key => xopMkdirent io es dir key name inum type

/-! ## Removing an entry -/

/-- The outcomes of the operations of `hammer2_xop_unlink`: the error with which the entry is not
found or was read, that of the check for an empty directory, that of the deletion with the keys of
the entries that it drops when it fails, and whether the inode of the entry is found. -/
structure UnlinkIo where
  lookup : Nat
  checkEmpty : Nat
  delete : Nat
  torn : List DirKey
  inodeFind : Bool
  deriving DecidableEq

/-- No operation fails. -/
def UnlinkIo.ok : UnlinkIo := ⟨0, 0, 0, [], true⟩

/-- `checkdirempty`: whether a directory has an entry. -/
def dirNotEmpty (es : List Dirent) (dir : Nat) : Bool := es.any (·.dir == dir)

/-- The error with which `hammer2_xop_unlink` refuses to delete the entry. -/
def unlinkRefused (io : UnlinkIo) (es : List Dirent) (e : Dirent) (isdir : Bool) : Nat :=
  if e.type = .directory then
    if !isdir then errorEisdir
    else if io.checkEmpty ≠ 0 then io.checkEmpty
    else if dirNotEmpty es e.inum then errorEnotempty
    else 0
  else if isdir then errorEnotdir
  else 0

/-- The error with which `hammer2_xop_unlink` refuses or fails to delete the entry. -/
def unlinkError (io : UnlinkIo) (es : List Dirent) (e : Dirent) (isdir : Bool) : Nat :=
  if unlinkRefused io es e isdir ≠ 0 then unlinkRefused io es e isdir else io.delete

/-- The entries once the deletion of the entry is refused, has failed or is done. -/
def unlinkLeft (io : UnlinkIo) (es : List Dirent) (dir : Nat) (e : Dirent) (isdir : Bool) :
    List Dirent :=
  if unlinkRefused io es e isdir ≠ 0 then es
  else if io.delete ≠ 0 then dropTorn es dir io.torn
  else es.erase e

/-- `hammer2_xop_unlink` and its collection: the entries, the error, and the inode of the entry. An
inode that is not found leaves nothing to feed, which is the end of a scan. -/
def xopUnlink (io : UnlinkIo) (es : List Dirent) (dir : Nat) (name : Name) (isdir : Bool) :
    List Dirent × Nat × Option Nat :=
  if io.lookup ≠ 0 then (es, io.lookup, none)
  else
    match findDirent icrc32 es dir name with
    | none => (es, errorEnoent, none)
    | some e =>
      let error := unlinkError io es e isdir
      let es' := unlinkLeft io es dir e isdir
      if io.inodeFind then (es', error, some e.inum)
      else (es', if error = 0 then errorEnoent else error, none)

/-! ## Moving an entry -/

/-- The outcomes of the operations of `hammer2_xop_nrename`, in order: the error of the check of the
replaced directory, that with which the source entry is not found or was read, that of its deletion
with the keys of the entries that it drops, of the resize and the modification for its new name, of
the modification for its new parent, whether the target directory's chain is found, the keys of the
target's entries whose deletion fails, the key from which the scan for them fails with its error,
and the error of the insertion; `ttorn` are the entries of the target directory that these drop. -/
structure RenameIo where
  tip : Nat
  source : Nat
  delete : Nat
  torn : List DirKey
  resize : Nat
  modify : Nat
  reparent : Nat
  tparent : Bool
  undeleted : List DirKey
  scan : Option (DirKey × ErrorCode)
  create : Nat
  ttorn : List DirKey
  deriving DecidableEq

/-- No operation fails. -/
def RenameIo.ok : RenameIo := ⟨0, 0, 0, [], 0, 0, 0, true, [], none, 0, []⟩

/-- What is moved: the entry `fname` of `fdir`, of the inode `fip` (found through the inode itself
when it is `visible`), to `tname` of `tdir` under the key `tlhc`; `tipDir` is the directory
replaced. -/
structure RenameXop where
  fdir : Nat
  fname : Name
  fip : Nat
  visible : Bool
  tdir : Nat
  tname : Name
  tlhc : DirKey
  tipDir : Option Nat
  deriving DecidableEq

/-- The source entry. -/
def RenameXop.findSource (x : RenameXop) (es : List Dirent) : Option Dirent :=
  if x.visible then es.find? fun e => e.embedded && e.inum == x.fip
  else findDirent icrc32 es x.fdir x.fname

/-- The error with which the backend stops before it has deleted the source. -/
def RenameXop.tipError (x : RenameXop) (io : RenameIo) (es : List Dirent) : Nat :=
  match x.tipDir with
  | none => 0
  | some t => if io.tip ≠ 0 then io.tip else if dirNotEmpty es t then errorEnotempty else 0

/-- The moved chain gets a new key or a new name. -/
def RenameXop.renames (x : RenameXop) (e : Dirent) : Bool :=
  decide (e.key ≠ x.tlhc) || decide (x.fname ≠ x.tname)

/-- The change of the name, with its error. -/
def RenameXop.newName (x : RenameXop) (io : RenameIo) (e : Dirent) : Dirent × Nat :=
  if x.renames e then
    if !e.embedded && decide (io.resize ≠ 0) then (e, io.resize)
    else if io.modify ≠ 0 then (e, io.modify)
    else (e.setName x.tname, 0)
  else (e, 0)

/-- The chain that a rename puts in place. -/
def RenameXop.moved (x : RenameXop) (io : RenameIo) (e : Dirent) : Dirent :=
  { (x.newName io e).1 with dir := x.tdir, key := x.tlhc }

/-- The error after the change of the parent, which replaces the one before. -/
def RenameXop.moveError (x : RenameXop) (io : RenameIo) (e : Dirent) : Nat :=
  if e.embedded && decide (e.dir ≠ x.tdir) then io.reparent else (x.newName io e).2

/-- The target's entries that the scan comes to. -/
def RenameXop.meets (x : RenameXop) (io : RenameIo) (f : Dirent) : Bool :=
  f.inRange x.tdir (x.tlhc &&& ~~~dirhashLomask) (x.tlhc ||| dirhashLomask) &&
    direntTest f x.tname &&
    match io.scan with
    | some (stop, _) => decide (f.key < stop)
    | none => true

/-- The target's entries that the backend deletes: the error of a deletion does not outlive the next
step of the scan. -/
def RenameXop.replaces (x : RenameXop) (io : RenameIo) (f : Dirent) : Bool :=
  x.meets io f && !io.undeleted.contains f.key

/-- The entries that are left when the scan for those to replace has ended. -/
def RenameXop.kept (x : RenameXop) (io : RenameIo) (es : List Dirent) : List Dirent :=
  let es' := es.filter fun f => !x.replaces io f
  if es.any fun f => x.meets io f && io.undeleted.contains f.key then dropTorn es' x.tdir io.ttorn
  else es'

/-- The part of `hammer2_xop_nrename` after the deletion of the source entry `e`. -/
def RenameXop.finish (x : RenameXop) (io : RenameIo) (es : List Dirent) (e : Dirent) :
    List Dirent × Nat :=
  if !io.tparent then (es, errorEio)
  else if x.moveError io e ≠ 0 then (es, x.moveError io e)
  else
    match io.scan with
    | some (_, error) => (x.kept io es, error.1)
    | none =>
      if io.create ≠ 0 then (dropTorn (x.kept io es) x.tdir io.ttorn, io.create)
      else (insertDirent (x.moved io e) (x.kept io es), 0)

/-- `hammer2_xop_nrename`. -/
def xopNrename (x : RenameXop) (io : RenameIo) (es : List Dirent) : List Dirent × Nat :=
  if x.tipError io es ≠ 0 then (es, x.tipError io es)
  else if io.source ≠ 0 then (es, io.source)
  else
    match x.findSource icrc32 es with
    | none => (es, errorEnoent)
    | some e =>
      if io.delete ≠ 0 then (dropTorn es e.dir io.torn, io.delete)
      else x.finish io (es.erase e) e

end

/-! ## Well-kept directories -/

/-- Two entries are not of one directory and one key. -/
def KeysApart (a b : Dirent) : Prop := a.dir = b.dir → a.key ≠ b.key

/-- Two entries are not of one directory and one name. -/
def NamesApart (a b : Dirent) : Prop := a.dir = b.dir → a.name ≠ b.name

instance keysApart_symm : Std.Symm KeysApart := ⟨fun _ _ h hd => (h hd.symm).symm⟩

instance namesApart_symm : Std.Symm NamesApart := ⟨fun _ _ h hd => (h hd.symm).symm⟩

instance keyLe_total : Std.Total keyLe := ⟨fun a b => BitVec.le_total a.key b.key⟩

instance keyLe_trans : IsTrans Dirent keyLe := ⟨fun _ _ _ hab hbc => BitVec.le_trans hab hbc⟩

/-- The entries are in the order of their keys; in one directory no two have one key or one name;
each holds its whole name, and its key is in the collision space of that name. -/
structure WellKept (icrc32 : Name → BitVec 32) (es : List Dirent) : Prop where
  sorted : es.Pairwise keyLe
  keys : es.Pairwise KeysApart
  names : es.Pairwise NamesApart
  stored : ∀ e ∈ es, e.Stored
  hashed : ∀ e ∈ es, (e.key ^^^ dirhash icrc32 e.name) &&& ~~~dirhashLomask = 0#64

/-- What a lookup by name needs of the entries: among the names in `named`, an entry is found under
the hash of its name, and no two entries of one directory have one name. A creation that fails
halfway leaves an entry without a name, so that `named` is not always every name. -/
structure NamesKept (icrc32 : Name → BitVec 32) (named : Name → Prop) (es : List Dirent) :
    Prop where
  stored : ∀ e ∈ es, e.Stored
  hashed : ∀ e ∈ es, named e.name → (e.key ^^^ dirhash icrc32 e.name) &&& ~~~dirhashLomask = 0#64
  names : es.Pairwise fun a b => named a.name → NamesApart a b

section
variable {icrc32 : Name → BitVec 32} {es : List Dirent} {e f : Dirent} {dir : Nat} {name : Name}
  {key : DirKey} {named : Name → Prop}

/-- The entries of a collision space. -/
theorem mem_collisions {lhc : DirKey} (hl : lhc &&& dirhashLomask = 0#64) :
    e ∈ collisions es dir lhc ↔
      e ∈ es ∧ e.dir = dir ∧ (e.key ^^^ lhc) &&& ~~~dirhashLomask = 0#64 := by
  rw [collisions, List.mem_filter, ← range_iff hl]
  simp [Dirent.inRange, and_assoc]

theorem dropTorn_sublist (es : List Dirent) (dir : Nat) (torn : List DirKey) :
    (dropTorn es dir torn).Sublist es := List.filter_sublist

/-- Nothing is dropped exactly if no entry of the directory is among the keys. -/
theorem dropTorn_eq_self_iff {torn : List DirKey} :
    dropTorn es dir torn = es ↔ ∀ f ∈ es, f.dir = dir → f.key ∉ torn := by
  rw [dropTorn, List.filter_eq_self]
  refine forall₂_congr fun f _ => ?_
  simp [imp_iff_not_or]

theorem mem_insertDirent : f ∈ insertDirent e es ↔ f = e ∨ f ∈ es := List.mem_orderedInsert _

theorem WellKept.nil : WellKept icrc32 [] := by
  constructor <;> simp

/-- A part of well-kept directories is well kept. -/
theorem WellKept.sublist {es' : List Dirent} (h : WellKept icrc32 es) (hs : es'.Sublist es) :
    WellKept icrc32 es' where
  sorted := h.sorted.sublist hs
  keys := h.keys.sublist hs
  names := h.names.sublist hs
  stored := fun e he => h.stored e (hs.mem he)
  hashed := fun e he => h.hashed e (hs.mem he)

/-- A new entry under a free key and a free name. -/
theorem WellKept.insert (h : WellKept icrc32 es) (hst : e.Stored)
    (hhash : (e.key ^^^ dirhash icrc32 e.name) &&& ~~~dirhashLomask = 0#64)
    (hkey : ∀ f ∈ es, KeysApart e f) (hname : ∀ f ∈ es, NamesApart e f) :
    WellKept icrc32 (insertDirent e es) where
  sorted := h.sorted.orderedInsert e es
  keys := ((es.perm_orderedInsert keyLe e).pairwise_iff fun {_ _} h => keysApart_symm.symm _ _ h).2
    (List.pairwise_cons.2 ⟨hkey, h.keys⟩)
  names := ((es.perm_orderedInsert keyLe e).pairwise_iff
    fun {_ _} h => namesApart_symm.symm _ _ h).2 (List.pairwise_cons.2 ⟨hname, h.names⟩)
  stored := fun f hf => (mem_insertDirent.1 hf).elim (fun he => he ▸ hst) (h.stored f)
  hashed := fun f hf => (mem_insertDirent.1 hf).elim (fun he => he ▸ hhash) (h.hashed f)

/-- Well kept means that all names are. -/
theorem WellKept.namesKept (h : WellKept icrc32 es) : NamesKept icrc32 (fun _ => True) es where
  stored := h.stored
  hashed := fun e he _ => h.hashed e he
  names := h.names.imp fun hab _ => hab

theorem namedApart_symm (named : Name → Prop) :
    Std.Symm fun a b : Dirent => named a.name → NamesApart a b :=
  ⟨fun _ _ hab hb hd hn => hab (hn ▸ hb) hd.symm hn.symm⟩

/-- A name has one entry. -/
theorem NamesKept.eq_of_name (h : NamesKept icrc32 named es) (he : e ∈ es) (hf : f ∈ es)
    (hn : named e.name) (hd : e.dir = f.dir) (hname : e.name = f.name) : e = f := by
  by_contra hne
  have hsymm := namedApart_symm named
  exact h.names.forall he hf hne hn hd hname

theorem NamesKept.nil : NamesKept icrc32 named [] := by
  constructor <;> simp

/-- Fewer entries keep the names. -/
theorem NamesKept.sublist {es' : List Dirent} (h : NamesKept icrc32 named es)
    (hs : es'.Sublist es) : NamesKept icrc32 named es' where
  stored := fun e he => h.stored e (hs.mem he)
  hashed := fun e he => h.hashed e (hs.mem he)
  names := h.names.sublist hs

/-- A new entry without a name, or with one that is free. -/
theorem NamesKept.insert (h : NamesKept icrc32 named es) (hst : e.Stored)
    (hhash : named e.name → (e.key ^^^ dirhash icrc32 e.name) &&& ~~~dirhashLomask = 0#64)
    (hname : ∀ f ∈ es, named e.name → NamesApart e f) :
    NamesKept icrc32 named (insertDirent e es) where
  stored := fun f hf => (mem_insertDirent.1 hf).elim (fun he => he ▸ hst) (h.stored f)
  hashed := fun f hf => (mem_insertDirent.1 hf).elim (fun he => he ▸ hhash) (h.hashed f)
  names := ((es.perm_orderedInsert keyLe e).pairwise_iff
    fun {_ _} h => (namedApart_symm named).symm _ _ h).2 (List.pairwise_cons.2 ⟨hname, h.names⟩)

/-- An entry with a name stands in the list once. -/
theorem NamesKept.not_mem_erase : ∀ {es : List Dirent}, NamesKept icrc32 named es → named e.name →
    e ∉ es.erase e
  | [], _, _ => List.not_mem_nil
  | f :: es, h, hn => by
    obtain ⟨hhead, htail⟩ := List.pairwise_cons.1 h.names
    by_cases hf : f = e
    · subst hf
      rw [List.erase_cons_head]
      exact fun hmem => hhead f hmem hn rfl rfl
    · rw [List.erase_cons_tail (by simpa using hf), List.mem_cons, not_or]
      exact ⟨fun he => hf he.symm, NamesKept.not_mem_erase
        ⟨fun g hg => h.stored g (List.mem_cons_of_mem f hg),
          fun g hg => h.hashed g (List.mem_cons_of_mem f hg), htail⟩ hn⟩

/-- A name has one entry. -/
theorem WellKept.eq_of_name (h : WellKept icrc32 es) (he : e ∈ es) (hf : f ∈ es)
    (hd : e.dir = f.dir) (hn : e.name = f.name) : e = f :=
  h.namesKept.eq_of_name he hf trivial hd hn

/-- No entry comes twice. -/
theorem WellKept.nodup (h : WellKept icrc32 es) : es.Nodup := by
  refine h.keys.imp ?_
  rintro a _ hab rfl
  exact hab rfl rfl

/-- Deleting an entry leaves the others. -/
theorem WellKept.mem_erase (h : WellKept icrc32 es) : f ∈ es.erase e ↔ f ≠ e ∧ f ∈ es :=
  h.nodup.mem_erase_iff

/-- What a lookup finds is an entry of the name. -/
theorem findDirent_spec (hst : ∀ e ∈ es, e.Stored) (hf : findDirent icrc32 es dir name = some e) :
    e ∈ es ∧ e.dir = dir ∧ e.name = name := by
  obtain ⟨hmem, hdir, -⟩ :=
    (mem_collisions (dirhash_lomask icrc32 name)).1 (List.mem_of_find?_eq_some hf)
  have htest : direntTest e name = true := List.find?_some (p := (direntTest · name)) hf
  exact ⟨hmem, hdir, (direntTest_iff (hst e hmem)).1 htest⟩

/-- **The lookup finds the entry of a name**, whatever else is in its collision space. -/
theorem NamesKept.findDirent_iff (h : NamesKept icrc32 named es) (hn : named name) :
    findDirent icrc32 es dir name = some e ↔ e ∈ es ∧ e.dir = dir ∧ e.name = name := by
  refine ⟨findDirent_spec h.stored, ?_⟩
  rintro ⟨hmem, rfl, rfl⟩
  have hcol : e ∈ collisions es e.dir (dirhash icrc32 e.name) :=
    (mem_collisions (dirhash_lomask icrc32 e.name)).2 ⟨hmem, rfl, h.hashed e hmem hn⟩
  have htest : direntTest e e.name = true := (direntTest_iff (h.stored e hmem)).2 rfl
  obtain ⟨f, hf⟩ := Option.isSome_iff_exists.1
    (List.find?_isSome (p := (direntTest · e.name)).2 ⟨e, hcol, htest⟩)
  obtain ⟨hfm, hfd, hfn⟩ :=
    findDirent_spec h.stored (show findDirent icrc32 es e.dir e.name = some f from hf)
  rw [findDirent, hf, h.eq_of_name hmem hfm hn hfd.symm hfn.symm]

/-- A name is not found if no entry has it. -/
theorem NamesKept.findDirent_none_iff (h : NamesKept icrc32 named es) (hn : named name) :
    findDirent icrc32 es dir name = none ↔ ∀ e ∈ es, e.dir = dir → e.name ≠ name := by
  rw [Option.eq_none_iff_forall_ne_some]
  refine forall_congr' fun e => ?_
  rw [ne_eq, h.findDirent_iff hn]
  tauto

/-- The entries of one name are the one that the lookup finds. -/
theorem NamesKept.filter_name (h : NamesKept icrc32 named es) (hn : named name) {r : Dirent → Bool}
    (hr : ∀ f ∈ es, r f = true ↔ f.dir = dir ∧ f.name = name) :
    es.filter r = (findDirent icrc32 es dir name).toList := by
  cases hf : findDirent icrc32 es dir name with
  | none =>
    refine List.filter_eq_nil_iff.2 fun f hmem hrf => ?_
    obtain ⟨hd, hname⟩ := (hr f hmem).1 hrf
    exact (h.findDirent_none_iff hn).1 hf f hmem hd hname
  | some f =>
    obtain ⟨hmem, rfl, rfl⟩ := (h.findDirent_iff hn).1 hf
    have hall : es.filter r = List.replicate (es.filter r).length f := by
      refine List.eq_replicate_of_mem fun g hg => ?_
      obtain ⟨hg, hrg⟩ := List.mem_filter.1 hg
      obtain ⟨hd, hname⟩ := (hr g hg).1 hrg
      exact (h.eq_of_name hmem hg hn hd.symm hname.symm).symm
    have hpair : (es.filter r).Pairwise _ := (h.sublist List.filter_sublist).names
    have hpos := List.length_pos_of_mem (List.mem_filter.2 ⟨hmem, (hr f hmem).2 ⟨rfl, rfl⟩⟩)
    rw [hall, List.pairwise_replicate] at hpair
    have hone := hpair.resolve_right fun hself => hself hn rfl rfl
    rw [hall, show (es.filter r).length = 1 by omega]
    rfl

/-- A name is found in the entry that has it. -/
theorem findDirent_eq_some_iff (h : WellKept icrc32 es) :
    findDirent icrc32 es dir name = some e ↔ e ∈ es ∧ e.dir = dir ∧ e.name = name :=
  h.namesKept.findDirent_iff trivial

/-- A name is not found if no entry has it. -/
theorem findDirent_eq_none_iff (h : WellKept icrc32 es) :
    findDirent icrc32 es dir name = none ↔ ∀ e ∈ es, e.dir = dir → e.name ≠ name :=
  h.namesKept.findDirent_none_iff trivial

/-- A name resolves to the inode of its entry. -/
theorem nresolve_eq_some_iff (h : WellKept icrc32 es) {inum : Nat} :
    nresolve icrc32 es dir name = some inum ↔
      ∃ e ∈ es, e.dir = dir ∧ e.name = name ∧ e.inum = inum := by
  rw [nresolve, Option.map_eq_some_iff]
  constructor
  · rintro ⟨e, hf, hi⟩
    obtain ⟨he, hd, hn⟩ := (findDirent_eq_some_iff h).1 hf
    exact ⟨e, he, hd, hn, hi⟩
  · rintro ⟨e, he, hd, hn, hi⟩
    exact ⟨e, (findDirent_eq_some_iff h).2 ⟨he, hd, hn⟩, hi⟩

/-! ## The free key -/

/-- The walk on numbers. -/
def firstGap : Nat → List Nat → Nat
  | n, [] => n + 1
  | n, k :: ks => if n ≠ k then n else firstGap (n + 1) ks

/-- The walk does not go round the end of the key space before it has met all keys. -/
theorem scanLhc_eq : ∀ {ks : List DirKey} {n : Nat}, (∀ k ∈ ks, n ≤ k.toNat) →
    ks.Pairwise (· < ·) → scanLhc (BitVec.ofNat 64 n) ks =
      BitVec.ofNat 64 (firstGap n (ks.map BitVec.toNat))
  | [], n, _, _ => by rw [scanLhc, List.map_nil, firstGap, BitVec.ofNat_add]
  | k :: ks, n, hn, hs => by
    have hk : n ≤ k.toNat := hn k List.mem_cons_self
    have hlt := k.isLt
    have hiff : BitVec.ofNat 64 n = k ↔ n = k.toNat := by
      rw [BitVec.toNat_eq, BitVec.toNat_ofNat, Nat.mod_eq_of_lt (by omega)]
    obtain ⟨hhead, htail⟩ := List.pairwise_cons.1 hs
    rw [scanLhc, List.map_cons, firstGap]
    by_cases h : n = k.toNat
    · rw [if_neg (not_not.2 (hiff.2 h)), if_neg (not_not.2 h), ← BitVec.ofNat_add]
      refine scanLhc_eq (fun j hj => ?_) htail
      have := BitVec.lt_def.1 (hhead j hj)
      omega
    · rw [if_pos (fun he => h (hiff.1 he)), if_pos h]

/-- The walk ends in a gap, at most one past as many keys as there are, and at most one past a bound
of the keys. -/
theorem firstGap_spec {b : Nat} : ∀ {ks : List Nat} {n : Nat}, (∀ k ∈ ks, n ≤ k ∧ k < b) → n ≤ b →
    ks.Pairwise (· < ·) → firstGap n ks ∉ ks ∧ n ≤ firstGap n ks ∧
      firstGap n ks ≤ n + ks.length + 1 ∧ firstGap n ks ≤ b + 1
  | [], n, _, hb, _ => by simp [firstGap, hb]
  | k :: ks, n, hn, _, hs => by
    obtain ⟨hhead, htail⟩ := List.pairwise_cons.1 hs
    have hk := hn k List.mem_cons_self
    rw [firstGap]
    by_cases h : n = k
    · have hge : ∀ j ∈ ks, n + 1 ≤ j ∧ j < b := fun j hj => by
        have := hhead j hj
        have := hn j (List.mem_cons_of_mem k hj)
        omega
      obtain ⟨h₁, h₂, h₃, h₄⟩ := firstGap_spec hge (by omega) htail
      rw [if_neg (not_not.2 h), List.mem_cons, List.length_cons]
      exact ⟨not_or.2 ⟨by omega, h₁⟩, by omega, by omega, h₄⟩
    · rw [if_pos h]
      refine ⟨fun hmem => ?_, le_rfl, by omega, by omega⟩
      rcases List.mem_cons.1 hmem with hnk | hmem
      · exact h hnk
      · have := hhead n hmem
        omega

/-- The keys that the walk meets increase, within the collision space. -/
theorem WellKept.collision_keys (h : WellKept icrc32 es) (dir : Nat) (name : Name) :
    ((collisions es dir (dirhash icrc32 name)).map Dirent.key).Pairwise (· < ·) ∧
      ∀ k ∈ (collisions es dir (dirhash icrc32 name)).map Dirent.key,
        (dirhash icrc32 name).toNat ≤ k.toNat ∧
        k.toNat < (dirhash icrc32 name).toNat + collisionSpace := by
  have hlo := dirhash_lomask icrc32 name
  refine ⟨?_, fun k hk => ?_⟩
  · have hpair : (collisions es dir (dirhash icrc32 name)).Pairwise
        fun a b => keyLe a b ∧ KeysApart a b :=
      (h.sorted.and h.keys).sublist List.filter_sublist
    refine List.pairwise_map.2 (hpair.imp_of_mem fun {a b} ha hb hab => ?_)
    have hd : a.dir = b.dir := by
      rw [((mem_collisions hlo).1 ha).2.1, ((mem_collisions hlo).1 hb).2.1]
    exact BitVec.lt_of_le_ne hab.1 (hab.2 hd)
  · obtain ⟨e, he, rfl⟩ := List.mem_map.1 hk
    have hr := (xor_lomask_eq_zero_iff _ _).1 ((mem_collisions hlo).1 he).2.2
    have hmod := toNat_mod_of_lomask hlo
    unfold collisionSpace at *
    omega

/-- Where the walk ends. -/
theorem WellKept.scan_eq (h : WellKept icrc32 es) (dir : Nat) (name : Name) :
    scanLhc (dirhash icrc32 name) ((collisions es dir (dirhash icrc32 name)).map Dirent.key) =
      BitVec.ofNat 64 (firstGap (dirhash icrc32 name).toNat
        (((collisions es dir (dirhash icrc32 name)).map Dirent.key).map BitVec.toNat)) := by
  obtain ⟨hs, hr⟩ := h.collision_keys dir name
  have := scanLhc_eq (n := (dirhash icrc32 name).toNat) (fun k hk => (hr k hk).1) hs
  rwa [BitVec.ofNat_toNat, BitVec.setWidth_eq] at this

/-- The first gap in a collision space is a free key. -/
theorem WellKept.gap_spec (h : WellKept icrc32 es) (dir : Nat) (name : Name) :
    let ks := ((collisions es dir (dirhash icrc32 name)).map Dirent.key).map BitVec.toNat
    let n := (dirhash icrc32 name).toNat
    firstGap n ks ∉ ks ∧ n ≤ firstGap n ks ∧ firstGap n ks ≤ n + ks.length + 1 ∧
      firstGap n ks ≤ n + collisionSpace + 1 := by
  obtain ⟨hs, hr⟩ := h.collision_keys dir name
  refine firstGap_spec (fun k hk => ?_) (by omega) (List.pairwise_map.2 (hs.imp BitVec.lt_def.1))
  obtain ⟨j, hj, rfl⟩ := List.mem_map.1 hk
  exact hr j hj

/-- The key of a new entry is in the collision space of its name. -/
theorem freeKey_hash (hk : freeKey icrc32 es dir name = some key) :
    (key ^^^ dirhash icrc32 name) &&& ~~~dirhashLomask = 0#64 := by
  rw [freeKey] at hk
  split at hk
  · next hx =>
    cases hk
    rw [BitVec.xor_comm]
    exact hx
  · cases hk

/-- The key of a new entry is free, and in the collision space of its name. -/
theorem freeKey_spec (h : WellKept icrc32 es) (hk : freeKey icrc32 es dir name = some key) :
    (key ^^^ dirhash icrc32 name) &&& ~~~dirhashLomask = 0#64 ∧
      ∀ f ∈ es, f.dir = dir → f.key ≠ key := by
  have hlo := dirhash_lomask icrc32 name
  rw [freeKey, h.scan_eq dir name] at hk
  obtain ⟨hnot, hge, -, hle⟩ := h.gap_spec dir name
  generalize firstGap _ _ = g at hk hnot hge hle
  split at hk
  · next hx =>
    cases hk
    rw [BitVec.xor_comm] at hx
    refine ⟨hx, fun f hf hd hfk => hnot ?_⟩
    -- the walk has not gone round the end of the key space
    have hdiv := (xor_lomask_eq_zero_iff _ _).1 hx
    have hmod := toNat_mod_of_lomask hlo
    have hlt := (dirhash icrc32 name).isLt
    have hg : (BitVec.ofNat 64 g).toNat = g := by
      rw [BitVec.toNat_ofNat] at hdiv ⊢
      unfold collisionSpace at *
      omega
    have hmem : f ∈ collisions es dir (dirhash icrc32 name) :=
      (mem_collisions hlo).2 ⟨hf, hd, by rw [hfk]; exact hx⟩
    rw [← hg, ← hfk]
    exact List.mem_map.2 ⟨f.key, List.mem_map.2 ⟨f, hmem, rfl⟩, rfl⟩
  · cases hk

/-- A key is refused only when all keys of the collision space but one are in use. -/
theorem freeKey_isSome (h : WellKept icrc32 es)
    (hn : (collisions es dir (dirhash icrc32 name)).length + 1 < collisionSpace) :
    (freeKey icrc32 es dir name).isSome = true := by
  have hlo := dirhash_lomask icrc32 name
  rw [freeKey, h.scan_eq dir name]
  obtain ⟨-, hge, hle, -⟩ := h.gap_spec dir name
  rw [List.length_map, List.length_map] at hle
  generalize firstGap _ _ = g at hge hle
  have hmod := toNat_mod_of_lomask hlo
  have hlt := (dirhash icrc32 name).isLt
  have hx : (dirhash icrc32 name ^^^ BitVec.ofNat 64 g) &&& ~~~dirhashLomask = 0#64 := by
    rw [xor_lomask_eq_zero_iff, BitVec.toNat_ofNat]
    unfold collisionSpace at *
    omega
  rw [if_pos hx]
  rfl

/-! ## What the backends do -/

/-- A creation puts the entry under a free key, or fails: it drops entries, or leaves at most an
entry without a name. -/
theorem direntCreate_cases (icrc32 : Name → BitVec 32) (io : DirentIo)
    (es : List Dirent) (dir : Nat)
    (name : Name) (inum : Nat) (type : ObjType) :
    (∃ key, freeKey icrc32 es dir name = some key ∧ direntCreate icrc32 io es dir name inum type =
      (insertDirent (mkdirent dir key inum type name) es, 0)) ∨
    ((direntCreate icrc32 io es dir name inum type).2 ≠ 0 ∧
      ((direntCreate icrc32 io es dir name inum type).1 = es ∨
        (direntCreate icrc32 io es dir name inum type).1 = dropTorn es dir io.torn ∨
        ∃ key, (direntCreate icrc32 io es dir name inum type).1 =
          insertDirent (blankDirent dir key) es)) := by
  have hmk : ∀ key, xopMkdirent io es dir key name inum type =
        (insertDirent (mkdirent dir key inum type name) es, 0) ∨
      ((xopMkdirent io es dir key name inum type).2 ≠ 0 ∧
        ((xopMkdirent io es dir key name inum type).1 = es ∨
          (xopMkdirent io es dir key name inum type).1 = dropTorn es dir io.torn ∨
          ∃ key', (xopMkdirent io es dir key name inum type).1 =
            insertDirent (blankDirent dir key') es)) := by
    intro key
    unfold xopMkdirent
    split
    · exact .inr ⟨(by decide : errorEio ≠ 0), .inl rfl⟩
    split
    · exact .inr ⟨(by decide : errorEexist ≠ 0), .inl rfl⟩
    split
    · next error inserted torn _ =>
      cases inserted
      · exact .inr ⟨error.2, .inr (.inl rfl)⟩
      · exact .inr ⟨error.2, .inr (.inr ⟨key, rfl⟩)⟩
    · exact .inl rfl
  unfold direntCreate
  split
  · next error => exact .inr ⟨error.2, .inl rfl⟩
  · cases hk : freeKey icrc32 es dir name with
    | none => exact .inr ⟨(by decide : errorEnospc ≠ 0), .inl rfl⟩
    | some key => exact (hmk key).imp_left fun h => ⟨key, rfl, h⟩

/-- A removal deletes the entry it finds, or reports an error and leaves everything but what its
deletion drops. -/
theorem xopUnlink_cases (icrc32 : Name → BitVec 32) (io : UnlinkIo) (es : List Dirent) (dir : Nat)
    (name : Name) (isdir : Bool) :
    (∃ e, findDirent icrc32 es dir name = some e ∧ unlinkError io es e isdir = 0 ∧
      xopUnlink icrc32 io es dir name isdir =
        if io.inodeFind then (es.erase e, 0, some e.inum) else (es.erase e, errorEnoent, none)) ∨
    (((xopUnlink icrc32 io es dir name isdir).1 = es ∨
        io.delete ≠ 0 ∧ (xopUnlink icrc32 io es dir name isdir).1 = dropTorn es dir io.torn) ∧
      (xopUnlink icrc32 io es dir name isdir).2.1 ≠ 0) := by
  unfold xopUnlink
  split
  · next h => exact .inr ⟨.inl rfl, h⟩
  cases hf : findDirent icrc32 es dir name with
  | none => exact .inr ⟨.inl rfl, (by decide : errorEnoent ≠ 0)⟩
  | some e =>
    unfold unlinkError unlinkLeft
    by_cases hre : unlinkRefused io es e isdir = 0
    · by_cases hd : io.delete = 0
      · exact .inl ⟨e, rfl, by simp [hre, hd], by simp [hre, hd]⟩
      · refine .inr ?_
        simp only [hre, hd, ne_eq, not_true_eq_false, not_false_eq_true, if_false, if_true]
        split
        · exact ⟨.inr ⟨trivial, rfl⟩, hd⟩
        · exact ⟨.inr ⟨trivial, rfl⟩, hd⟩
    · refine .inr ?_
      simp only [hre, ne_eq, not_false_eq_true, if_false, if_true]
      split
      · exact ⟨.inl rfl, hre⟩
      · exact ⟨.inl rfl, hre⟩

/-- A removal of a directory is for a directory, and an empty one. -/
theorem unlinkError_eq_zero {io : UnlinkIo} {isdir : Bool} (h : unlinkError io es e isdir = 0) :
    (isdir = true ↔ e.type = .directory) ∧
      (e.type = .directory → ∀ f ∈ es, f.dir ≠ e.inum) := by
  have hre : unlinkRefused io es e isdir = 0 := by
    by_contra hne
    rw [unlinkError, if_pos hne] at h
    exact hne h
  unfold unlinkRefused at hre
  split at hre
  · next ht =>
    split at hre
    · exact absurd hre (by decide)
    next hd =>
    split at hre
    · next hc => exact absurd hre hc
    split at hre
    · exact absurd hre (by decide)
    next hne =>
    refine ⟨iff_of_true (by simpa using hd) ht, fun _ f hf hdir => hne ?_⟩
    exact List.any_eq_true.2 ⟨f, hf, by simpa using hdir⟩
  · next ht =>
    split at hre
    · exact absurd hre (by decide)
    next hd =>
    exact ⟨iff_of_false hd ht, fun h => absurd h ht⟩

/-! ## The backends when nothing fails -/

/-- A creation puts the entry under a free key, or finds the collision space full. -/
theorem direntCreate_ok (h : WellKept icrc32 es) (inum : Nat) (type : ObjType) :
    (∃ key, freeKey icrc32 es dir name = some key ∧ direntCreate icrc32 .ok es dir name inum type =
      (insertDirent (mkdirent dir key inum type name) es, 0)) ∨
    (freeKey icrc32 es dir name = none ∧
      direntCreate icrc32 .ok es dir name inum type = (es, errorEnospc)) := by
  cases hk : freeKey icrc32 es dir name with
  | none => exact .inr ⟨rfl, by simp [direntCreate, hk]⟩
  | some key =>
    have hfree := (freeKey_spec h hk).2
    have hany : es.any (Dirent.inRange dir key key) = false := by
      rw [List.any_eq_false]
      intro f hf hr
      simp only [Dirent.inRange, Bool.and_eq_true, beq_iff_eq, decide_eq_true_eq] at hr
      exact hfree f hf hr.1.1 (BitVec.le_antisymm hr.2 hr.1.2)
    exact .inl ⟨key, rfl, by simp [direntCreate, hk, xopMkdirent, hany]⟩

/-- The new entry. -/
theorem mkdirent_spec (dir : Nat) (key : DirKey) (inum : Nat) (type : ObjType) (name : Name) :
    (mkdirent dir key inum type name).Stored ∧ (mkdirent dir key inum type name).name = name ∧
      (mkdirent dir key inum type name).dir = dir ∧ (mkdirent dir key inum type name).key = key ∧
      (mkdirent dir key inum type name).inum = inum ∧
      (mkdirent dir key inum type name).type = type :=
  have h := setName_spec ⟨dir, key, inum, type, false, 0, List.replicate checkBufBytes 0, none⟩ name
  ⟨h.1, h.2.1, h.2.2.1, h.2.2.2.1, h.2.2.2.2.1, h.2.2.2.2.2.1⟩

/-- A removal deletes the entry of the name, or leaves everything. -/
theorem xopUnlink_ok (icrc32 : Name → BitVec 32) (es : List Dirent) (dir : Nat) (name : Name)
    (isdir : Bool) : (∃ e, findDirent icrc32 es dir name = some e ∧
      unlinkError .ok es e isdir = 0 ∧
      xopUnlink icrc32 .ok es dir name isdir = (es.erase e, 0, some e.inum)) ∨
    ((xopUnlink icrc32 .ok es dir name isdir).1 = es ∧
      (xopUnlink icrc32 .ok es dir name isdir).2.1 ≠ 0 ∧
      ∀ e, findDirent icrc32 es dir name = some e → unlinkError .ok es e isdir ≠ 0) := by
  rcases xopUnlink_cases icrc32 .ok es dir name isdir with ⟨e, hf, he, heq⟩ | ⟨hes, hne⟩
  · exact .inl ⟨e, hf, he, heq⟩
  · refine .inr ⟨hes.resolve_right fun h => h.1 rfl, hne, fun e hf he => hne ?_⟩
    rw [xopUnlink, if_neg (by decide), hf]
    exact he

/-- The range of the scan for the replaced entries is the collision space of the new key. -/
theorem range_of_key {tlhc base : DirKey} (hb : base &&& dirhashLomask = 0#64)
    (hx : (tlhc ^^^ base) &&& ~~~dirhashLomask = 0#64) :
    tlhc &&& ~~~dirhashLomask = base ∧ tlhc ||| dirhashLomask = base + dirhashLomask := by
  have hbit : ∀ i : Nat, i < 64 → (base.getLsbD i && dirhashLomask.getLsbD i) = false ∧
      ((tlhc.getLsbD i ^^ base.getLsbD i) && !dirhashLomask.getLsbD i) = false := by
    intro i hi
    have h₁ := congrArg (BitVec.getLsbD · i) hb
    have h₂ := congrArg (BitVec.getLsbD · i) hx
    simp only [BitVec.getLsbD_and, BitVec.getLsbD_xor, BitVec.getLsbD_not, hi, decide_true,
      Bool.true_and, BitVec.getLsbD_zero] at h₁ h₂
    exact ⟨h₁, h₂⟩
  rw [BitVec.add_eq_or_of_and_eq_zero _ _ hb]
  constructor
  · refine BitVec.eq_of_getLsbD_eq fun i hi => ?_
    obtain ⟨h₁, h₂⟩ := hbit i hi
    simp only [BitVec.getLsbD_and, BitVec.getLsbD_not, hi, decide_true, Bool.true_and]
    revert h₁ h₂
    cases tlhc.getLsbD i <;> cases base.getLsbD i <;> cases dirhashLomask.getLsbD i <;> decide
  · refine BitVec.eq_of_getLsbD_eq fun i hi => ?_
    obtain ⟨h₁, h₂⟩ := hbit i hi
    simp only [BitVec.getLsbD_or]
    revert h₁ h₂
    cases tlhc.getLsbD i <;> cases base.getLsbD i <;> cases dirhashLomask.getLsbD i <;> decide

variable {x : RenameXop} {io : RenameIo}

/-- The scan for the replaced entries meets those of the target's name. -/
theorem replaces_range_iff (h : NamesKept icrc32 named es) (hf : f ∈ es) (htn : named x.tname)
    (hx : (x.tlhc ^^^ dirhash icrc32 x.tname) &&& ~~~dirhashLomask = 0#64) :
    (f.inRange x.tdir (x.tlhc &&& ~~~dirhashLomask) (x.tlhc ||| dirhashLomask) &&
      direntTest f x.tname) = true ↔ f.dir = x.tdir ∧ f.name = x.tname := by
  have hlo := dirhash_lomask icrc32 x.tname
  obtain ⟨hbeg, hend⟩ := range_of_key hlo hx
  rw [hbeg, hend, Bool.and_eq_true, direntTest_iff (h.stored f hf)]
  constructor
  · rintro ⟨hr, hn⟩
    simp only [Dirent.inRange, Bool.and_eq_true, beq_iff_eq] at hr
    exact ⟨hr.1.1, hn⟩
  · rintro ⟨hd, hn⟩
    have hmem : f ∈ collisions es x.tdir (dirhash icrc32 x.tname) :=
      (mem_collisions hlo).2 ⟨hf, hd, hn ▸ h.hashed f hf (hn ▸ htn)⟩
    exact ⟨(List.mem_filter.1 hmem).2, hn⟩

/-- The change of the name leaves the rest of the chain. -/
theorem newName_frame (x : RenameXop) (io : RenameIo) (he : e.Stored) : (x.newName io e).1.Stored ∧
    (x.newName io e).1.inum = e.inum ∧ (x.newName io e).1.type = e.type := by
  unfold RenameXop.newName
  split
  · split
    · exact ⟨he, rfl, rfl⟩
    · split
      · exact ⟨he, rfl, rfl⟩
      · obtain ⟨hs, -, -, -, hi, ht, -⟩ := setName_spec e x.tname
        exact ⟨hs, hi, ht⟩
  · exact ⟨he, rfl, rfl⟩

/-- The moved entry, under whatever name. -/
theorem moved_frame (x : RenameXop) (io : RenameIo) (he : e.Stored) :
    (x.moved io e).Stored ∧ (x.moved io e).dir = x.tdir ∧
    (x.moved io e).key = x.tlhc ∧ (x.moved io e).inum = e.inum ∧ (x.moved io e).type = e.type := by
  obtain ⟨hs, hi, ht⟩ := newName_frame x io he
  exact ⟨⟨hs.data, hs.length⟩, rfl, rfl, hi, ht⟩

/-- The moved entry has the new name when the change of its name did not fail. -/
theorem moved_name (hn : e.name = x.fname) (h0 : (x.newName io e).2 = 0) :
    (x.moved io e).name = x.tname := by
  change (x.newName io e).1.name = x.tname
  unfold RenameXop.newName at h0 ⊢
  split at h0
  · next hr =>
    rw [if_pos hr]
    split at h0
    · next h => simp_all
    · next h₁ =>
      rw [if_neg h₁]
      split at h0
      · next h => exact absurd h0 h
      · next h₂ =>
        rw [if_neg h₂]
        exact (setName_spec e x.tname).2.1
  · next hr =>
    rw [if_neg hr]
    simp only [RenameXop.renames, Bool.or_eq_true, decide_eq_true_eq, not_or, not_not] at hr
    rw [hn, hr.2]

/-- The entries are those that are not replaced when no deletion fails. -/
theorem kept_eq_filter (hu : ∀ f ∈ es, x.meets io f = true → f.key ∉ io.undeleted) :
    x.kept io es = es.filter fun f => !x.replaces io f := by
  rw [RenameXop.kept, if_neg]
  rw [List.any_eq_true]
  rintro ⟨f, hf, hm⟩
  rw [Bool.and_eq_true, List.contains_iff_mem] at hm
  exact hu f hf hm.1 hm.2

/-- The backend after the deletion of the source, when nothing fails any more. -/
theorem finish_done (htp : io.tparent = true) (hm : x.moveError io e = 0) (hs : io.scan = none)
    (hc : io.create = 0) : x.finish io es e =
      (insertDirent (x.moved io e) (x.kept io es), 0) := by
  simp [RenameXop.finish, htp, hm, hs, hc]

/-- The scan comes to the entries of the target's name when it does not fail. -/
theorem meets_iff (h : NamesKept icrc32 named es) (hf : f ∈ es) (htn : named x.tname)
    (hx : (x.tlhc ^^^ dirhash icrc32 x.tname) &&& ~~~dirhashLomask = 0#64) (hs : io.scan = none) :
    x.meets io f = true ↔ f.dir = x.tdir ∧ f.name = x.tname := by
  rw [← replaces_range_iff h hf htn hx, RenameXop.meets, hs, Bool.and_true]

/-- The entries of the target's name are replaced when none of their deletions fails. -/
theorem replaces_iff (h : NamesKept icrc32 named es) (hf : f ∈ es) (htn : named x.tname)
    (hx : (x.tlhc ^^^ dirhash icrc32 x.tname) &&& ~~~dirhashLomask = 0#64) (hs : io.scan = none)
    (hu : f.dir = x.tdir → f.name = x.tname → f.key ∉ io.undeleted) :
    x.replaces io f = true ↔ f.dir = x.tdir ∧ f.name = x.tname := by
  rw [RenameXop.replaces, Bool.and_eq_true, meets_iff h hf htn hx hs]
  refine and_iff_left_of_imp fun hdn => ?_
  simpa using hu hdn.1 hdn.2

/-- **A rename leaves the directories well kept**: the source is gone, the entries of the target's
name are replaced by the moved one, and every other entry is as it was. -/
theorem WellKept.rename (h : WellKept icrc32 es) (he : e ∈ es) (hn : e.name = x.fname)
    (hk : freeKey icrc32 es x.tdir x.tname = some x.tlhc) (h0 : (x.newName io e).2 = 0)
    (hs : io.scan = none)
    (hu : ∀ f ∈ es, f.dir = x.tdir → f.name = x.tname → f.key ∉ io.undeleted) :
    WellKept icrc32 (insertDirent (x.moved io e)
      ((es.erase e).filter fun f => !x.replaces io f)) ∧
    ∀ g, g ∈ insertDirent (x.moved io e) ((es.erase e).filter fun f => !x.replaces io f) ↔
      g = x.moved io e ∨ (g ∈ es ∧ g ≠ e ∧ ¬ (g.dir = x.tdir ∧ g.name = x.tname)) := by
  obtain ⟨hhash, hfree⟩ := freeKey_spec h hk
  obtain ⟨hst, hdir, hkey, -, -⟩ := moved_frame x io (h.stored e he)
  have hname := moved_name hn h0
  have hmem : ∀ g, g ∈ (es.erase e).filter (fun f => !x.replaces io f) ↔
      g ∈ es ∧ g ≠ e ∧ ¬ (g.dir = x.tdir ∧ g.name = x.tname) := by
    intro g
    rw [List.mem_filter, h.mem_erase, and_comm (a := g ≠ e), and_assoc]
    refine and_congr_right fun hg => and_congr_right fun _ => ?_
    rw [Bool.not_eq_true', ← Bool.not_eq_true, replaces_iff h.namesKept
      hg trivial hhash hs (hu g hg)]
  refine ⟨?_, fun g => mem_insertDirent.trans (or_congr_right (hmem g))⟩
  refine (h.sublist (List.filter_sublist.trans List.erase_sublist)).insert hst ?_ ?_ ?_
  · rw [hkey, hname]
    exact hhash
  · intro f hf hd hkf
    exact hfree f ((hmem f).1 hf).1 (hd ▸ hdir) (by rw [← hkf, hkey])
  · intro f hf hd hnf
    exact ((hmem f).1 hf).2.2 ⟨hd ▸ hdir, by rw [← hnf, hname]⟩

end
end Hammer2
