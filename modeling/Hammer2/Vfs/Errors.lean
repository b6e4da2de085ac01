import Hammer2.Xop.Collect

/-!
# What the entries of the file system hand to the VFS

Errors are of three kinds in this code: words of `HAMMER2_ERROR_*` bits, which the backends deliver
and `hammer2_xop_collect` returns; positive error numbers, between the functions of the frontend;
and negative ones, or pointers made of them, which the VFS wants. `hammer2_error_to_errno` leads
from the first kind to the second and `hammer2_vfs_errno` from the second to the third.

Each entry is modelled with what it meets: the words that its operations end with, and the error
numbers of the functions it calls. `EntryCall.reported` is the failure that the call is to report,
the first one it meets or, for a sync, the last one. A word that is `HAMMER2_ERROR_ENOENT` alone
ends a scan or says that nothing is there, and is no failure of the operations that are read so.

Creating, removing and linking convert every failure. A sync hands out the negated word, a change of
the size drops it, and a file handle is answered with `ESTALE` or, when its inode cannot be had,
with a pointer that is no error (`entryCall_converted_iff`).

Reference: `hammer2_vnops.c:100-165`, `hammer2_vnops.c:329-343`, `hammer2_vnops.c:362-565`,
`hammer2_vnops.c:597-877`, `hammer2_vnops.c:1180-1386`, `hammer2_export.c:70-186`,
`hammer2.h:1645-1689`, `hammer2_inode.c:1425-1530`, `hammer2_inode.c:1806-1955`,
`hammer2_inode.c:1961-2042`.
-/

namespace Hammer2

/-! ## What is handed out -/

/-- `hammer2_vfs_errno`: `EDOM`, a failed check, becomes `EIO`. -/
def vfsErrno (error : Nat) : Int := if error = 33 then -5 else -error

theorem vfsErrno_eq_zero_iff {error : Nat} : vfsErrno error = 0 ↔ error = 0 := by
  unfold vfsErrno
  split <;> omega

/-- What an entry gives to the VFS: a number, `ERR_PTR` of a number, or an object (a dentry, or
`NULL` for a negative one). -/
inductive Handed
  | int (v : Int)
  | errPtr (v : Int)
  | object
  deriving DecidableEq, Repr

/-- The VFS reads an error: `IS_ERR` of a pointer, and the same range for a number. -/
def Handed.isError : Handed → Bool
  | .int v => -4095 ≤ v ∧ v ≤ -1
  | .errPtr v => -4095 ≤ v ∧ v ≤ -1
  | .object => false

/-- What fails below an entry: an operation with a word, or a function with an error number. -/
inductive Failure
  | word (w : Nat) (h : w ≠ 0)
  | errno (e : Nat) (h : e ≠ 0)
  deriving DecidableEq, Repr

/-- The error number of a failure. -/
def Failure.number : Failure → Nat
  | .word w _ => errorToErrno w
  | .errno e _ => e

/-- The conversion of a failure. -/
def Failure.converted (f : Failure) : Int := vfsErrno f.number

/-- The failure of an operation that ends with `HAMMER2_ERROR_ENOENT` when nothing is wrong. -/
def failureOf (w : Nat) : Option Failure :=
  if h : w = 0 ∨ w = errorEnoent then none else some (.word w (not_or.1 h).1)

/-- The failure of an operation that ends with 0 when nothing is wrong. -/
def failureOfAny (w : Nat) : Option Failure := if h : w = 0 then none else some (.word w h)

/-- The failure of a function that returns an error number. -/
def failureOfErrno (e : Nat) : Option Failure := if h : e = 0 then none else some (.errno e h)

/-! ## The entries -/

/-- `hammer2_inode_chain_sync` and `hammer2_inode_chain_flush`: the word is returned as it is. -/
def inodeChain (w : Nat) : Nat := if w = errorEnoent then 0 else w

/-- What `hammer2_vop_fsync` meets: the result of `file_write_and_wait_range`, whether the inode is
to be synced, the words of the two operations and the result for the devices. -/
structure FsyncCall where
  deviceError : Bool
  rdonly : Bool
  write : Int
  modified : Bool
  sync : Nat
  flush : Nat
  devices : Int

/-- `hammer2_vop_fsync`. -/
def fsyncReturn (c : FsyncCall) : Int :=
  if c.deviceError then -5
  else if c.rdonly then 0
  else
    let error₁ := if c.modified ∧ c.write = 0 then vfsErrno (inodeChain c.sync) else c.write
    let error₂ := vfsErrno (inodeChain c.flush)
    let error := if error₂ ≠ 0 then error₂ else error₁
    if error = 0 then c.devices else error

/-- What `hammer2_vop_setattr` meets: the result of the checks before the transaction, that of
zeroing the tail, and the word of the sync, which is made for a truncation or when the file leaves
the inode. -/
structure SetattrCall where
  gate : Int
  zeroTail : Int
  resized : Bool
  sync : Nat

/-- `hammer2_vop_setattr`; `hammer2_inode_chain_sync` returns to nobody. -/
def setattrReturn (c : SetattrCall) : Int :=
  if c.gate ≠ 0 then c.gate else c.zeroTail

/-- What `hammer2_dirent_create` meets: the word the scan of the collision space ends with, whether
the space is full, and the word of `hammer2_xop_inode_mkdirent`. -/
structure DirentCall where
  scan : Nat
  full : Bool
  mkdirent : Nat

/-- `hammer2_dirent_create`. -/
def direntCreateErrno (c : DirentCall) : Nat :=
  errorToErrno
    (if c.scan ≠ 0 ∧ c.scan ≠ errorEnoent then c.scan
    else if c.full then errorEnospc else c.mkdirent)

/-- What `hammer2_vop_ncreate` meets; `symlink` is the negated result of `page_symlink`. -/
structure CreateCall where
  gate : Int
  inode : Nat
  dirent : DirentCall
  igetv : Nat
  symlink : Nat

/-- `hammer2_vop_ncreate`. -/
def ncreateReturn (c : CreateCall) : Int :=
  if c.gate ≠ 0 then c.gate
  else
    let error := if c.inode ≠ 0 then errorToErrno c.inode else direntCreateErrno c.dirent
    let error := if error = 0 then c.igetv else error
    vfsErrno (if error = 0 then c.symlink else error)

/-- `hammer2_vop_nremove`, with the word of `hammer2_xop_unlink`. -/
def nremoveReturn (gate : Int) (unlink : Nat) : Int :=
  if gate ≠ 0 then gate else vfsErrno (errorToErrno unlink)

/-- `hammer2_vop_link`. -/
def linkReturn (gate : Int) (dirent : DirentCall) : Int :=
  if gate ≠ 0 then gate else vfsErrno (direntCreateErrno dirent)

/-- `hammer2_checkpath`, with the words of its lookups and what it finds behind them. -/
def checkpathErrno : List Nat → Nat → Nat
  | [], verdict => verdict
  | w :: ws, verdict =>
    if w = 0 then checkpathErrno ws verdict
    else if errorToErrno w = 2 then 0 else errorToErrno w

/-- What `hammer2_vop_rename` meets: the lookups of the path check and its verdict (none and 0 if it
is not made), the scan of the collision space, and the word of `hammer2_xop_nrename`. -/
structure RenameCall where
  gate : Int
  path : List Nat
  verdict : Nat
  scan : Nat
  full : Bool
  nrename : Nat

/-- `hammer2_vop_rename` behind the path check. -/
def renameRest (c : RenameCall) : Nat :=
  if errorToErrno c.scan ≠ 0 ∧ errorToErrno c.scan ≠ 2 then errorToErrno c.scan
  else if c.full then 28
  else if errorToErrno c.nrename = 2 then 0 else errorToErrno c.nrename

/-- `hammer2_vop_rename`. -/
def renameReturn (c : RenameCall) : Int :=
  if c.gate ≠ 0 then c.gate
  else if checkpathErrno c.path c.verdict ≠ 0 then vfsErrno (checkpathErrno c.path c.verdict)
  else vfsErrno (renameRest c)

/-- `hammer2_vop_lookup`, with the word of `hammer2_xop_nresolve` and the result of `hammer2_igetv`.
-/
def lookupReturn (nresolve igetv : Nat) : Handed :=
  let error := if nresolve = 0 then igetv else errorToErrno nresolve
  if error ≠ 0 ∧ error ≠ 2 then .errPtr (vfsErrno error) else .object

/-- The end of `hammer2_vop_readdir`, with the word that the last `hammer2_xop_collect` returned. -/
def readdirReturn (w : Nat) : Int := if errorToErrno w = 2 then 0 else vfsErrno (errorToErrno w)

/-- What `hammer2_get_inode` meets: whether the inode is the root or in memory, else the word of
`hammer2_xop_lookup`; whether it has the number and a link; and the result of `hammer2_igetv`. -/
structure DecodeCall where
  cached : Bool
  lookup : Nat
  same : Bool
  linked : Bool
  igetv : Nat

/-- `hammer2_get_inode`. -/
def getInode (c : DecodeCall) : Handed :=
  if !c.cached && c.lookup != 0 then .errPtr (-116)
  else if !c.same || !c.linked then .errPtr (-116)
  else if c.igetv ≠ 0 then .errPtr (-vfsErrno c.igetv) else .object

/-! ## The calls -/

/-- A call of an entry. -/
inductive EntryCall
  | fsync (c : FsyncCall)
  | setattr (c : SetattrCall)
  | create (c : CreateCall)
  | remove (gate : Int) (unlink : Nat)
  | rename (c : RenameCall)
  | link (gate : Int) (dirent : DirentCall)
  | lookup (nresolve igetv : Nat)
  | readdir (word : Nat)
  | decode (c : DecodeCall)

namespace EntryCall

/-- What the call hands out. -/
def handed : EntryCall → Handed
  | fsync c => .int (fsyncReturn c)
  | setattr c => .int (setattrReturn c)
  | create c => .int (ncreateReturn c)
  | remove gate unlink => .int (nremoveReturn gate unlink)
  | rename c => .int (renameReturn c)
  | link gate dirent => .int (linkReturn gate dirent)
  | lookup nresolve igetv => lookupReturn nresolve igetv
  | readdir word => .int (readdirReturn word)
  | decode c => getInode c

/-- The failure of a `hammer2_dirent_create`. -/
def direntFailure (c : DirentCall) : Option Failure :=
  (failureOf c.scan).or (if c.full then none else failureOfAny c.mkdirent)

/-- The failure that the call is to report. `HAMMER2_ERROR_ENOENT` alone is the end of a scan, a
name that is not there or an inode that is gone, except where an entry is to be removed. -/
def reported : EntryCall → Option Failure
  | fsync c =>
    if c.deviceError || c.rdonly then none
    else (failureOf c.flush).or (if c.modified ∧ c.write = 0 then failureOf c.sync else none)
  | setattr c =>
    if c.gate ≠ 0 ∨ c.zeroTail ≠ 0 then none else if c.resized then failureOf c.sync else none
  | create c =>
    if c.gate ≠ 0 then none
    else if c.inode ≠ 0 then failureOfAny c.inode
    else if direntCreateErrno c.dirent ≠ 0 then direntFailure c.dirent
    else (failureOfErrno c.igetv).or (failureOfErrno c.symlink)
  | remove gate unlink => if gate ≠ 0 then none else failureOfAny unlink
  | rename c =>
    if c.gate ≠ 0 then none
    else
      match c.path.find? (· ≠ 0) with
      | some w =>
        (failureOf w).or ((failureOf c.scan).or (if c.full then none else failureOf c.nrename))
      | none =>
        if c.verdict ≠ 0 then none
        else (failureOf c.scan).or (if c.full then none else failureOf c.nrename)
  | link gate dirent => if gate ≠ 0 then none else direntFailure dirent
  | lookup nresolve igetv => if nresolve = 0 then failureOfErrno igetv else failureOf nresolve
  | readdir word => failureOf word
  | decode c =>
    if !c.cached && c.lookup != 0 then failureOf c.lookup
    else if !c.same || !c.linked then none else failureOfErrno c.igetv

/-- The call hands out the conversion of the failure. -/
def Converted (c : EntryCall) : Prop :=
  ∀ f, c.reported = some f → c.handed = .int f.converted ∨ c.handed = .errPtr f.converted

/-- What an entry converts: a sync the two words that are their own conversion; a change of the size
and a handle nothing; a lookup, a rename and a reading of a directory what does not read as the
absence of something; the others everything. -/
def Converts : EntryCall → Failure → Prop
  | fsync _, f => f = .word 5 (by decide) ∨ f = .word 33 (by decide)
  | setattr _, _ => False
  | create _, _ => True
  | remove _ _, _ => True
  | rename _, f => f.number ≠ 2
  | link _ _, _ => True
  | lookup _ _, f => f.number ≠ 2
  | readdir _, f => f.number ≠ 2
  | decode _, _ => False

end EntryCall

/-! ## The conversions -/

/-- No errno exceeds 115. -/
theorem errorToErrno_le (w : Nat) : errorToErrno w ≤ 115 := by
  rw [errorToErrno]
  split
  · exact Nat.zero_le _
  · cases hf : errnoTable.find? fun p => w &&& p.1 ≠ 0 with
    | none => exact (by decide : (33 : Nat) ≤ 115)
    | some p =>
      have hall : ∀ p ∈ errnoTable, p.2 ≤ 115 := by decide
      exact hall p (List.mem_of_find?_eq_some hf)

/-- A converted error number is an error, and no pointer but an error pointer. -/
theorem vfsErrno_range {e : Nat} (h₀ : e ≠ 0) (h : e ≤ 4095) :
    -4095 ≤ vfsErrno e ∧ vfsErrno e ≤ -1 := by
  unfold vfsErrno
  split <;> omega

/-- Only `ENOENT` becomes -2. -/
theorem vfsErrno_eq_neg_two_iff {e : Nat} : vfsErrno e = -2 ↔ e = 2 := by
  unfold vfsErrno
  split <;> omega

/-- No return of a word is below -115. -/
theorem neg_le_vfsErrno_word (w : Nat) : -115 ≤ vfsErrno (errorToErrno w) := by
  have hle := errorToErrno_le w
  unfold vfsErrno
  split <;> omega

/-- A word that is handed out in place of its error number is right for two words. -/
theorem vfsErrno_word_iff {w : Nat} (h₀ : w ≠ 0) :
    vfsErrno w = vfsErrno (errorToErrno w) ↔ w = 5 ∨ w = 33 := by
  rcases Nat.lt_or_ge w 116 with hlt | hge
  · have hall : ∀ w < 116, w ≠ 0 →
        (vfsErrno w = vfsErrno (errorToErrno w) ↔ w = 5 ∨ w = 33) := by decide
    exact hall w hlt h₀
  · have hw : vfsErrno w = -w := if_neg (by omega)
    have he := neg_le_vfsErrno_word w
    constructor
    · intro h
      omega
    · rintro (h | h) <;> omega

section

variable {w e : Nat} {f : Failure}

/-- Every word but `ENOENT` is a failure. -/
theorem failureOf_eq_some :
    failureOf w = some f ↔ w ≠ errorEnoent ∧ ∃ h, f = .word w h := by
  unfold failureOf
  split
  case isTrue h => simp only [reduceCtorEq, false_iff]; rintro ⟨h', h₀, -⟩; exact h.elim h₀ h'
  case isFalse h => rw [Option.some_inj, eq_comm]; simp [not_or.1 h]

/-- No error and `ENOENT` are none. -/
theorem failureOf_eq_none : failureOf w = none ↔ w = 0 ∨ w = errorEnoent := by
  unfold failureOf
  split <;> simp [*]

/-- Here `ENOENT` is a failure too. -/
theorem failureOfAny_eq_some : failureOfAny w = some f ↔ ∃ h, f = .word w h := by
  unfold failureOfAny
  split <;> simp [*, eq_comm]

theorem failureOfErrno_eq_some : failureOfErrno e = some f ↔ ∃ h, f = .errno e h := by
  unfold failureOfErrno
  split <;> simp [*, eq_comm]

theorem failureOfErrno_eq_none : failureOfErrno e = none ↔ e = 0 := by
  unfold failureOfErrno
  split <;> simp [*]

/-- A failure has a number. -/
theorem Failure.number_ne_zero (f : Failure) : f.number ≠ 0 := by
  cases f with
  | word w h => exact fun hz => h (errorToErrno_eq_zero_iff.1 hz)
  | errno e h => exact h

end

/-! ## Entry by entry -/

section

variable {f : Failure}

/-- A sync hands out the negated word. -/
theorem fsyncReturn_of_reported {c : FsyncCall} (h : (EntryCall.fsync c).reported = some f) :
    ∃ w h, f = .word w h ∧ fsyncReturn c = vfsErrno w := by
  simp only [EntryCall.reported] at h
  split at h
  · cases h
  rename_i hgate
  obtain ⟨hdev, hro⟩ : c.deviceError = false ∧ c.rdonly = false := by simpa using hgate
  rcases hflush : failureOf c.flush with _ | g
  · -- Nothing is wrong with the flush: what counts is the sync.
    have hquiet : inodeChain c.flush = 0 := by
      rcases failureOf_eq_none.1 hflush with hz | hz <;> rw [hz] <;> rfl
    rw [hflush, Option.none_or] at h
    split at h
    · obtain ⟨h₂, h₀, rfl⟩ := failureOf_eq_some.1 h
      have hne : vfsErrno c.sync ≠ 0 := fun hz => h₀ (vfsErrno_eq_zero_iff.1 hz)
      have hsync : inodeChain c.sync = c.sync := if_neg h₂
      refine ⟨c.sync, h₀, rfl, ?_⟩
      simp [fsyncReturn, hdev, hro, hquiet, hsync, vfsErrno_eq_zero_iff.2, ‹_ ∧ _›, hne]
    · cases h
  · obtain ⟨h₂, h₀, rfl⟩ := failureOf_eq_some.1 hflush
    rw [hflush, Option.some_or, Option.some_inj] at h
    have hne : vfsErrno c.flush ≠ 0 := fun hz => h₀ (vfsErrno_eq_zero_iff.1 hz)
    exact ⟨c.flush, h₀, h.symm, by simp [fsyncReturn, hdev, hro, inodeChain, h₂, hne]⟩

/-- The failures that `fsync` converts. -/
theorem fsyncReturn_converted_iff {c : FsyncCall} (h : (EntryCall.fsync c).reported = some f) :
    fsyncReturn c = f.converted ↔ f = .word 5 (by decide) ∨ f = .word 33 (by decide) := by
  obtain ⟨w, h₀, rfl, hv⟩ := fsyncReturn_of_reported h
  rw [hv, Failure.converted, Failure.number, vfsErrno_word_iff h₀]
  simp

/-- A change of the size succeeds whatever the sync ends with. -/
theorem setattrReturn_of_reported {c : SetattrCall}
    (h : (EntryCall.setattr c).reported = some f) : setattrReturn c = 0 := by
  simp only [EntryCall.reported] at h
  split at h
  · cases h
  · rename_i hgate
    obtain ⟨hgate, htail⟩ : c.gate = 0 ∧ c.zeroTail = 0 := by simpa using hgate
    simp [setattrReturn, hgate, htail]

/-- A failure of the entry is returned as its number. -/
theorem direntCreateErrno_of_failure {c : DirentCall} (h : EntryCall.direntFailure c = some f) :
    direntCreateErrno c = f.number := by
  unfold EntryCall.direntFailure at h
  unfold direntCreateErrno
  rcases hscan : failureOf c.scan with _ | g
  · have hquiet : ¬ (c.scan ≠ 0 ∧ c.scan ≠ errorEnoent) := by
      rcases failureOf_eq_none.1 hscan with hz | hz <;> simp [hz]
    rw [hscan, Option.none_or] at h
    split at h
    · cases h
    · obtain ⟨-, rfl⟩ := failureOfAny_eq_some.1 h
      rw [if_neg hquiet, if_neg ‹_›]
      rfl
  · rw [hscan, Option.some_or] at h
    obtain ⟨h₂, h₀, rfl⟩ := failureOf_eq_some.1 (hscan.trans h)
    rw [if_pos ⟨h₀, h₂⟩]
    rfl

/-- A create converts every failure. -/
theorem ncreateReturn_of_reported {c : CreateCall}
    (h : (EntryCall.create c).reported = some f) : ncreateReturn c = f.converted := by
  simp only [EntryCall.reported] at h
  unfold ncreateReturn
  split at h
  · cases h
  rw [if_neg ‹_›]
  split at h
  · obtain ⟨h₀, rfl⟩ := failureOfAny_eq_some.1 h
    have hne : errorToErrno c.inode ≠ 0 := fun hz => h₀ (errorToErrno_eq_zero_iff.1 hz)
    simp only [h₀, ne_eq, not_false_eq_true, if_true, hne, if_false]
    rfl
  rename_i hinode
  simp only [hinode, if_false]
  split at h
  · simp only [‹direntCreateErrno c.dirent ≠ 0›, if_false]
    rw [direntCreateErrno_of_failure h]
    rfl
  · rename_i hdirent
    simp only [not_not.1 hdirent, if_true]
    rcases hig : failureOfErrno c.igetv with _ | g
    · rw [hig, Option.none_or] at h
      obtain ⟨-, rfl⟩ := failureOfErrno_eq_some.1 h
      rw [if_pos (failureOfErrno_eq_none.1 hig)]
      rfl
    · rw [hig, Option.some_or] at h
      obtain ⟨hne, rfl⟩ := failureOfErrno_eq_some.1 (hig.trans h)
      rw [if_neg hne]
      rfl

/-- So does a remove. -/
theorem nremoveReturn_of_reported {gate : Int} {unlink : Nat}
    (h : (EntryCall.remove gate unlink).reported = some f) :
    nremoveReturn gate unlink = f.converted := by
  simp only [EntryCall.reported] at h
  unfold nremoveReturn
  split at h
  · cases h
  · obtain ⟨-, rfl⟩ := failureOfAny_eq_some.1 h
    rw [if_neg ‹_›]
    rfl

/-- So does a link. -/
theorem linkReturn_of_reported {gate : Int} {dirent : DirentCall}
    (h : (EntryCall.link gate dirent).reported = some f) :
    linkReturn gate dirent = f.converted := by
  simp only [EntryCall.reported] at h
  unfold linkReturn
  split at h
  · cases h
  · rw [if_neg ‹_›, direntCreateErrno_of_failure h]
    rfl

/-- A failure that reads as an absence is not converted by an entry that returns no `ENOENT`. -/
theorem number_ne_two {e : Nat} (he : e ≠ 2) (h : vfsErrno e = f.converted) :
    f.number ≠ 2 := by
  intro htwo
  rw [Failure.converted, vfsErrno_eq_neg_two_iff.2 htwo] at h
  exact he (vfsErrno_eq_neg_two_iff.1 h)

/-- The rest of a rename does not return `ENOENT`. -/
theorem renameRest_ne_two (c : RenameCall) : renameRest c ≠ 2 := by
  unfold renameRest
  split
  · exact (‹_ ∧ _› : _ ∧ _).2
  · split
    · decide
    · split
      · decide
      · assumption

/-- The failures of a rename behind the path check. -/
theorem renameRest_of_failure {c : RenameCall}
    (h : (failureOf c.scan).or (if c.full then none else failureOf c.nrename) = some f)
    (hne : f.number ≠ 2) : renameRest c = f.number := by
  unfold renameRest
  rcases hscan : failureOf c.scan with _ | g
  · rw [hscan, Option.none_or] at h
    have hquiet : ¬ (errorToErrno c.scan ≠ 0 ∧ errorToErrno c.scan ≠ 2) := by
      rcases failureOf_eq_none.1 hscan with hz | hz <;> rw [hz] <;> decide
    rw [if_neg hquiet]
    split at h
    · cases h
    · obtain ⟨-, _, rfl⟩ := failureOf_eq_some.1 h
      rw [if_neg ‹_›, if_neg (show errorToErrno c.nrename ≠ 2 from hne)]
      rfl
  · rw [hscan, Option.some_or] at h
    obtain ⟨-, h₀, rfl⟩ := failureOf_eq_some.1 (hscan.trans h)
    exact if_pos ⟨fun hz => h₀ (errorToErrno_eq_zero_iff.1 hz), hne⟩

/-- The path check ends at the first lookup that fails. -/
theorem checkpathErrno_eq (path : List Nat) (verdict : Nat) :
    checkpathErrno path verdict =
      match path.find? (· ≠ 0) with
      | none => verdict
      | some w => if errorToErrno w = 2 then 0 else errorToErrno w := by
  induction path with
  | nil => rfl
  | cons w ws ih =>
    rw [checkpathErrno]
    by_cases hw : w = 0
    · rw [if_pos hw, ih, List.find?_cons_of_neg (by simp [hw])]
    · rw [if_neg hw, List.find?_cons_of_pos (by simp [hw])]

/-- A rename converts every failure but `ENOENT`. -/
theorem renameReturn_converted_iff {c : RenameCall}
    (h : (EntryCall.rename c).reported = some f) :
    renameReturn c = f.converted ↔ f.number ≠ 2 := by
  simp only [EntryCall.reported] at h
  split at h
  · cases h
  have hrest : ∀ hf : (failureOf c.scan).or (if c.full then none else failureOf c.nrename) = some f,
      vfsErrno (renameRest c) = f.converted ↔ f.number ≠ 2 := fun hf =>
    ⟨number_ne_two (renameRest_ne_two c), fun hne => by
      rw [renameRest_of_failure hf hne]
      rfl⟩
  unfold renameReturn
  rw [if_neg ‹_›, checkpathErrno_eq]
  cases hpath : c.path.find? (· ≠ 0) with
  | none =>
    simp only [hpath] at h ⊢
    split at h
    · cases h
    · rw [if_neg ‹_›]
      exact hrest h
  | some w =>
    simp only [hpath] at h ⊢
    by_cases htwo : errorToErrno w = 2
    · -- The lookup reads as an absence, and the rename goes on.
      simp only [htwo, if_true, ne_eq, not_true_eq_false, if_false]
      rcases hw : failureOf w with _ | g
      · rw [hw, Option.none_or] at h
        exact hrest h
      · rw [hw, Option.some_or] at h
        obtain ⟨-, _, rfl⟩ := failureOf_eq_some.1 (hw.trans h)
        exact ⟨number_ne_two (renameRest_ne_two c), fun hne => absurd htwo hne⟩
    · have hw₀ : w ≠ 0 := by simpa using List.find?_some hpath
      have hne : errorToErrno w ≠ 0 := fun hz => hw₀ (errorToErrno_eq_zero_iff.1 hz)
      have hf : failureOf w = some (.word w hw₀) :=
        failureOf_eq_some.2 ⟨by rintro rfl; exact htwo rfl, hw₀, rfl⟩
      rw [hf, Option.some_or, Option.some_inj] at h
      subst h
      simp only [htwo, if_false, ne_eq, hne, not_false_eq_true, if_true]
      exact ⟨fun _ => htwo, fun _ => rfl⟩

/-- So does a lookup. -/
theorem lookupReturn_converted_iff {nresolve igetv : Nat}
    (h : (EntryCall.lookup nresolve igetv).reported = some f) :
    lookupReturn nresolve igetv = .errPtr f.converted ↔ f.number ≠ 2 := by
  have hstep : (if nresolve = 0 then igetv else errorToErrno nresolve) = f.number ∧
      f.number ≠ 0 := by
    simp only [EntryCall.reported] at h
    split at h
    · obtain ⟨hne, rfl⟩ := failureOfErrno_eq_some.1 h
      exact ⟨if_pos ‹_›, hne⟩
    · obtain ⟨-, h₀, rfl⟩ := failureOf_eq_some.1 h
      exact ⟨if_neg ‹_›, fun hz => h₀ (errorToErrno_eq_zero_iff.1 hz)⟩
  unfold lookupReturn
  simp only [hstep.1, ne_eq, hstep.2, not_false_eq_true, true_and]
  split
  · exact ⟨fun _ => ‹_›, fun _ => rfl⟩
  · exact ⟨fun h => (by cases h), fun hne => absurd hne ‹_›⟩

theorem lookupReturn_ne_int (nresolve igetv : Nat) (v : Int) :
    lookupReturn nresolve igetv ≠ .int v := by
  unfold lookupReturn
  generalize (if nresolve = 0 then igetv else errorToErrno nresolve) = error
  dsimp only
  split <;> simp

/-- A readdir converts every failure but `ENOENT`. -/
theorem readdirReturn_converted_iff {w : Nat} (h : failureOf w = some f) :
    readdirReturn w = f.converted ↔ f.number ≠ 2 := by
  obtain ⟨-, _, rfl⟩ := failureOf_eq_some.1 h
  unfold readdirReturn
  split
  · rename_i htwo
    refine ⟨number_ne_two (e := 0) (by decide), fun hne => absurd htwo hne⟩
  · exact ⟨fun _ => ‹_›, fun _ => rfl⟩

/-- A handle is never answered with the conversion: a failed lookup becomes `ESTALE`, and the error
number of `hammer2_igetv` changes its sign twice. -/
theorem getInode_of_reported {c : DecodeCall}
    (h : (EntryCall.decode c).reported = some f) :
    getInode c = .errPtr (-116) ∧ -115 ≤ f.converted ∨
      (∃ v : Int, getInode c = .errPtr v ∧ 0 < v) ∧ f.converted < 0 := by
  simp only [EntryCall.reported] at h
  unfold getInode
  split at h
  · obtain ⟨-, _, rfl⟩ := failureOf_eq_some.1 h
    refine .inl ⟨if_pos ‹_›, ?_⟩
    exact neg_le_vfsErrno_word c.lookup
  rw [if_neg ‹_›]
  split at h
  · cases h
  · obtain ⟨hne, rfl⟩ := failureOfErrno_eq_some.1 h
    rw [if_neg ‹_›, if_pos hne]
    have hneg : vfsErrno c.igetv < 0 := by
      unfold vfsErrno
      split <;> omega
    exact .inr ⟨⟨_, rfl, by omega⟩, hneg⟩

/-- The export decoding converts none. -/
theorem getInode_not_converted {c : DecodeCall}
    (h : (EntryCall.decode c).reported = some f) : getInode c ≠ .errPtr f.converted := by
  intro he
  rcases getInode_of_reported h with ⟨hp, hle⟩ | ⟨⟨v, hp, hv⟩, hlt⟩ <;>
    · rw [hp, Handed.errPtr.injEq] at he
      omega

theorem getInode_ne_int (c : DecodeCall) (v : Int) : getInode c ≠ .int v := by
  unfold getInode
  split
  · simp
  · split
    · simp
    · split <;> simp

end

/-! ## All entries -/

/-- A failure that is converted is seen as an error. -/
theorem EntryCall.Converted.isError {c : EntryCall} (h : c.Converted) {f : Failure}
    (hf : c.reported = some f) (hle : f.number ≤ 4095) : c.handed.isError = true := by
  have hrange := vfsErrno_range f.number_ne_zero hle
  rcases h f hf with hh | hh <;> rw [hh] <;> exact decide_eq_true hrange

/-- **What is converted.** A call hands out the conversion of the failure it is to report exactly if
the entry converts that failure: a sync does for the words 5 and 33, a change of the size and the
decoding of a handle never do, and the entries that read `ENOENT` as an absence do for every other
error number. What is converted is an error to the VFS. -/
theorem entryCall_converted_iff (c : EntryCall) :
    (c.Converted ↔ ∀ f, c.reported = some f → c.Converts f) ∧
      (c.Converted → ∀ f, c.reported = some f → f.number ≤ 4095 → c.handed.isError = true) := by
  refine ⟨forall_congr' fun f => forall_congr' fun h => ?_,
    fun hc f hf => hc.isError hf⟩
  cases c with
  | fsync c => simpa [EntryCall.handed, EntryCall.Converts] using fsyncReturn_converted_iff h
  | setattr c =>
    have hne : (0 : Int) ≠ f.converted := fun hz =>
      f.number_ne_zero (vfsErrno_eq_zero_iff.1 hz.symm)
    simpa [EntryCall.handed, EntryCall.Converts, setattrReturn_of_reported h] using hne
  | create c => simp [EntryCall.handed, EntryCall.Converts, ncreateReturn_of_reported h]
  | remove gate unlink => simp [EntryCall.handed, EntryCall.Converts, nremoveReturn_of_reported h]
  | rename c => simpa [EntryCall.handed, EntryCall.Converts] using renameReturn_converted_iff h
  | link gate dirent => simp [EntryCall.handed, EntryCall.Converts, linkReturn_of_reported h]
  | lookup nresolve igetv =>
    simpa [EntryCall.handed, EntryCall.Converts, lookupReturn_ne_int] using
      lookupReturn_converted_iff h
  | readdir word => simpa [EntryCall.handed, EntryCall.Converts] using readdirReturn_converted_iff h
  | decode c =>
    simp [EntryCall.handed, EntryCall.Converts, getInode_not_converted h, getInode_ne_int c]

/-- The flush of a sync meets an I/O error, a truncation does, and the inode of a handle cannot be
had for want of memory: `EPERM`, a success, and a pointer to address 12. -/
theorem entryCall_not_converted :
    ((EntryCall.fsync ⟨false, false, 0, false, 0, errorEio, 0⟩).handed = .int (-1) ∧
        ¬ (EntryCall.fsync ⟨false, false, 0, false, 0, errorEio, 0⟩).Converted) ∧
      ((EntryCall.setattr ⟨0, 0, true, errorEio⟩).handed = .int 0 ∧
        ¬ (EntryCall.setattr ⟨0, 0, true, errorEio⟩).Converted) ∧
      ((EntryCall.decode ⟨false, 0, true, true, 12⟩).handed = .errPtr 12 ∧
        ¬ (EntryCall.decode ⟨false, 0, true, true, 12⟩).Converted) := by
  refine ⟨⟨rfl, fun h => ?_⟩, ⟨rfl, fun h => ?_⟩, ⟨rfl, fun h => ?_⟩⟩
  · exact absurd (h (.word errorEio (by decide)) rfl) (by decide)
  · exact absurd (h (.word errorEio (by decide)) rfl) (by decide)
  · exact absurd (h (.errno 12 (by decide)) rfl) (by decide)

end Hammer2
