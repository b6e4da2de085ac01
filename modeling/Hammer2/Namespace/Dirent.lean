import Hammer2.Disk

/-!
# Directory entries and their keys

An entry of a directory is a chain whose key is the hash of its name plus an offset that tells apart
the names with one hash. A name of up to 64 bytes stands in the blockref itself, a longer one in a
block of its own; an inode that stands in the directory itself holds its name in its data.
`direntTest` compares an entry with a name the way the backends do, and agrees with the comparison
of names (`direntTest_iff`).

The CRC is a parameter (`icrc32`): nothing here depends on which function it is.

Reference: `hammer2_subr.c:173-221`, `hammer2_chain.c:5611-5654`, `hammer2_xops.c:943-1004`,
`hammer2_disk.h:469-471`, `hammer2_disk.h:640-670`.
-/

namespace Hammer2

/-- A name, without the terminating zero. -/
abbrev Name := List UInt8

/-- A key of a directory. -/
abbrev DirKey := BitVec 64

/-- `HAMMER2_DIRHASH_LOMASK`: the offsets within the collision space of a hash. -/
def dirhashLomask : DirKey := 0x7fff#64

/-- The size of the collision space. -/
def collisionSpace : Nat := 32768

/-- `sizeof(bref.check.buf)`: the longest name that stands in the blockref. -/
def checkBufBytes : Nat := 64

/-- `HAMMER2_INODE_MAXNAME`. -/
def inodeMaxname : Nat := 256

/-! ## The hash of a name -/

/-- The characters at which the hash cuts a name: `.`, `-`, `_` and `~`. -/
def isSeparator (c : UInt8) : Bool := c == 46 || c == 45 || c == 95 || c == 126

section
variable (icrc32 : Name → BitVec 32)

/-- The CRC of a part, if there is one. -/
def partCrc (part : Name) : BitVec 32 := if part = [] then 0#32 else icrc32 part

/-- The sum of the CRCs of the parts of a name; `part` is the part read so far. -/
def partsCrc : Name → Name → BitVec 32
  | [], part => partCrc icrc32 part
  | c :: cs, part =>
    if isSeparator c then partCrc icrc32 part + partsCrc cs [] else partsCrc cs (part ++ [c])

/-- `hammer2_dirhash`. -/
def dirhash (name : Name) : DirKey :=
  let m32 := partsCrc icrc32 name [] ||| 0x80000000#32
  let crc := icrc32 name
  let l16 := (crc ^^^ (crc <<< 16)) &&& 0xffff0000#32
  (m32.setWidth 64 <<< 32) ||| l16.setWidth 64 ||| 0x8000#64

/-- The hash leaves the offset of the collision space free. -/
theorem dirhash_lomask (name : Name) : dirhash icrc32 name &&& dirhashLomask = 0#64 := by
  have h15 : ∀ i < 15, (0xffff0000#32).getLsbD i = false ∧ (0x8000#64).getLsbD i = false := by
    decide
  have hlo : ∀ i, 15 ≤ i → i < 64 → dirhashLomask.getLsbD i = false := by decide
  refine BitVec.eq_of_getLsbD_eq fun i hi => ?_
  simp only [BitVec.getLsbD_and, BitVec.getLsbD_zero]
  by_cases h : i < 15
  · obtain ⟨h₁, h₂⟩ := h15 i h
    have h32 : i < 32 := by omega
    have hhash : (dirhash icrc32 name).getLsbD i = false := by
      simp only [dirhash, BitVec.getLsbD_or, BitVec.getLsbD_shiftLeft, BitVec.getLsbD_setWidth,
        BitVec.getLsbD_and, h₁, h₂, h32]
      simp
    rw [hhash, Bool.false_and]
  · simp [hlo i (by omega) hi]

end

/-! ## The collision space of a hash -/

/-- Keys within the collision space of zero. -/
theorem and_not_lomask_eq_zero_iff (x : DirKey) :
    x &&& ~~~dirhashLomask = 0#64 ↔ x.toNat < collisionSpace := by
  have hhi : ∀ i, 15 ≤ i → i < 64 → (~~~dirhashLomask).getLsbD i = true := by decide
  have hlo : ∀ i < 15, (~~~dirhashLomask).getLsbD i = false := by decide
  constructor
  · intro h
    refine Nat.lt_pow_two_of_testBit (n := 15) _ fun i hi => ?_
    by_cases h64 : i < 64
    · have hbit := congrArg (BitVec.getLsbD · i) h
      simp only [BitVec.getLsbD_and, hhi i hi h64, Bool.and_true, BitVec.getLsbD_zero] at hbit
      exact hbit
    · exact BitVec.getLsbD_of_ge x i (by omega)
  · intro h
    refine BitVec.eq_of_getLsbD_eq fun i hi => ?_
    simp only [BitVec.getLsbD_and, BitVec.getLsbD_zero]
    by_cases h15 : i < 15
    · simp [hlo i h15]
    · have hx : x.getLsbD i = false :=
        Nat.testBit_lt_two_pow (lt_of_lt_of_le h
          (Nat.pow_le_pow_right (n := 2) (i := 15) (by decide) (by omega)))
      simp [hx]

/-- A key is in the collision space of a hash when it differs from it in the offset alone. -/
theorem xor_lomask_eq_zero_iff (k h : DirKey) : (k ^^^ h) &&& ~~~dirhashLomask = 0#64 ↔
    k.toNat / collisionSpace = h.toNat / collisionSpace := by
  rw [and_not_lomask_eq_zero_iff, BitVec.toNat_xor, ← Nat.div_eq_zero_iff_lt (by decide)]
  rw [show collisionSpace = 2 ^ 15 from rfl, Nat.xor_div_two_pow, Nat.xor_eq_zero_iff]

/-- A hash without low bits starts a collision space. -/
theorem toNat_mod_of_lomask {h : DirKey} (hh : h &&& dirhashLomask = 0#64) :
    h.toNat % collisionSpace = 0 := by
  have hn := congrArg BitVec.toNat hh
  rw [BitVec.toNat_and] at hn
  have hm : dirhashLomask.toNat = 2 ^ 15 - 1 := rfl
  rw [hm, Nat.and_two_pow_sub_one_eq_mod] at hn
  exact hn

/-- The range the backends look up is the collision space. -/
theorem range_iff {k h : DirKey} (hh : h &&& dirhashLomask = 0#64) :
    h ≤ k ∧ k ≤ h + dirhashLomask ↔ (k ^^^ h) &&& ~~~dirhashLomask = 0#64 := by
  have hmod := toNat_mod_of_lomask hh
  have hlt := h.isLt
  have hlo : dirhashLomask.toNat = 32767 := rfl
  rw [xor_lomask_eq_zero_iff, BitVec.le_def, BitVec.le_def, BitVec.toNat_add, hlo]
  unfold collisionSpace at *
  omega

/-! ## Entries -/

/-- `HAMMER2_OBJTYPE_*`. -/
inductive ObjType
  | unknown
  | directory
  | regfile
  | fifo
  | cdev
  | bdev
  | softlink
  | socket
  deriving DecidableEq, Repr

/-- An entry of the directory `dir`. `buf` is `bref.check.buf` and `data` the data of the chain; the
chain is the inode itself when `embedded` is set. -/
structure Dirent where
  dir : Nat
  key : DirKey
  inum : Nat
  type : ObjType
  embedded : Bool
  namlen : Nat
  buf : Name
  data : Option Name
  deriving DecidableEq

/-- `bcmp(buf, name, name_len) == 0`. -/
def sameBytes (buf name : Name) : Bool := buf.take name.length == name

/-- `hammer2_chain_dirent_test`, on a chain that was read without error. -/
def direntTest (e : Dirent) (name : Name) : Bool :=
  if e.embedded then
    match e.data with
    | none => false
    | some filename => e.namlen == name.length && sameBytes filename name
  else
    e.namlen == name.length &&
      if checkBufBytes < name.length then
        match e.data with
        | none => false
        | some block => sameBytes block name
      else sameBytes e.buf name

/-- The name is in the data of the chain. -/
def Dirent.inData (e : Dirent) : Bool := e.embedded || checkBufBytes < e.namlen

/-- The buffer that holds the name. -/
def Dirent.storage (e : Dirent) : Name := if e.inData then e.data.getD [] else e.buf

/-- The name of an entry. -/
def Dirent.name (e : Dirent) : Name := e.storage.take e.namlen

/-- The entry holds a whole name. -/
structure Dirent.Stored (e : Dirent) : Prop where
  data : e.inData = true → e.data.isSome = true
  length : e.namlen ≤ e.storage.length

/-- A zeroed buffer with a name copied to its start. -/
def nameBuffer (size : Nat) (name : Name) : Name := name ++ List.replicate (size - name.length) 0

/-- Giving a chain a new name, as the rename does. -/
def Dirent.setName (e : Dirent) (name : Name) : Dirent :=
  if e.embedded then
    { e with namlen := name.length, data := some (nameBuffer inodeMaxname name) }
  else if name.length ≤ checkBufBytes then
    { e with namlen := name.length, buf := nameBuffer checkBufBytes name, data := none }
  else { e with namlen := name.length, data := some (nameBuffer allocMin name) }

/-- The entry that `hammer2_xop_inode_mkdirent` makes. -/
def mkdirent (dir : Nat) (key : DirKey) (inum : Nat) (type : ObjType) (name : Name) : Dirent :=
  Dirent.setName ⟨dir, key, inum, type, false, 0, List.replicate checkBufBytes 0, none⟩ name

variable {e : Dirent} {name : Name}

/-- The comparison is that of the first bytes. -/
theorem sameBytes_iff {buf : Name} : sameBytes buf name = true ↔ buf.take name.length = name := by
  rw [sameBytes, beq_iff_eq]

/-- **The comparison of the backends is the comparison of names.** -/
theorem direntTest_iff (h : e.Stored) : direntTest e name = true ↔ e.name = name := by
  have hlen : e.name.length = e.namlen := by
    rw [Dirent.name, List.length_take, min_eq_left h.length]
  -- both sides need the length to agree, and then compare the same buffer
  by_cases hn : e.namlen = name.length
  · have hname : e.name = name ↔ sameBytes e.storage name = true := by
      rw [sameBytes_iff, Dirent.name, hn]
    rw [hname]
    cases he : e.embedded with
    | true =>
      have hd := h.data (by simp [Dirent.inData, he])
      obtain ⟨filename, hdata⟩ := Option.isSome_iff_exists.1 hd
      simp [direntTest, Dirent.storage, Dirent.inData, he, hdata, hn]
    | false =>
      by_cases hb : checkBufBytes < name.length
      · have hd := h.data (by simp [Dirent.inData, hn, hb])
        obtain ⟨block, hdata⟩ := Option.isSome_iff_exists.1 hd
        simp [direntTest, Dirent.storage, Dirent.inData, he, hdata, hn, hb]
      · simp [direntTest, Dirent.storage, Dirent.inData, he, hn, hb]
  · have hne : e.name ≠ name := fun heq => hn (by rw [← hlen, heq])
    have htest : direntTest e name = false := by
      unfold direntTest
      split
      · split <;> simp [hn]
      · simp [hn]
    simp [hne, htest]

theorem take_nameBuffer (size : Nat) (name : Name) :
    (nameBuffer size name).take name.length = name := by
  rw [nameBuffer, List.take_left]

theorem length_le_nameBuffer (size : Nat) (name : Name) :
    name.length ≤ (nameBuffer size name).length := by
  rw [nameBuffer, List.length_append]
  omega

/-- What a new name changes, and what it does not. -/
theorem setName_spec (e : Dirent) (name : Name) :
    (e.setName name).Stored ∧ (e.setName name).name = name ∧ (e.setName name).dir = e.dir ∧
      (e.setName name).key = e.key ∧ (e.setName name).inum = e.inum ∧
      (e.setName name).type = e.type ∧ (e.setName name).embedded = e.embedded := by
  have hname : ∀ f : Dirent, ∀ size, f.storage = nameBuffer size name → f.namlen = name.length →
      name.length ≤ f.storage.length ∧ f.name = name := by
    intro f size hs hn
    refine ⟨?_, ?_⟩
    · rw [hs]
      exact length_le_nameBuffer size name
    · rw [Dirent.name, hs, hn, take_nameBuffer]
  unfold Dirent.setName
  split
  · next he =>
    obtain ⟨h₁, h₂⟩ := hname
      { e with namlen := name.length, data := some (nameBuffer inodeMaxname name) } inodeMaxname
      (by simp [Dirent.storage, Dirent.inData, he]) rfl
    exact ⟨⟨fun _ => rfl, h₁⟩, h₂, rfl, rfl, rfl, rfl, rfl⟩
  · next he =>
    split
    · next hb =>
      have hin : ¬ checkBufBytes < name.length := by omega
      obtain ⟨h₁, h₂⟩ := hname
        { e with namlen := name.length, buf := nameBuffer checkBufBytes name, data := none }
        checkBufBytes (by simp [Dirent.storage, Dirent.inData, he, hin]) rfl
      exact ⟨⟨fun h => by simp [Dirent.inData, he, hin] at h, h₁⟩, h₂, rfl, rfl, rfl, rfl, rfl⟩
    · next hb =>
      have hin : checkBufBytes < name.length := by omega
      obtain ⟨h₁, h₂⟩ := hname
        { e with namlen := name.length, data := some (nameBuffer allocMin name) } allocMin
        (by simp [Dirent.storage, Dirent.inData, hin]) rfl
      exact ⟨⟨fun _ => rfl, h₁⟩, h₂, rfl, rfl, rfl, rfl, rfl⟩

end Hammer2
