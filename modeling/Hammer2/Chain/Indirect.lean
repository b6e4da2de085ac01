import Hammer2.Chain.Find
import Hammer2.Disk
import Hammer2.Lib.Radix

/-!
# Splitting a full node

`hammer2_chain_create_indirect` makes room in a full parent: `hammer2_chain_indkey_file` or
`hammer2_chain_indkey_dir` choose the range of a new indirect block from the children, and the
children in that range move into it. The children are those of the merged view, in the order of
their keys; `ChainTree.combinedFind_find` says that the searches of the loops find them there.

Reference: `hammer2_chain.c:3589-4174`, `hammer2_chain.c:4538-4828`.
-/

namespace Hammer2

/-- The range of a blockref, and what it refers to. -/
structure Bref (ε : Type*) where
  key : Nat
  keybits : Nat
  elem : ε
  deriving DecidableEq, Repr

/-- The last key of the range. -/
def Bref.last {ε : Type*} (b : Bref ε) : Nat := b.key + 2 ^ b.keybits - 1

/-- `for_type`, but for the freemap's. -/
inductive ForType where
  | data
  | dirent
  | inode
  deriving DecidableEq, Repr

/-- `sizeof(hammer2_blockref_t)`. -/
def blockrefBytes : Nat := 128

/-- `HAMMER2_IND_BYTES_MIN`. -/
def indBytesMin : Nat := 4096

/-- `HAMMER2_IND_BYTES_NOM`. -/
def indBytesNom : Nat := 16384

/-- The parent of a new indirect block: `indirect` says that it is one itself, `directory` that it
is a directory's inode. -/
structure SplitParent (ε : Type*) where
  key : Nat
  keybits : Nat
  indirect : Bool
  directory : Bool
  count : Nat
  children : List (Bref ε)
  deriving DecidableEq, Repr

/-- The new block: its range, the children left in the parent, those moved, and whether the key to
be created falls into it, so that it is the parent returned. -/
structure Split (ε : Type*) where
  key : Nat
  keybits : Nat
  stay : List (Bref ε)
  moved : List (Bref ε)
  inNew : Bool
  deriving DecidableEq, Repr

section
variable {ε : Type*}

/-- The first child that ends at or past `keyBeg`, which is what `hammer2_combined_find` returns
when `key_end` is `HAMMER2_KEY_MAX`. -/
def findFrom (l : List (Bref ε)) (keyBeg : Nat) : Option (Bref ε) :=
    l.find? fun b => keyBeg ≤ b.last

/-- The children in the order in which the two `indkey` functions scan them; `none` stands for
running out of `maxloops`. -/
def scan (l : List (Bref ε)) : Nat → Nat → Option (List (Bref ε))
  | 0, _ => none
  | n + 1, keyBeg =>
    match findFrom l keyBeg with
    | none => some []
    | some b =>
      let keyNext := (b.key + 2 ^ b.keybits) % keySpace
      if keyNext = 0 then some [b] else (scan l n keyNext).map (b :: ·)

/-! ## Files -/

/-- One child in `hammer2_chain_indkey_file`: the smallest radix so far, at its smallest key. -/
def fileStep (s : Nat × Nat) (b : Bref ε) : Nat × Nat :=
  if b.keybits < s.2 then (b.key, b.keybits)
  else if s.2 = b.keybits ∧ b.key < s.1 then (b.key, s.2)
  else s

/-- The `switch (ncount)` of `hammer2_chain_indkey_file`. -/
def nradix : Nat → Option Nat
  | 32 => some 5
  | 128 => some 7
  | 512 => some 9
  | _ => none

/-- `hammer2_chain_indkey_file`: the key and radix of the new block. -/
def indkeyFile (l : List (Bref ε)) (createKey ncount : Nat) : Option (Nat × Nat) :=
  (scan l 299999 0).bind fun bs =>
    let s := bs.foldl fileStep (createKey, 64)
    (nradix ncount).map fun r => (s.1, s.2 + if 64 ≤ r then 63 else r)

/-! ## Directories -/

/-- The running range of `hammer2_chain_indkey_dir` and the children in its halves. -/
structure DirScan where
  keybits : Nat
  locount : Nat
  hicount : Nat
  deriving DecidableEq, Repr

/-- Collapse the counts to one side. -/
def DirScan.collapse (s : DirScan) (high : Bool) : DirScan :=
  if high then { s with hicount := s.hicount + s.locount, locount := 0 }
  else { s with locount := s.locount + s.hicount, hicount := 0 }

/-- `while (nkeybits < 64 && rounddown2(key ^ bref->key, 1 << nkeybits) != 0) ++nkeybits`. -/
def growRadix (key bkey : Nat) : Nat → Nat → Nat
  | 0, n => n
  | f + 1, n =>
    if n < 64 ∧ rounddown2 (key ^^^ bkey) (2 ^ n) ≠ 0 then growRadix key bkey f (n + 1) else n

/-- One child in `hammer2_chain_indkey_dir`; `none` is the refusal of a radix above 64. -/
def dirStep (key : Nat) (s : DirScan) (b : Bref ε) : Option DirScan :=
  if s.keybits < b.keybits ∧ 64 < b.keybits then none
  else
    let n := growRadix key b.key 64 (max s.keybits b.keybits)
    let s' := if s.keybits ≠ n then { s.collapse (key.testBit (n - 1)) with keybits := n } else s
    some (if b.key.testBit (n - 1) then { s' with hicount := s'.hicount + 1 }
      else { s' with locount := s'.locount + 1 })

/-- The loop that widens the block until it can hold `ncount` elements. -/
def expandRadix (key ncount : Nat) : Nat → DirScan → DirScan
  | 0, s => s
  | f + 1, s =>
    if 2 ^ s.keybits < ncount then
      expandRadix key ncount f
        { s.collapse (key.testBit (s.keybits + 1)) with keybits := s.keybits + 1 }
    else s

/-- `hammer2_chain_indkey_dir`. The mask `~(hammer2_key_t)1 << keybits` keeps the bits above
`keybits`. -/
def indkeyDir (l : List (Bref ε)) (createKey createBits ncount : Nat) : Option (Nat × Nat) :=
  (scan l 299999 0).bind fun bs =>
    (bs.foldlM (dirStep createKey) ⟨createBits, 0, 0⟩).map fun s =>
      let s := expandRadix createKey ncount 64 { s with keybits := s.keybits - 1 }
      (if s.locount < s.hicount then createKey ||| 2 ^ s.keybits
        else rounddown2 createKey (2 ^ (s.keybits + 1)), s.keybits)

/-! ## The split -/

namespace SplitParent
variable (P : SplitParent ε)

/-- The last key of the parent's range. -/
def last : Nat := P.key + 2 ^ P.keybits - 1

/-- The size of the new block. -/
def nbytes : Nat :=
  max (if ¬ P.indirect ∧ P.directory then indBytesMin else indBytesNom) (P.count * blockrefBytes)

/-- The elements the new block is made for, bounded by half the parent's range. -/
def ncount : Nat :=
  if 0 < P.keybits then min (P.nbytes / blockrefBytes) (min (2 ^ (P.keybits - 1)) 128)
  else P.nbytes / blockrefBytes

/-- The `switch (for_type)`: the key and radix of the new block. -/
def indkey (forType : ForType) (createKey createBits : Nat) : Option (Nat × Nat) :=
  match forType with
  | .data => indkeyFile P.children createKey P.ncount
  | .dirent | .inode => indkeyDir P.children createKey createBits P.ncount

end SplitParent

/-- The loop that moves the children of the new block's range: the children left and those moved. It
gives up after 100000 rounds. -/
def moveLoop (key keybits : Nat) :
    Nat → Nat → List (Bref ε) × List (Bref ε) → Option (List (Bref ε) × List (Bref ε))
  | 0, _, _ => none
  | n + 1, keyBeg, (l, m) =>
    match findFrom l keyBeg with
    | none => some (l, m)
    | some b =>
      let s := if rounddown2 (key ^^^ b.key) (2 ^ keybits) ≠ 0 then (l, m)
        else (l.eraseP fun c => c.key = b.key, m ++ [b])
      let keyNext := (b.key + 2 ^ b.keybits) % keySpace
      if keyNext = 0 then some s else moveLoop key keybits n keyNext s

/-- `hammer2_chain_create_indirect`, with `none` for its `HAMMER2_ERROR_EIO`. -/
def createIndirect (P : SplitParent ε) (forType : ForType) (createKey createBits : Nat) :
    Option (Split ε) :=
  (P.indkey forType createKey createBits).bind fun (k, keybits) =>
    let key := rounddown2 k (2 ^ keybits)
    if P.indirect ∧ 0 < P.keybits ∧ 0 < keybits ∧
        (key < P.key ∨ P.last < key + 2 ^ keybits - 1 ∨ P.keybits ≤ keybits) then none
    else
      (moveLoop key keybits 100000 0 (P.children, [])).map fun (stay, moved) =>
        ⟨key, keybits, stay, moved, rounddown2 (createKey ^^^ key) (2 ^ keybits) = 0⟩

end

/-! ## The children of the merged view -/

namespace ChainTree
variable {ι : Type*} (T : ChainTree ι)

/-- The blockref of a chain. -/
def bref (c : ι) : Bref ι := ⟨T.key c, T.keybits c, c⟩

/-- The loops search for the first child at or past `keyBeg`, and `hammer2_combined_find` finds
it. -/
theorem combinedFind_find {p : ι} {keyBeg : Nat} {kids : List ι}
    (hs : kids.Pairwise fun a b => T.last a < T.key b) (hm : ∀ c, c ∈ kids ↔ T.Child p c)
    (hbeg : keyBeg < keySpace) :
    (T.combinedFind p keyBeg (keySpace - 1)).1.map T.bref = findFrom (kids.map T.bref) keyBeg := by
  have hmap : findFrom (kids.map T.bref) keyBeg =
      (kids.find? fun c => keyBeg ≤ T.last c).map T.bref := List.find?_map
  rw [hmap]
  congr 1
  have hend : keySpace - 1 < keySpace := by decide
  cases hf : T.combinedFind p keyBeg (keySpace - 1) with
  | mk r keyNext =>
  cases r with
  | none =>
    symm
    refine List.find?_eq_none.2 fun c hc => ?_
    simp only [decide_eq_true_eq]
    intro hle
    have hlt := T.combinedFind_none (by omega) hend hf ((hm c).1 hc) hle
    have := (T.child_fits ((hm c).1 hc)).1
    have := Nat.two_pow_pos (T.keybits c)
    omega
  | some c =>
    obtain ⟨hnear, -⟩ := T.combinedFind_some (by omega) hend hf
    obtain ⟨xs, ys, rfl⟩ := List.append_of_mem ((hm c).2 hnear.child)
    refine (List.find?_eq_some_iff_append.2
      ⟨by simpa using hnear.le_last, xs, ys, rfl, fun b hb => ?_⟩).symm
    -- A child before the one found ends before it begins.
    have hlt := (List.pairwise_append.1 hs).2.2 b hb c List.mem_cons_self
    have hbl := T.key_le_last b
    have hcl := T.key_le_last c
    rw [Bool.not_eq_true', decide_eq_false_iff_not]
    intro hle
    rcases hnear.first b ((hm b).1 (List.mem_append_left _ hb)) hle with rfl | h
    · omega
    · omega

end ChainTree

end Hammer2
