import Hammer2.Xop.Cluster
import Hammer2.Namespace.Dirent

/-!
# Frames of a remote element

The slot of a master on another host is answered by its peer: the request of an operation goes out
as one frame, and the peer answers with a frame for each chain it feeds and a closing frame. A chain
that comes in a frame is given to the collect as a proxy if the request can be answered with it: its
type and its keys have to be what was asked for (`RemoteReq.inRange`) and its block what the core
trusts the media for (`feedOk`).

Reference: `hammer2_remote.c:1310-1346`, `hammer2_remote.c:1757-1990`, `dmsg.h:571-612`.
-/

namespace Hammer2

/-- `HAMMER2_ERROR_EOF`. -/
def errorEof : Nat := 0x2000

/-- `HAMMER2_XOPFIFO`. -/
def xopFifo : Nat := 16

/-- What is read of the blockref in a frame; `radix` is the size in its `data_off`. -/
structure RemoteBref where
  type : BrefType
  methods : Nat
  keybits : Nat
  key : Nat
  radix : Nat
  namlen : Nat
  modifyTid : Nat
  deriving DecidableEq

/-- The block of a frame, with the number and the name's length that an inode's block has. -/
structure RemoteData where
  inum : Nat
  nameLen : Nat
  content : Nat
  deriving DecidableEq

/-- `struct dmsg_hm2_feed` with its auxiliary data. -/
structure HmFeed where
  bref : RemoteBref
  bytes : Nat
  error : Nat
  eof : Bool
  seq : Nat
  rkey : Nat
  tag : Nat
  aux : Option RemoteData
  auxSize : Nat
  deriving DecidableEq

/-- `struct hammer2_rframe`: a frame copied off the reader thread. -/
structure RFrame where
  bref : RemoteBref
  bytes : Nat
  error : Nat
  data : Option RemoteData
  deriving DecidableEq

/-- `hammer2_remote_error`: of the errors of a fed chain, those that a chain of the media
carries. -/
def remoteError (error : Nat) : Nat :=
  if error &&& (errorEio ||| errorCheck ||| errorBadbref) = error then error else errorEio

/-- `hammer2_remote_end`: the error of an element's end. -/
def remoteEnd (error : Nat) : Nat :=
  if error = 0 ∨ error = errorEnoent ∨ error = errorEtimedout then error else errorEnotconn

/-! ## Requests -/

/-- The operations that a remote element answers. -/
inductive RemoteKind
  | ipcluster | readdir | nresolve | scanlhc | scanall | lookup | strategyRead | bmap
  deriving DecidableEq

/-- The operation of a request, with what this side knows of its inode. -/
structure RemoteReq where
  kind : RemoteKind
  keyBeg : Nat
  keyEnd : Nat
  nodirect : Bool
  nodata : Bool
  nmax : Int
  inum : Nat
  isDir : Bool

/-- The chains that the operation's storage function feeds at most. -/
def RemoteReq.cap (req : RemoteReq) : Int :=
  match req.kind with
  | .readdir => req.nmax
  | .scanlhc => 2 ^ 31 - 1
  | .scanall => 2 ^ 31 - 1
  | _ => 1

/-- The operation feeds one chain and no end behind it. -/
def RemoteReq.onechain (req : RemoteReq) : Bool :=
  req.kind ≠ .readdir ∧ req.kind ≠ .scanlhc ∧ req.kind ≠ .scanall

/-- `sizeof(hammer2_inode_data_t)`. -/
def inodeBytes : Nat := 1024

/-- The last key of a chain's range. -/
def RemoteBref.last (b : RemoteBref) : Nat := b.key ||| (2 ^ b.keybits - 1)

/-- The number of a frame's inode, if its block is there. -/
def RFrame.inum (f : RFrame) : Option Nat :=
  if f.bref.type = .inode ∧ inodeBytes ≤ f.bytes then f.data.map (·.inum) else none

/-- The frame has the inode that the request runs under; one with an error carries no number. -/
def RemoteReq.own (req : RemoteReq) (f : RFrame) : Bool :=
  f.bref.type = .inode ∧ (f.error ≠ 0 ∨ f.inum = some req.inum)

/-- The offset that a read or a bmap asks for. -/
def RemoteReq.offset (req : RemoteReq) : Nat :=
  if req.kind = .bmap then req.keyBeg * pbufSize % 2 ^ 64 else req.keyBeg

/-- The chain's range has the key. -/
def RemoteBref.covers (b : RemoteBref) (key : Nat) : Prop := b.key ≤ key ∧ key ≤ b.last

instance (b : RemoteBref) (key : Nat) : Decidable (b.covers key) :=
  inferInstanceAs (Decidable (_ ∧ _))

/-- `hammer2_remote_in_range`. -/
def RemoteReq.inRange (req : RemoteReq) (f : RFrame) : Bool :=
  let isinode := f.bref.type = .inode
  let entry := f.bref.type = .dirent ∨ isinode
  if 63 < f.bref.keybits then false
  else
    match req.kind with
    | .ipcluster => req.own f
    | .readdir => entry ∧ req.keyBeg ≤ f.bref.key
    | .nresolve => isinode ∨ f.error ≠ 0 ∧ entry
    | .scanlhc => entry ∧ req.keyBeg ≤ f.bref.key ∧
        f.bref.key ≤ (req.keyBeg + dirhashLomask.toNat) % 2 ^ 64
    | .scanall =>
      if req.keyEnd < f.bref.key ∨ f.bref.last < req.keyBeg then false
      else if req.own f ∧ f.error = 0 then !req.nodirect
      else if req.isDir then entry
      else f.bref.type = .data
    | .lookup => isinode ∧ f.bref.covers req.keyBeg ∧ (f.error ≠ 0 ∨ f.inum = some req.keyBeg)
    | .bmap =>
      if isinode then req.own f else f.bref.type = .data ∧ f.bref.covers req.offset
    | .strategyRead =>
      if isinode then req.own f ∧ req.keyBeg = 0
      else f.bref.type = .data ∧ f.bref.covers req.offset

/-- `hammer2_remote_feed_ok`: the check and compression methods, the key's alignment, where a name
stands, and the length of an inode's name. -/
def feedOk (f : RFrame) : Bool :=
  let b := f.bref
  if 4 < (b.methods >>> 4) &&& 15 then false
  else if 3 < b.methods &&& 15 then false
  else if 63 < b.keybits then false
  else if b.key &&& (2 ^ b.keybits - 1) ≠ 0 then false
  else if f.error ≠ 0 then true
  else if b.type = .dirent ∧
      ((decide (b.namlen ≤ 64) ≠ decide (f.bytes = 0)) ∨ f.bytes ≠ 0 ∧ f.bytes < b.namlen)
    then false
  else if b.type = .inode ∧ f.bytes ≠ 0 ∧
      (f.bytes < inodeBytes ∨ f.data.all fun d => inodeMaxname < d.nameLen) then false
  else true

/-- `hammer2_remote_proxy`: the frame can be made a proxy, if there is memory for it. -/
def RemoteReq.proxyOk (req : RemoteReq) (f : RFrame) : Bool :=
  let b := f.bref
  let sized := 10 ≤ b.radix ∧ b.radix ≤ 16
  if b.type ≠ .inode ∧ b.type ≠ .data ∧ b.type ≠ .dirent then false
  else if feedOk f = false then false
  else if f.bytes ≠ 0 then
    sized ∧ 2 ^ b.radix = f.bytes ∧ (b.type = .inode → inodeBytes ≤ f.bytes)
  else if req.kind = .scanall ∧ req.nodata = true ∧ f.error = 0 ∧ b.type = .data then sized
  else f.error ≠ 0 ∨ b.type = .dirent

/-- What the request asks for, by the keys it names: a chain whose range meets that of a scanall,
one that begins in the hash range of a scanlhc, or at or behind the start of a readdir, the chain
with the key of a lookup or the offset of a read, for which a file with its data in the inode
answers with the inode. An ipcluster asks for the inode, and an nresolve names no key. -/
def RemoteReq.Asks (req : RemoteReq) (b : RemoteBref) : Prop :=
  match req.kind with
  | .ipcluster => b.type = .inode
  | .readdir => req.keyBeg ≤ b.key
  | .nresolve => True
  | .scanlhc => req.keyBeg ≤ b.key ∧ b.key ≤ req.keyBeg + dirhashLomask.toNat
  | .scanall => b.key ≤ req.keyEnd ∧ req.keyBeg ≤ b.last
  | .lookup => b.covers req.keyBeg
  | .strategyRead => b.type = .inode ∨ b.covers req.offset
  | .bmap => b.type = .inode ∨ b.covers req.offset

/-- A chain that is taken is one that was asked for. -/
theorem RemoteReq.asks_of_inRange {req : RemoteReq} {f : RFrame} (h : req.inRange f = true) :
    req.Asks f.bref := by
  unfold RemoteReq.inRange at h
  dsimp only at h
  rcases Nat.lt_or_ge 63 f.bref.keybits with hbits | hbits
  · rw [if_pos hbits] at h
    cases h
  · rw [if_neg hbits.not_gt] at h
    unfold RemoteReq.Asks
    cases hk : req.kind <;> rw [hk] at h <;> dsimp only at h ⊢
    case ipcluster => exact (of_decide_eq_true h).1
    case readdir => exact (of_decide_eq_true h).2
    case scanlhc =>
      obtain ⟨-, hbeg, hend⟩ := of_decide_eq_true h
      exact ⟨hbeg, hend.trans (Nat.mod_le _ _)⟩
    case scanall =>
      split at h
      · cases h
      · next hout =>
        push Not at hout
        exact hout
    case lookup => exact (of_decide_eq_true h).2.1
    case strategyRead =>
      split at h
      · next hi => exact .inl hi
      · exact .inr (of_decide_eq_true h).2
    case bmap =>
      split at h
      · next hi => exact .inl hi
      · exact .inr (of_decide_eq_true h).2

/-- An end that counts is the error it was made from. -/
theorem remoteEnd_counted {error : Nat} (h : disconnected (remoteEnd error) = false) :
    remoteEnd error = error ∧ (error = 0 ∨ error = errorEnoent) := by
  unfold remoteEnd at h ⊢
  split_ifs at h ⊢ with hcase
  · rcases hcase with rfl | rfl | rfl
    · exact ⟨rfl, .inl rfl⟩
    · exact ⟨rfl, .inr rfl⟩
    · cases h
  · cases h

end Hammer2
