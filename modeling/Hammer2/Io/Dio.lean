import Hammer2.Disk

/-!
# Device blocks behind reference-counted buffers

A `hammer2_io` (dio) stands for one 64KB block of a device while threads hold references to it. Its
bytes are in the folio of the device's page cache or, when the cache cannot hold the block, in a
buffer of the dio's own. A thread that changed bytes marks the dio dirty; the mark reaches the page
cache only when the last reference is dropped.

Every function here works on one block: the dio, the page cache's folio for the block and the media.
What memory and the device answer is an argument (`GetIo`, `PutIo`).

Reference: `hammer2_io.c:311-432`, `hammer2_io.c:469-562`, `hammer2_io.c:647-900`.
-/

namespace Hammer2

/-- The contents of a device block. -/
abbrev Bytes := Fin pbufSize → UInt8

/-- The bytes of `[lo, hi)` from `data`, the others from `x`. -/
def Bytes.patch (x : Bytes) (lo hi : Nat) (data : Bytes) : Bytes :=
  fun i => if lo ≤ i.val ∧ i.val < hi then data i else x i

/-- A folio of the page cache: its memory and whether it is marked dirty. -/
structure Folio where
  bytes : Bytes
  dirty : Bool

/-- What is behind a dio: nothing, the page cache's folio, or a buffer of its own. -/
inductive Backing
  | none
  | folio
  | buf (bytes : Bytes)

/-- `struct hammer2_io`: the reference count, `DIO_GOOD` and `DIO_DIRTY`, the error of the last fill
and the backing. -/
structure Dio where
  refs : Nat
  good : Bool
  dirty : Bool
  error : Nat
  backing : Backing

/-- One device block. -/
structure DevBlock where
  dio : Dio
  cache : Option Folio
  media : Bytes

/-- The operations of `hammer2_io_getblk`; `DOP_READQ` on a dio that exists is `DOP_READ`. -/
inductive Dop
  | read
  | new
  | newnz
  deriving DecidableEq, Repr

/-- What a fill meets: whether the page cache has no memory for the folio, whether `vmalloc` fails,
the result of the folio checks and of the device read, and what fresh memory holds. -/
structure GetIo where
  nomem : Bool
  vmFail : Bool
  checkError : Nat
  readError : Nat
  junk : Bytes

/-- What the disposal of an own buffer meets: whether the page cache takes the block, the result of
the device write, and what a failed write leaves on the media. -/
structure PutIo where
  takes : Bool
  error : Nat
  torn : Bytes

/-- `ENOMEM`. -/
def enomem : Nat := 12

namespace DevBlock

/-- The bytes that `hammer2_io_data` gives access to, or would after a fill. -/
def contents (k : DevBlock) : Bytes :=
  match k.dio.backing with
  | .buf x => x
  | _ => match k.cache with
    | some f => f.bytes
    | none => k.media

/-- A store through the pointer of `hammer2_io_data`. -/
def poke (k : DevBlock) (lo hi : Nat) (data : Bytes) : DevBlock :=
  match k.dio.backing with
  | .buf x => { k with dio := { k.dio with backing := .buf (x.patch lo hi data) } }
  | .folio => { k with cache := k.cache.map fun f => { f with bytes := f.bytes.patch lo hi data } }
  | .none => k

/-- `hammer2_io_setdirty`. -/
def setdirty (k : DevBlock) : DevBlock := { k with dio := { k.dio with dirty := true } }

/-- The dio with the backing a fill found. -/
def setBacking (k : DevBlock) (b : Backing) : DevBlock :=
  { k with dio := { k.dio with backing := b } }

/-- `hammer2_io_buf_get`. -/
def ioBufGet (k : DevBlock) (g : GetIo) (read zero : Bool) : Except Nat DevBlock :=
  if g.vmFail then .error enomem
  else if read then
    if g.readError ≠ 0 then .error g.readError else .ok (k.setBacking (.buf k.media))
  else .ok (k.setBacking (.buf (if zero then fun _ => 0 else g.junk)))

/-- `hammer2_bread`. -/
def bread (bufOnly : Bool) (g : GetIo) (k : DevBlock) : Except Nat DevBlock :=
  if bufOnly then k.ioBufGet g true false
  else match k.cache with
    | some _ => if g.checkError ≠ 0 then .error g.checkError else .ok (k.setBacking .folio)
    | none =>
      if g.nomem then k.ioBufGet g true false
      else if g.readError ≠ 0 then .error g.readError
      else if g.checkError ≠ 0 then .error g.checkError
      else .ok ({ k with cache := some ⟨k.media, false⟩ }.setBacking .folio)

/-- `hammer2_getblk_new`. -/
def getblkNew (bufOnly zero : Bool) (g : GetIo) (k : DevBlock) : Except Nat DevBlock :=
  if bufOnly then k.ioBufGet g false zero
  else match k.cache with
    | some f =>
      if g.checkError ≠ 0 then .error g.checkError
      else .ok ({ k with cache := some { f with bytes := if zero then fun _ => 0 else f.bytes } }
        |>.setBacking .folio)
    | none =>
      if g.nomem then k.ioBufGet g false zero
      else if g.checkError ≠ 0 then .error g.checkError
      else .ok ({ k with cache := some ⟨if zero then fun _ => 0 else g.junk, false⟩ }
        |>.setBacking .folio)

/-- What `hammer2_io_getblk` does with the bytes `[lo, hi)` of a filled block. -/
def applyOp (op : Dop) (lo hi : Nat) (k : DevBlock) : DevBlock :=
  match op with
  | .read => k
  | .new => (k.poke lo hi fun _ => 0).setdirty
  | .newnz => k.setdirty

/-- The fill of a block that is not `DIO_GOOD`. The whole block is created without a read. -/
def fill (bufOnly : Bool) (op : Dop) (lo hi : Nat) (g : GetIo) (k : DevBlock) :
    Except Nat DevBlock :=
  if lo = 0 ∧ hi = pbufSize then
    match op with
    | .read => k.bread bufOnly g
    | .new => (k.getblkNew bufOnly true g).map setdirty
    | .newnz => (k.getblkNew bufOnly false g).map setdirty
  else (k.bread bufOnly g).map (applyOp op lo hi)

/-- `hammer2_io_getblk`. -/
def getblk (bufOnly : Bool) (op : Dop) (lo hi : Nat) (g : GetIo) (k : DevBlock) : DevBlock :=
  let k := { k with dio := { k.dio with refs := k.dio.refs + 1 } }
  if k.dio.good then k.applyOp op lo hi
  else match k.fill bufOnly op lo hi g with
    | .error e => { k with dio := { k.dio with error := e } }
    | .ok k' => { k' with dio := { k'.dio with good := true, error := 0 } }

/-- `folio_mark_dirty`, or `folio_cancel_dirty`, on the block's folio. -/
def markFolio (k : DevBlock) (dirty : Bool) : DevBlock :=
  { k with cache := k.cache.map fun f => { f with dirty := dirty } }

/-- `hammer2_io_buf_put`: the page cache takes the block, or it is written and what the cache read
ahead meanwhile is invalidated. Also returns whether the write failed (`mapping_set_error`). -/
def ioBufPut (bufOnly : Bool) (p : PutIo) (x : Bytes) (k : DevBlock) : DevBlock × Bool :=
  if !bufOnly && p.takes then ({ k with cache := some ⟨x, true⟩ }, false)
  else ({ k with cache := none, media := if p.error = 0 then x else p.torn }, p.error != 0)

/-- `hammer2_io_putblk`. After a device error a dirty block is dropped unwritten. -/
def putblk (bufOnly deviceError : Bool) (p : PutIo) (k : DevBlock) : DevBlock × Bool :=
  if k.dio.refs = 0 then (k, false)
  else if k.dio.refs ≠ 1 then ({ k with dio := { k.dio with refs := k.dio.refs - 1 } }, false)
  else
    let k' := { k with dio := ⟨0, false, false, k.dio.error, .none⟩ }
    let write := k.dio.good && k.dio.dirty && !deviceError
    match k.dio.backing with
    | .none => (k', false)
    | .folio =>
      let k' := if deviceError then k'.markFolio false else k'
      (if write then k'.markFolio true else k', false)
    | .buf x => if write then k'.ioBufPut bufOnly p x else (k', false)

/-! ## The page cache's own steps -/

/-- The write of a dirty folio, which leaves it clean also when it fails. -/
def writeFolio (error : Nat) (torn : Bytes) (k : DevBlock) : DevBlock × Bool :=
  match k.cache with
  | some ⟨x, true⟩ =>
    ({ k with cache := some ⟨x, false⟩, media := if error = 0 then x else torn }, error != 0)
  | _ => (k, false)

/-- The block is read ahead into the page cache. -/
def readahead (k : DevBlock) : DevBlock :=
  match k.cache with
  | some _ => k
  | none => { k with cache := some ⟨k.media, false⟩ }

/-- A clean folio without a reference leaves the page cache. -/
def reclaim (k : DevBlock) : DevBlock :=
  match k.dio.backing, k.cache with
  | .folio, _ => k
  | _, some ⟨_, true⟩ => k
  | _, _ => { k with cache := none }

end DevBlock

end Hammer2
