import Hammer2.Io.Coherence
import Hammer2.Lib.Run

/-!
# The writeback before a header

Any number of threads hold references to the blocks of a device and the page cache writes, reads
ahead and reclaims folios on its own, in every interleaving; `hammer2_dev_writeback` waits until the
folios that were dirty when it started have been written. A history beside each block records the
bytes a thread stored through a dio (`Holder.stored`), those that are due on the media because the
dio was marked dirty and their writer has released its reference (`Track.due`), and those that were
due when the writeback started (`Track.owed`).

Reference: `hammer2_io.c:647-879`, `hammer2_flush.c:1277-1296`, `hammer2_os.h:1550-1575`.
-/

namespace Hammer2

open Transition

/-- A reference, with the bytes stored through it that nobody has overwritten since. -/
structure Holder where
  id : Nat
  stored : Fin pbufSize → Option UInt8

/-- The history of a block. `pending` says that the writeback still has to write the block's
folio. -/
structure Track where
  holders : List Holder
  due : Fin pbufSize → Option UInt8
  owed : Fin pbufSize → Option UInt8
  pending : Bool

/-- A device: its blocks and their histories, the error the page cache has to report, the error
state of the device, whether a writeback is going on, and the result of the one that just
returned. -/
structure IoSys (n : Nat) where
  blk : Fin n → DevBlock
  trk : Fin n → Track
  mapError : Bool
  deviceError : Bool
  writing : Bool
  returned : Option Nat

/-- The steps: the calls of the threads, each atomic under the dio's lock, and those of the page
cache. -/
inductive IoAct (n : Nat)
  | getblk (b : Fin n) (id : Nat) (op : Dop) (lo hi : Nat) (g : GetIo)
  | store (b : Fin n) (id : Nat) (lo hi : Nat) (data : Bytes)
  | setdirty (b : Fin n) (id : Nat)
  | putblk (b : Fin n) (id : Nat) (p : PutIo)
  | writeFolio (b : Fin n) (error : Nat) (torn : Bytes)
  | readahead (b : Fin n)
  | reclaim (b : Fin n)
  | writebackBegin
  | writebackEnd
  | panic

/-- The recorded bytes without those of `[lo, hi)`. -/
def forget (f : Fin pbufSize → Option UInt8) (lo hi : Nat) : Fin pbufSize → Option UInt8 :=
  fun i => if lo ≤ i.val ∧ i.val < hi then none else f i

namespace Track

/-- The bytes of `[lo, hi)` are overwritten. -/
def overwrite (t : Track) (lo hi : Nat) : Track :=
  { t with
    holders := t.holders.map fun x => { x with stored := forget x.stored lo hi }
    due := forget t.due lo hi
    owed := forget t.owed lo hi }

/-- A new reference; an operation that creates the bytes `[lo, hi)` overwrites them. -/
def get (t : Track) (id : Nat) (op : Dop) (lo hi : Nat) : Track :=
  let t := if op = .read then t else t.overwrite lo hi
  { t with holders := ⟨id, fun _ => none⟩ :: t.holders }

/-- A store through the reference `id`. -/
def store (t : Track) (id lo hi : Nat) (data : Bytes) : Track :=
  let t := t.overwrite lo hi
  { t with
    holders := t.holders.map fun x =>
      if x.id = id then
        { x with stored := fun i => if lo ≤ i.val ∧ i.val < hi then some (data i) else x.stored i }
      else x }

/-- The reference `x` is released. What was stored through it is due if the dio is marked dirty. -/
def put (t : Track) (x : Holder) (marked : Bool) : Track :=
  { t with
    holders := t.holders.eraseP fun y => y.id == x.id
    due := if marked then fun i => (x.stored i).or (t.due i) else t.due }

end Track

/-- The folio of the block is marked dirty. -/
def DevBlock.folioDirty (k : DevBlock) : Bool :=
  match k.cache with
  | some f => f.dirty
  | none => false

/-- `EIO`. -/
def eio : Nat := 5

section
variable {n : Nat}

/-- A step of one block. -/
def IoSys.update (s : IoSys n) (b : Fin n) (k : DevBlock × Bool) (t : Track) : IoSys n :=
  { s with
    blk := Function.update s.blk b k.1
    trk := Function.update s.trk b t
    mapError := s.mapError || k.2
    returned := none }

/-- One step of the device. -/
def ioStep (bufOnly : Bool) (s : IoSys n) : IoAct n → Option (IoSys n)
  | .getblk b id op lo hi g =>
    if (s.trk b).holders.all fun x => x.id != id then
      some (s.update b ((s.blk b).getblk bufOnly op lo hi g, false) ((s.trk b).get id op lo hi))
    else none
  | .store b id lo hi data =>
    if ((s.trk b).holders.any fun x => x.id == id) && (s.blk b).dio.good then
      some (s.update b ((s.blk b).poke lo hi data, false) ((s.trk b).store id lo hi data))
    else none
  | .setdirty b id =>
    if (s.trk b).holders.any fun x => x.id == id then
      some (s.update b ((s.blk b).setdirty, false) (s.trk b))
    else none
  | .putblk b id p =>
    ((s.trk b).holders.find? fun x => x.id == id).map fun x =>
      s.update b ((s.blk b).putblk bufOnly s.deviceError p)
        ((s.trk b).put x ((s.blk b).dio.good && (s.blk b).dio.dirty))
  | .writeFolio b error torn =>
    some (s.update b ((s.blk b).writeFolio error torn) { s.trk b with pending := false })
  | .readahead b => some (s.update b ((s.blk b).readahead, false) (s.trk b))
  | .reclaim b => some (s.update b ((s.blk b).reclaim, false) (s.trk b))
  | .writebackBegin =>
    if s.writing then none
    else some { s with
      trk := fun b => { s.trk b with owed := (s.trk b).due, pending := (s.blk b).folioDirty }
      writing := true
      returned := none }
  | .writebackEnd =>
    if s.writing && decide (∀ b, (s.trk b).pending = false) then
      some { s with
        mapError := false, writing := false, returned := some (if s.mapError then eio else 0) }
    else none
  | .panic => some { s with deviceError := true, returned := none }

/-! ## The invariant of a block -/

/-- What holds of a block and its history until a write fails. -/
structure BlockInv (bufOnly : Bool) (k : DevBlock) (t : Track) : Prop where
  wf : k.Wf bufOnly
  refs : k.dio.refs = t.holders.length
  held : ∀ x ∈ t.holders, ∀ i v, x.stored i = some v → k.dio.good = true ∧ k.contents i = v
  due : ∀ i v, t.due i = some v →
    k.contents i = v ∧ (k.media i = v ∨ k.FolioDirty ∨ k.Marked)
  owed : ∀ i v, t.owed i = some v →
    k.contents i = v ∧ (k.media i = v ∨ (t.pending = true ∧ k.FolioDirty))

variable {bufOnly : Bool} {k k' : DevBlock} {t t' : Track} {id lo hi : Nat} {op : Dop}

/-- What is still owed lies outside the range forgotten. -/
theorem forget_eq_some {f : Fin pbufSize → Option UInt8} {i : Fin pbufSize} {v : UInt8} :
    forget f lo hi i = some v ↔ ¬ (lo ≤ i.val ∧ i.val < hi) ∧ f i = some v := by
  unfold forget
  split
  · next h => simp [h]
  · next h => simp [h]

theorem DevBlock.folioDirty_iff : k.folioDirty = true ↔ k.FolioDirty := by
  unfold DevBlock.folioDirty DevBlock.FolioDirty
  cases k.cache with
  | none => simp
  | some f =>
    obtain ⟨x, d⟩ := f
    simp

/-- An operation that keeps the bytes the new history still records. -/
theorem BlockInv.keep (h : BlockInv bufOnly k t) (wf : k'.Wf bufOnly)
    (refs : k'.dio.refs = t'.holders.length)
    (held : ∀ x ∈ t'.holders, ∀ i v, x.stored i = some v → k'.dio.good = true ∧ k'.contents i = v)
    (hdue : ∀ i v, t'.due i = some v → t.due i = some v ∧ k.Keeps k' i v)
    (howed : ∀ i v, t'.owed i = some v → t.owed i = some v ∧ k.Keeps k' i v)
    (hp : t'.pending = t.pending) : BlockInv bufOnly k' t' := by
  refine ⟨wf, refs, held, fun i v hv => ?_, fun i v hv => ?_⟩
  · obtain ⟨hv, hk⟩ := hdue i v hv
    obtain ⟨hc, hm | hf | hm⟩ := h.due i v hv
    · exact (hk.synced hc hm).imp_right Or.inl
    · exact (hk.folio hc hf).imp_right fun hf => Or.inr (Or.inl hf)
    · exact hk.marked hc hm
  · obtain ⟨hv, hk⟩ := howed i v hv
    obtain ⟨hc, hm | ⟨hpe, hf⟩⟩ := h.owed i v hv
    · exact (hk.synced hc hm).imp_right Or.inl
    · exact (hk.folio hc hf).imp_right fun hf => Or.inr ⟨hp ▸ hpe, hf⟩

/-- The page cache's steps that leave the dio and the history alone. -/
theorem BlockInv.keep_all (h : BlockInv bufOnly k t) (wf : k'.Wf bufOnly) (hd : k'.dio = k.dio)
    (hc : k.dio.good = true → k'.contents = k.contents) (hk : ∀ i v, k.Keeps k' i v) :
    BlockInv bufOnly k' t := by
  refine h.keep wf (hd ▸ h.refs) (fun x hx i v hv => ?_) (fun i v hv => ⟨hv, hk i v⟩)
    (fun i v hv => ⟨hv, hk i v⟩) rfl
  obtain ⟨hg, hv⟩ := h.held x hx i v hv
  exact ⟨hd ▸ hg, (hc hg).symm ▸ hv⟩

/-- A get keeps the invariant. -/
theorem BlockInv.getblk {g : GetIo} (h : BlockInv bufOnly k t) :
    BlockInv bufOnly (k.getblk bufOnly op lo hi g) (t.get id op lo hi) := by
  by_cases hop : op = .read
  · subst hop
    have hu : ∀ i, DevBlock.Untouched .read lo hi i := fun i => Or.inl rfl
    refine h.keep h.wf.getblk (h.wf.refs_getblk.trans (congrArg (· + 1) h.refs)) ?_
      (fun i v hv => ⟨hv, DevBlock.keeps_getblk h.wf (hu i)⟩)
      (fun i v hv => ⟨hv, DevBlock.keeps_getblk h.wf (hu i)⟩) rfl
    intro x hx i v hv
    rcases List.mem_cons.1 hx with rfl | hx
    · cases hv
    · obtain ⟨hg, hc⟩ := h.held x hx i v hv
      exact ⟨DevBlock.good_getblk hg, (h.wf.contents_getblk hg (hu i)).trans hc⟩
  · have ht : t.get id op lo hi = { t.overwrite lo hi with
        holders := ⟨id, fun _ => none⟩ :: (t.overwrite lo hi).holders } := by
      rw [Track.get, if_neg hop]
    rw [ht]
    refine h.keep h.wf.getblk ?_ ?_ (fun i v hv => ?_) (fun i v hv => ?_) rfl
    · rw [h.wf.refs_getblk, h.refs]
      simp only [Track.overwrite, List.length_cons, List.length_map]
    · intro x hx i v hv
      rcases List.mem_cons.1 hx with rfl | hx
      · cases hv
      · obtain ⟨y, hy, rfl⟩ := List.mem_map.1 hx
        obtain ⟨hu, hv⟩ := forget_eq_some.1 hv
        obtain ⟨hg, hc⟩ := h.held y hy i v hv
        exact ⟨DevBlock.good_getblk hg, (h.wf.contents_getblk hg (Or.inr hu)).trans hc⟩
    · obtain ⟨hu, hv⟩ := forget_eq_some.1 hv
      exact ⟨hv, DevBlock.keeps_getblk h.wf (Or.inr hu)⟩
    · obtain ⟨hu, hv⟩ := forget_eq_some.1 hv
      exact ⟨hv, DevBlock.keeps_getblk h.wf (Or.inr hu)⟩

/-- A store keeps it, and the new bytes are owed. -/
theorem BlockInv.store {data : Bytes} (h : BlockInv bufOnly k t) (hg : k.dio.good = true) :
    BlockInv bufOnly (k.poke lo hi data) (t.store id lo hi data) := by
  have hc : (k.poke lo hi data).contents = k.contents.patch lo hi data :=
    DevBlock.contents_poke h.wf hg
  -- A byte that another reference stored is recorded only if this store leaves it.
  have hkept : ∀ x ∈ t.holders, ∀ i v, forget x.stored lo hi i = some v →
      (k.poke lo hi data).contents i = v := by
    intro x hx i v hv
    obtain ⟨hu, hv⟩ := forget_eq_some.1 hv
    rw [hc, Bytes.patch, if_neg hu]
    exact (h.held x hx i v hv).2
  refine h.keep h.wf.poke ?_ ?_ (fun i v hv => ?_) (fun i v hv => ?_) rfl
  · simp only [DevBlock.dio_poke_refs, h.refs, Track.store, Track.overwrite, List.length_map]
  · intro x hx i v hv
    refine ⟨DevBlock.dio_poke_good.trans hg, ?_⟩
    simp only [Track.store, Track.overwrite, List.map_map, List.mem_map, Function.comp] at hx
    obtain ⟨y, hy, rfl⟩ := hx
    split at hv
    · dsimp only at hv
      split at hv
      · next hr =>
        rw [hc, Bytes.patch, if_pos hr]
        exact Option.some.inj hv
      · exact hkept y hy i v hv
    · exact hkept y hy i v hv
  · obtain ⟨hu, hv⟩ := forget_eq_some.1 hv
    exact ⟨hv, DevBlock.keeps_poke h.wf hu⟩
  · obtain ⟨hu, hv⟩ := forget_eq_some.1 hv
    exact ⟨hv, DevBlock.keeps_poke h.wf hu⟩

/-- A mark by a holder keeps it. -/
theorem BlockInv.setdirty (h : BlockInv bufOnly k t) (hne : t.holders ≠ []) :
    BlockInv bufOnly k.setdirty t := by
  have hr : k.dio.refs ≠ 0 := by
    rw [h.refs]
    exact fun h0 => hne (List.length_eq_zero_iff.1 h0)
  exact h.keep (h.wf.setdirty hr) h.refs h.held (fun i v hv => ⟨hv, DevBlock.keeps_setdirty⟩)
    (fun i v hv => ⟨hv, DevBlock.keeps_setdirty⟩) rfl

/-- What was stored through a marked dio is due when its writer lets go of it. -/
theorem BlockInv.release {x : Holder} {m : Bool} (h : BlockInv bufOnly k t) (hx : x ∈ t.holders)
    (hm : m = true → k.Marked) : BlockInv bufOnly k
      { t with due := if m then fun i => (x.stored i).or (t.due i) else t.due } := by
  refine ⟨h.wf, h.refs, h.held, fun i v hv => ?_, h.owed⟩
  cases m with
  | false => exact h.due i v hv
  | true =>
    rcases Option.or_eq_some_iff.1 hv with hs | ⟨-, hd⟩
    · exact ⟨(h.held x hx i v hs).2, Or.inr (Or.inr (hm rfl))⟩
    · exact h.due i v hd

/-- A put without an error keeps the invariant. -/
theorem BlockInv.putblk {p : PutIo} {x : Holder} (h : BlockInv bufOnly k t) (hx : x ∈ t.holders)
    (he : (k.putblk bufOnly false p).2 = false) : BlockInv bufOnly (k.putblk bufOnly false p).1
      (t.put x (k.dio.good && k.dio.dirty)) := by
  have h' := h.release hx (m := k.dio.good && k.dio.dirty) fun hm => by
    simpa only [DevBlock.Marked, Bool.and_eq_true] using hm
  obtain ⟨hwf, hk⟩ := h.wf.putblk he
  have hlen : (t.holders.eraseP fun y => y.id == x.id).length = t.holders.length - 1 :=
    List.length_eraseP_of_mem hx (beq_self_eq_true x.id)
  refine h'.keep hwf ?_ ?_ (fun i v hv => ⟨hv, hk i v⟩) (fun i v hv => ⟨hv, hk i v⟩) rfl
  · rw [DevBlock.refs_putblk, h.refs]
    exact hlen.symm
  · intro y hy i v hv
    -- Another reference is left, so this is not the last drop.
    have hlt : 0 < t.holders.length - 1 := hlen ▸ List.length_pos_of_mem hy
    have h2 : 2 ≤ k.dio.refs := by
      rw [h.refs]
      omega
    rw [DevBlock.putblk_of_two_le h2]
    exact h.held y (List.mem_of_mem_eraseP hy) i v hv

/-- A folio written without an error keeps it, and nothing is pending. -/
theorem BlockInv.writeFolio {error : Nat} {torn : Bytes} (h : BlockInv bufOnly k t)
    (he : (k.writeFolio error torn).2 = false) :
    BlockInv bufOnly (k.writeFolio error torn).1 { t with pending := false } := by
  obtain ⟨hwf, hs⟩ := h.wf.writeFolio he
  have hc' : (k.writeFolio error torn).1.contents = k.contents := DevBlock.contents_writeFolio
  have hd : (k.writeFolio error torn).1.dio = k.dio := by
    unfold DevBlock.writeFolio
    split <;> rfl
  refine ⟨hwf, hd ▸ h.refs, fun x hx i v hv => ?_, fun i v hv => ?_, fun i v hv => ?_⟩
  · obtain ⟨hg, hc⟩ := h.held x hx i v hv
    exact ⟨hd ▸ hg, hc' ▸ hc⟩
  · obtain ⟨hc, hm | hf | hm⟩ := h.due i v hv
    · exact ⟨hc' ▸ hc, Or.inl (hs i v hc (Or.inl hm))⟩
    · exact ⟨hc' ▸ hc, Or.inl (hs i v hc (Or.inr hf))⟩
    · refine ⟨hc' ▸ hc, Or.inr (Or.inr ?_)⟩
      rw [DevBlock.Marked, hd]
      exact hm
  · obtain ⟨hc, ho⟩ := h.owed i v hv
    exact ⟨hc' ▸ hc, Or.inl (hs i v hc (ho.imp_right And.right))⟩

/-- **The start of a writeback**: what is due is in a folio marked dirty or on the media, if the
mark of a dio that is still held has reached its folio. -/
theorem BlockInv.writebackBegin (h : BlockInv bufOnly k t) (hok : k.Marked → k.FolioDirty) :
    BlockInv bufOnly k { t with owed := t.due, pending := k.folioDirty } := by
  refine ⟨h.wf, h.refs, h.held, h.due, fun i v hv => ?_⟩
  obtain ⟨hc, hm | hf | hm⟩ := h.due i v hv
  · exact ⟨hc, Or.inl hm⟩
  · exact ⟨hc, Or.inr ⟨DevBlock.folioDirty_iff.2 hf, hf⟩⟩
  · exact ⟨hc, Or.inr ⟨DevBlock.folioDirty_iff.2 (hok hm), hok hm⟩⟩

/-! ## Runs -/

/-- A device whose blocks nobody holds. With `io_buf_only` its page cache holds no changes. -/
structure IoInit (bufOnly : Bool) (s : IoSys n) : Prop where
  wf : ∀ b, (s.blk b).Wf bufOnly
  free : ∀ b, (s.blk b).dio.refs = 0
  track : ∀ b, s.trk b = ⟨[], fun _ => none, fun _ => none, false⟩
  errors : s.mapError = false ∧ s.deviceError = false
  idle : s.returned = none

instance : Decidable k.FolioDirty := decidable_of_iff _ DevBlock.folioDirty_iff

instance : Decidable k.Marked := inferInstanceAs (Decidable (_ ∧ _))

/-- The condition on the steps of a run, for the block `b`: when a writeback starts, the mark of a
dio that is still held has already reached the page cache; no writeback has reported an error
before; the device never is in error. -/
def IoOk (b : Fin n) (s : IoSys n) : IoAct n → Prop
  | .writebackBegin => (s.blk b).Marked → (s.blk b).FolioDirty
  | .writebackEnd => s.mapError = false
  | .panic => False
  | _ => True

instance (b : Fin n) (s : IoSys n) : ∀ a, Decidable (IoOk b s a)
  | .writebackBegin => inferInstanceAs (Decidable (_ → _))
  | .writebackEnd => inferInstanceAs (Decidable (_ = _))
  | .panic => inferInstanceAs (Decidable False)
  | .getblk .. => inferInstanceAs (Decidable True)
  | .store .. => inferInstanceAs (Decidable True)
  | .setdirty .. => inferInstanceAs (Decidable True)
  | .putblk .. => inferInstanceAs (Decidable True)
  | .writeFolio .. => inferInstanceAs (Decidable True)
  | .readahead .. => inferInstanceAs (Decidable True)
  | .reclaim .. => inferInstanceAs (Decidable True)

/-- What a run that meets the condition keeps. -/
structure IoInv (bufOnly : Bool) (b : Fin n) (s : IoSys n) : Prop where
  device : s.deviceError = false
  block : s.mapError = false → BlockInv bufOnly (s.blk b) (s.trk b)
  returned : s.returned = some 0 → ∀ i v, (s.trk b).owed i = some v → (s.blk b).media i = v

variable {b c : Fin n} {s s' : IoSys n}

/-- A clean cache meets the invariant. -/
theorem IoInit.inv (h : IoInit bufOnly s) : IoInv bufOnly b s where
  device := h.errors.2
  block _ := by
    rw [h.track b]
    exact ⟨h.wf b, h.free b, fun _ hx => absurd hx List.not_mem_nil,
      fun _ _ hv => (Option.some_ne_none _ hv.symm).elim,
      fun _ _ hv => (Option.some_ne_none _ hv.symm).elim⟩
  returned hr := by rw [h.idle] at hr; cases hr

/-- A step of the block `c` keeps the invariant of `b`, given that it does for `b` itself. -/
theorem IoInv.update {r : DevBlock × Bool} (h : IoInv bufOnly b s)
    (hb : c = b → BlockInv bufOnly (s.blk b) (s.trk b) → r.2 = false → BlockInv bufOnly r.1 t) :
    IoInv bufOnly b (s.update c r t) where
  device := h.device
  block he := by
    obtain ⟨he, hr⟩ := Bool.or_eq_false_iff.1 he
    have hinv := h.block he
    by_cases hcb : c = b
    · subst hcb
      simpa only [IoSys.update, Function.update_self] using hb rfl hinv hr
    · simpa only [IoSys.update, Function.update_of_ne (Ne.symm hcb)] using hinv
  returned hr := by cases hr

/-- **One step keeps the invariant.** -/
theorem IoInv.step {a : IoAct n} (h : IoInv bufOnly b s) (hok : IoOk b s a)
    (hs : ioStep bufOnly s a = some s') : IoInv bufOnly b s' := by
  cases a with
  | getblk c id op lo hi g =>
    simp only [ioStep, Option.ite_none_right_eq_some, Option.some.injEq] at hs
    obtain ⟨-, rfl⟩ := hs
    exact h.update fun hc hinv _ => hc ▸ hinv.getblk
  | store c id lo hi data =>
    simp only [ioStep, Option.ite_none_right_eq_some, Option.some.injEq, Bool.and_eq_true] at hs
    obtain ⟨⟨-, hg⟩, rfl⟩ := hs
    refine h.update fun hc hinv _ => ?_
    subst hc
    exact hinv.store hg
  | setdirty c id =>
    simp only [ioStep, Option.ite_none_right_eq_some, Option.some.injEq, List.any_eq_true] at hs
    obtain ⟨⟨x, hx, -⟩, rfl⟩ := hs
    refine h.update fun hc hinv _ => ?_
    subst hc
    exact hinv.setdirty (List.ne_nil_of_mem hx)
  | putblk c id p =>
    obtain ⟨x, hx, rfl⟩ := Option.map_eq_some_iff.1 hs
    refine h.update fun hc hinv he => ?_
    subst hc
    rw [h.device] at he ⊢
    exact hinv.putblk (List.mem_of_find?_eq_some hx) he
  | writeFolio c error torn =>
    obtain rfl := Option.some.inj hs
    refine h.update fun hc hinv he => ?_
    subst hc
    exact hinv.writeFolio he
  | readahead c =>
    obtain rfl := Option.some.inj hs
    refine h.update fun hc hinv _ => ?_
    subst hc
    exact hinv.keep_all hinv.wf.readahead.1 DevBlock.dio_readahead
      (fun _ => DevBlock.contents_readahead) hinv.wf.readahead.2
  | reclaim c =>
    obtain rfl := Option.some.inj hs
    refine h.update fun hc hinv _ => ?_
    subst hc
    exact hinv.keep_all hinv.wf.reclaim.1 DevBlock.dio_reclaim hinv.wf.contents_reclaim
      hinv.wf.reclaim.2
  | writebackBegin =>
    simp only [ioStep, Option.ite_none_left_eq_some, Option.some.injEq] at hs
    obtain ⟨-, rfl⟩ := hs
    exact ⟨h.device, fun he => (h.block he).writebackBegin hok, fun hr => by cases hr⟩
  | writebackEnd =>
    simp only [ioStep, Option.ite_none_right_eq_some, Option.some.injEq, Bool.and_eq_true,
      decide_eq_true_eq] at hs
    obtain ⟨⟨-, hp⟩, rfl⟩ := hs
    have hinv := h.block hok
    refine ⟨h.device, fun _ => hinv, fun _ i v hv => (hinv.owed i v hv).2.resolve_right ?_⟩
    rintro ⟨hpe, -⟩
    rw [hp b] at hpe
    cases hpe
  | panic => exact hok.elim

end

/-- **The writeback before a header misses no modified block**, in every interleaving whose steps
meet the condition `IoOk`: when it returns 0, every byte that was due when it started, and that
nobody has overwritten since, is on the media. -/
theorem writeback_misses_nothing {n : Nat} {bufOnly : Bool} {b : Fin n} {s₀ s : IoSys n}
    {as : List (IoAct n)} (h₀ : IoInit bufOnly s₀)
    (hr : RunMeets (fun s a s' => ioStep bufOnly s a = some s') (IoOk b) s₀ as s)
    (h0 : s.returned = some 0) (i : Fin pbufSize) (v : UInt8)
    (hv : (s.trk b).owed i = some v) : (s.blk b).media i = v :=
  (hr.invariant (fun h hok hs => IoInv.step h hok hs) h₀.inv).returned h0 i v hv

/-- A device with one block that nobody holds. -/
def oneBlock : IoSys 1 where
  blk _ := { dio := ⟨0, false, false, 0, .none⟩, cache := none, media := fun _ => 0 }
  trk _ := ⟨[], fun _ => none, fun _ => none, false⟩
  mapError := false
  deviceError := false
  writing := false
  returned := none

/-- A writer and a reader of another chain get the block, in an own buffer if the page cache has no
memory; the writer stores its first 1KB and releases its reference. -/
def sharedWrite (nomem : Bool) : List (IoAct 1) :=
  let g : GetIo := ⟨nomem, false, 0, 0, fun _ => 0⟩
  [.getblk 0 1 .newnz 0 1024 g, .getblk 0 2 .read 2048 3072 g, .store 0 1 0 1024 fun _ => 7,
    .putblk 0 1 ⟨true, 0, fun _ => 0⟩]

/-- The reader releases its reference too, and the writeback writes the block. -/
def releasedWriteback : List (IoAct 1) :=
  [.putblk 0 2 ⟨true, 0, fun _ => 0⟩, .writebackBegin, .writeFolio 0 0 fun _ => 0, .writebackEnd]

/-- The cache of the example. -/
theorem oneBlock_init : IoInit false oneBlock where
  wf _ := by
    refine ⟨by simp [oneBlock], fun _ => ⟨rfl, rfl⟩, fun hf => ?_, fun _ f hf => ?_⟩
    · cases hf
    · cases hf
  free _ := rfl
  track _ := rfl
  errors := ⟨rfl, rfl⟩
  idle := rfl

/-- A block shared by two writers reaches the media. -/
theorem writeback_misses_nothing_shared : ∃ s,
    exec (ioStep false) (IoOk 0) oneBlock (sharedWrite true ++ releasedWriteback) = some s ∧
      s.returned = some 0 ∧ (s.trk 0).owed ⟨5, by decide⟩ = some 7 ∧
      (s.blk 0).media ⟨5, by decide⟩ = 7 := by
  obtain ⟨s, hs, h0, hv⟩ : ∃ s,
      exec (ioStep false) (IoOk 0) oneBlock (sharedWrite true ++ releasedWriteback) = some s ∧
        s.returned = some 0 ∧ (s.trk 0).owed ⟨5, by decide⟩ = some 7 := ⟨_, rfl, rfl, rfl⟩
  have hrun := RunMeets.of_exec (fun hc hn => ⟨hc, hn⟩) hs
  exact ⟨s, hs, h0, hv, writeback_misses_nothing oneBlock_init hrun h0 _ _ hv⟩

/-- The result of a writeback while the reader still holds the block, with what was due of the sixth
byte and what the media has. -/
def heldWriteback (nomem : Bool) : Option (Option Nat × Option UInt8 × UInt8) :=
  (exec (ioStep false) (fun _ _ => True) oneBlock
    (sharedWrite nomem ++ [.writebackBegin, .writebackEnd])).map fun s =>
      (s.returned, (s.trk 0).owed ⟨5, by decide⟩, (s.blk 0).media ⟨5, by decide⟩)

/-- While the reader holds the block the writeback misses it, in the page cache as well as in a
buffer of the dio's own. -/
theorem writeback_misses_held_block :
    heldWriteback false = some (some 0, some 7, 0) ∧
      heldWriteback true = some (some 0, some 7, 0) := ⟨rfl, rfl⟩

end Hammer2
