import Hammer2.Io.Dio

/-!
# Where the bytes of a device block are

What the operations on a dio do to a byte of the block, in three ways a byte can be safe: it is on
the media, or the page cache's folio holds it and is marked dirty, or the dio holds it and is marked
dirty. A store apart, no operation loses the first two, and the third turns into one of them when
the last reference is dropped (`Keeps`). That the folio and an own buffer never both hold changes is
part of the block's invariant (`Wf`).

Reference: `hammer2_io.c:330-350`, `hammer2_io.c:647-879`.
-/

namespace Hammer2

theorem exists_of_map_ok {ε α β : Type*} {f : α → β} {x : Except ε α} {b : β}
    (h : x.map f = .ok b) : ∃ a, x = .ok a ∧ f a = b := by
  cases x with
  | error e => cases h
  | ok a => exact ⟨a, rfl, Except.ok.inj h⟩

namespace DevBlock

/-- The page cache holds the block in a folio marked dirty. -/
def FolioDirty (k : DevBlock) : Prop := ∃ x, k.cache = some ⟨x, true⟩

/-- The dio holds the block and is marked dirty. -/
def Marked (k : DevBlock) : Prop := k.dio.good = true ∧ k.dio.dirty = true

/-- What the operations keep of a block. The page cache never holds changes while the block is in a
buffer of the dio's own; with `io_buf_only` it never holds any. -/
structure Wf (bufOnly : Bool) (k : DevBlock) : Prop where
  good_iff : k.dio.good = true ↔ k.dio.backing ≠ .none
  free : k.dio.refs = 0 → k.dio.good = false ∧ k.dio.dirty = false
  folio : k.dio.backing = .folio → bufOnly = false ∧ ∃ f, k.cache = some f
  clean : bufOnly = true ∨ (∃ x, k.dio.backing = .buf x) →
    ∀ f, k.cache = some f → f.dirty = false ∧ f.bytes = k.media

/-- A byte with the value `v` stays safe from `k` to `k'`. -/
structure Keeps (k k' : DevBlock) (i : Fin pbufSize) (v : UInt8) : Prop where
  synced : k.contents i = v → k.media i = v → k'.contents i = v ∧ k'.media i = v
  folio : k.contents i = v → k.FolioDirty → k'.contents i = v ∧ k'.FolioDirty
  marked : k.contents i = v → k.Marked →
    k'.contents i = v ∧ (k'.media i = v ∨ k'.FolioDirty ∨ k'.Marked)

section
variable {k k' : DevBlock} {bufOnly : Bool} {op : Dop} {lo hi : Nat} {g : GetIo} {p : PutIo}
  {i : Fin pbufSize} {v : UInt8} {data x : Bytes}

/-- A block with a buffer reads as the buffer. -/
theorem contents_buf (h : k.dio.backing = .buf x) : k.contents = x := by
  simp only [contents, h]

/-- Without a backing, and with no changes in the page cache, the block reads as the media. -/
theorem contents_eq_media (h : k.dio.backing = .none)
    (hc : ∀ f, k.cache = some f → f.bytes = k.media) : k.contents = k.media := by
  cases hf : k.cache with
  | none => simp only [contents, h, hf]
  | some f => simpa only [contents, h, hf] using hc f hf

/-- With a buffer the folio is not dirty. -/
theorem Wf.not_folioDirty (h : k.Wf bufOnly) (hb : bufOnly = true ∨ ∃ x, k.dio.backing = .buf x) :
    ¬ k.FolioDirty := by
  rintro ⟨x, hx⟩
  cases (h.clean hb _ hx).1

/-- Without a backing nothing is marked. -/
theorem Wf.not_marked (h : k.Wf bufOnly) (hb : k.dio.backing = .none) : ¬ k.Marked :=
  fun hm => h.good_iff.1 hm.1 hb

/-- Operations that leave the backing, the page cache and the media alone. -/
theorem Keeps.of_dio {d : Dio} (hb : d.backing = k.dio.backing)
    (hg : k.dio.good = true → d.good = true) (hd : k.dio.dirty = true → d.dirty = true) :
    k.Keeps { k with dio := d } i v := by
  have hc : contents { k with dio := d } = k.contents := by simp only [contents, hb]
  refine ⟨fun h hm => ⟨hc ▸ h, hm⟩, fun h hf => ⟨hc ▸ h, hf⟩, fun h hm => ⟨hc ▸ h, ?_⟩⟩
  exact Or.inr (Or.inr ⟨hg hm.1, hd hm.2⟩)

theorem Keeps.trans {k₁ k₂ k₃ : DevBlock} (h : k₁.Keeps k₂ i v) (h' : k₂.Keeps k₃ i v) :
    k₁.Keeps k₃ i v where
  synced hc hm := (h.synced hc hm).elim h'.synced
  folio hc hf := (h.folio hc hf).elim h'.folio
  marked hc hm := by
    obtain ⟨hc', hm' | hf | hk⟩ := h.marked hc hm
    · exact (h'.synced hc' hm').imp_right Or.inl
    · exact (h'.folio hc' hf).imp_right fun h => Or.inr (Or.inl h)
    · exact h'.marked hc' hk

/-! ## Stores and marks -/

/-- Marking the block dirty keeps it well formed. -/
theorem Wf.setdirty (h : k.Wf bufOnly) (hr : k.dio.refs ≠ 0) : k.setdirty.Wf bufOnly where
  good_iff := h.good_iff
  free h0 := absurd h0 hr
  folio := h.folio
  clean := h.clean

/-- It changes no byte. -/
theorem keeps_setdirty : k.Keeps k.setdirty i v := Keeps.of_dio rfl id fun _ => rfl

/-- A store keeps the block well formed. -/
theorem Wf.poke (h : k.Wf bufOnly) : (k.poke lo hi data).Wf bufOnly := by
  cases hb : k.dio.backing with
  | none => simpa only [DevBlock.poke, hb] using h
  | folio =>
    obtain ⟨ho, f, hf⟩ := h.folio hb
    simp only [DevBlock.poke, hb]
    refine ⟨h.good_iff, h.free, fun _ => ⟨ho, _, by rw [hf]; rfl⟩, ?_⟩
    rintro (hc | ⟨y, hy⟩)
    · rw [ho] at hc; cases hc
    · change k.dio.backing = _ at hy
      rw [hb] at hy; cases hy
  | buf y =>
    simp only [DevBlock.poke, hb]
    refine ⟨⟨fun _ => Backing.noConfusion, fun _ => h.good_iff.2 ?_⟩, h.free,
      fun hf => Backing.noConfusion hf, fun _ => h.clean (Or.inr ⟨y, hb⟩)⟩
    rw [hb]
    exact Backing.noConfusion

@[simp] theorem dio_poke_refs : (k.poke lo hi data).dio.refs = k.dio.refs := by
  unfold DevBlock.poke
  split <;> rfl

@[simp] theorem dio_poke_good : (k.poke lo hi data).dio.good = k.dio.good := by
  unfold DevBlock.poke
  split <;> rfl

/-- A store gives the bytes of its range and leaves the others. -/
theorem contents_poke (h : k.Wf bufOnly) (hg : k.dio.good = true) :
    (k.poke lo hi data).contents = k.contents.patch lo hi data := by
  cases hb : k.dio.backing with
  | none => exact absurd hb (h.good_iff.1 hg)
  | folio =>
    obtain ⟨-, f, hf⟩ := h.folio hb
    simp only [DevBlock.poke, contents, hb, hf, Option.map_some]
  | buf y => simp only [DevBlock.poke, contents, hb]

/-- A store changes no byte outside its range. -/
theorem keeps_poke (h : k.Wf bufOnly) (hi' : ¬ (lo ≤ i.val ∧ i.val < hi)) :
    k.Keeps (k.poke lo hi data) i v := by
  have hc : (k.poke lo hi data).contents i = k.contents i := by
    by_cases hg : k.dio.good = true
    · rw [contents_poke h hg, Bytes.patch, if_neg hi']
    · have hb : k.dio.backing = .none := by
        by_contra hne
        exact hg (h.good_iff.2 hne)
      simp only [DevBlock.poke, hb]
  have hm : (k.poke lo hi data).media = k.media := by
    unfold DevBlock.poke
    split <;> rfl
  have hd : (k.poke lo hi data).Marked ↔ k.Marked := by
    unfold Marked DevBlock.poke
    split <;> rfl
  have hf : k.FolioDirty → (k.poke lo hi data).FolioDirty := by
    rintro ⟨x, hx⟩
    unfold DevBlock.poke
    split
    · exact ⟨x, hx⟩
    · exact ⟨x.patch lo hi data, by simp only [hx, Option.map_some]⟩
    · exact ⟨x, hx⟩
  exact ⟨fun h h' => ⟨hc.trans h, hm ▸ h'⟩, fun h h' => ⟨hc.trans h, hf h'⟩,
    fun h h' => ⟨hc.trans h, Or.inr (Or.inr (hd.2 h'))⟩⟩

/-! ## The fill of a block -/

/-- What a fill makes of a block without a backing: the bytes that `keep` are those the block had,
and a folio that was marked dirty is the backing and still is marked. -/
inductive Filled (bufOnly : Bool) (keep : Fin pbufSize → Prop) (k : DevBlock) : DevBlock → Prop
  | folio (y : Bytes) (d c : Bool) : bufOnly = false → (k.dio.dirty = true → d = true) →
      (∀ i, keep i → y i = k.contents i) → (k.FolioDirty → c = true) →
      Filled bufOnly keep k ⟨{ k.dio with dirty := d, backing := .folio }, some ⟨y, c⟩, k.media⟩
  | buf (y : Bytes) (d : Bool) : bufOnly = true ∨ k.cache = none → (k.dio.dirty = true → d = true) →
      (∀ i, keep i → y i = k.contents i) →
      Filled bufOnly keep k ⟨{ k.dio with dirty := d, backing := .buf y }, k.cache, k.media⟩

variable {keep keep' : Fin pbufSize → Prop}

/-- A filled block may be marked dirty. -/
theorem Filled.setdirty (h : Filled bufOnly keep k k') : Filled bufOnly keep k k'.setdirty := by
  cases h with
  | folio y d c ho hd hy hc => exact .folio y true c ho (fun _ => rfl) hy hc
  | buf y d ho hd hy => exact .buf y true ho (fun _ => rfl) hy

theorem Filled.mono (h : Filled bufOnly keep k k') (hk : ∀ i, keep' i → keep i) :
    Filled bufOnly keep' k k' := by
  cases h with
  | folio y d c ho hd hy hc => exact .folio y d c ho hd (fun i hi => hy i (hk i hi)) hc
  | buf y d ho hd hy => exact .buf y d ho hd fun i hi => hy i (hk i hi)

/-- A store keeps the bytes outside its range. -/
theorem Filled.poke (h : Filled bufOnly keep k k') :
    Filled bufOnly (fun i => keep i ∧ ¬ (lo ≤ i.val ∧ i.val < hi)) k (k'.poke lo hi data) := by
  cases h with
  | folio y d c ho hd hy hc =>
    refine .folio (y.patch lo hi data) d c ho hd (fun i hi => ?_) hc
    rw [Bytes.patch, if_neg hi.2]
    exact hy i hi.1
  | buf y d ho hd hy =>
    refine .buf (y.patch lo hi data) d ho hd fun i hi => ?_
    rw [Bytes.patch, if_neg hi.2]
    exact hy i hi.1

/-- A block that is to be read into an own buffer reads as the media. -/
theorem Wf.contents_own (h : k.Wf bufOnly) (hb : k.dio.backing = .none)
    (ho : bufOnly = true ∨ k.cache = none) : k.contents = k.media := by
  refine contents_eq_media hb fun f hf => ?_
  rcases ho with ho | ho
  · exact (h.clean (Or.inl ho) f hf).2
  · rw [ho] at hf; cases hf

/-- A new buffer keeps the bytes if it is read from the media. -/
theorem Wf.filled_ioBufGet {read zero : Bool} (h : k.Wf bufOnly) (hb : k.dio.backing = .none)
    (ho : bufOnly = true ∨ k.cache = none) (hok : k.ioBufGet g read zero = .ok k') :
    Filled bufOnly (fun _ => read = true) k k' := by
  unfold ioBufGet at hok
  split at hok
  · cases hok
  · split at hok
    · split at hok
      · cases hok
      · cases hok
        exact .buf _ _ ho id fun i _ => by rw [h.contents_own hb ho]
    · next hr =>
      cases hok
      exact .buf _ _ ho id fun i hi => absurd hi hr

/-- A read keeps all bytes. -/
theorem Wf.filled_bread (h : k.Wf bufOnly) (hb : k.dio.backing = .none)
    (hok : k.bread bufOnly g = .ok k') : Filled bufOnly (fun _ => True) k k' := by
  unfold bread at hok
  split at hok
  · next ho => exact (h.filled_ioBufGet hb (Or.inl ho) hok).mono fun _ _ => rfl
  · next ho =>
    have ho : bufOnly = false := eq_false_of_ne_true ho
    split at hok
    · next f hf =>
      split at hok
      · cases hok
      · cases hok
        obtain ⟨y, c⟩ := f
        have hfill : Filled bufOnly (fun _ => True) k
            ⟨{ k.dio with backing := .folio }, some ⟨y, c⟩, k.media⟩ :=
          .folio y k.dio.dirty c ho id (fun i _ => by simp only [contents, hb, hf])
            (fun ⟨x, hx⟩ => by rw [hf] at hx; cases hx; rfl)
        rw [← hf] at hfill
        exact hfill
    · next hf =>
      split at hok
      · exact (h.filled_ioBufGet hb (Or.inr hf) hok).mono fun _ _ => rfl
      · split at hok
        · cases hok
        · split at hok
          · cases hok
          · cases hok
            exact .folio _ _ _ ho id (fun i _ => by simp only [contents, hb, hf])
              (fun ⟨x, hx⟩ => by rw [hf] at hx; cases hx)

/-- A block that is new keeps none. -/
theorem Wf.filled_getblkNew {zero : Bool} (h : k.Wf bufOnly) (hb : k.dio.backing = .none)
    (hok : k.getblkNew bufOnly zero g = .ok k') : Filled bufOnly (fun _ => False) k k' := by
  unfold getblkNew at hok
  split at hok
  · next ho => exact (h.filled_ioBufGet hb (Or.inl ho) hok).mono fun _ hf => hf.elim
  · next ho =>
    have ho : bufOnly = false := eq_false_of_ne_true ho
    split at hok
    · next f hf =>
      split at hok
      · cases hok
      · cases hok
        obtain ⟨y, c⟩ := f
        exact .folio _ _ c ho id (fun i hi => hi.elim)
          (fun ⟨x, hx⟩ => by rw [hf] at hx; cases hx; rfl)
    · next hf =>
      split at hok
      · exact (h.filled_ioBufGet hb (Or.inr hf) hok).mono fun _ hf => hf.elim
      · split at hok
        · cases hok
        · cases hok
          exact .folio _ _ _ ho id (fun i hi => hi.elim)
            (fun ⟨x, hx⟩ => by rw [hf] at hx; cases hx)

/-- The bytes that `hammer2_io_getblk` does not create. -/
def Untouched (op : Dop) (lo hi : Nat) (i : Fin pbufSize) : Prop :=
  op = .read ∨ ¬ (lo ≤ i.val ∧ i.val < hi)

/-- The fill keeps the bytes that the operation does not touch. -/
theorem Wf.filled_fill (h : k.Wf bufOnly) (hb : k.dio.backing = .none)
    (hok : k.fill bufOnly op lo hi g = .ok k') : Filled bufOnly (Untouched op lo hi) k k' := by
  unfold fill at hok
  split at hok
  · next hw =>
    obtain ⟨rfl, rfl⟩ := hw
    -- The whole block: no byte of it is kept unless it is read.
    have hall : ∀ i, op ≠ .read → ¬ Untouched op 0 pbufSize i := fun i hop hu =>
      hu.elim hop fun hn => hn ⟨Nat.zero_le _, i.isLt⟩
    cases op with
    | read => exact (h.filled_bread hb hok).mono fun _ _ => trivial
    | new | newnz =>
      obtain ⟨k₁, hk₁, rfl⟩ := exists_of_map_ok hok
      exact ((h.filled_getblkNew hb hk₁).mono fun i hi => hall i (by decide) hi).setdirty
  · obtain ⟨k₁, hk₁, rfl⟩ := exists_of_map_ok hok
    have hf := h.filled_bread hb hk₁
    cases op with
    | read => exact hf.mono fun _ _ => trivial
    | new =>
      refine (hf.poke.mono fun i hi => ⟨trivial, ?_⟩).setdirty
      exact hi.resolve_left (by decide)
    | newnz => exact (hf.mono fun _ _ => trivial).setdirty

/-- The filled block, with `DIO_GOOD` set. -/
def setGood (k : DevBlock) : DevBlock := { k with dio := { k.dio with good := true, error := 0 } }

/-- A filled block is well formed once it is marked GOOD. -/
theorem Filled.wf (h : Filled bufOnly keep k k') (hk : k.Wf bufOnly) (hr : k.dio.refs ≠ 0) :
    k'.setGood.Wf bufOnly := by
  cases h with
  | folio y d c ho hd hy hc =>
    refine ⟨⟨fun _ => Backing.noConfusion, fun _ => rfl⟩, fun h0 => absurd h0 hr,
      fun _ => ⟨ho, _, rfl⟩, ?_⟩
    rintro (hc | ⟨x, hx⟩)
    · rw [ho] at hc; cases hc
    · cases hx
  | buf y d ho hd hy =>
    refine ⟨⟨fun _ => Backing.noConfusion, fun _ => rfl⟩, fun h0 => absurd h0 hr,
      fun hf => Backing.noConfusion hf, fun _ f hf => ?_⟩
    rcases ho with ho | ho
    · exact hk.clean (Or.inl ho) f hf
    · change k.cache = some f at hf
      rw [ho] at hf; cases hf

/-- Filling and marking keeps the bytes. -/
theorem Filled.keeps (h : Filled bufOnly keep k k') (hk : k.Wf bufOnly) (hb : k.dio.backing = .none)
    (hi : keep i) : k.Keeps k'.setGood i v := by
  have hmk : k.Marked → False := hk.not_marked hb
  cases h with
  | folio y d c ho hd hy hc =>
    have hy : y i = k.contents i := hy i hi
    refine ⟨fun h hm => ⟨hy.trans h, hm⟩, fun h hf => ⟨hy.trans h, y, ?_⟩, fun _ h => (hmk h).elim⟩
    change some _ = some _
    rw [hc hf]
  | buf y d ho hd hy =>
    have hy : y i = k.contents i := hy i hi
    refine ⟨fun h hm => ⟨hy.trans h, hm⟩, fun _ hf => ?_, fun _ h => (hmk h).elim⟩
    rcases ho with ho | ho
    · exact absurd hf (hk.not_folioDirty (Or.inl ho))
    · obtain ⟨x, hx⟩ := hf
      rw [ho] at hx; cases hx

/-! ## References -/

/-- One more reference keeps the block well formed. -/
theorem Wf.addRef (h : k.Wf bufOnly) :
    Wf bufOnly { k with dio := { k.dio with refs := k.dio.refs + 1 } } where
  good_iff := h.good_iff
  free h0 := absurd h0 (Nat.succ_ne_zero _)
  folio := h.folio
  clean := h.clean

/-- The operation keeps it well formed. -/
theorem Wf.applyOp (h : k.Wf bufOnly) (hr : k.dio.refs ≠ 0) :
    (k.applyOp op lo hi).Wf bufOnly := by
  cases op with
  | read => exact h
  | new => exact h.poke.setdirty (dio_poke_refs.trans_ne hr)
  | newnz => exact h.setdirty hr

/-- The operation keeps the bytes it does not touch. -/
theorem keeps_applyOp (h : k.Wf bufOnly) (hi' : Untouched op lo hi i) :
    k.Keeps (k.applyOp op lo hi) i v := by
  cases op with
  | read => exact Keeps.of_dio rfl id id
  | new => exact (keeps_poke h (hi'.resolve_left (by decide))).trans keeps_setdirty
  | newnz => exact keeps_setdirty

/-- A get keeps the block well formed. -/
theorem Wf.getblk (h : k.Wf bufOnly) : (k.getblk bufOnly op lo hi g).Wf bufOnly := by
  unfold DevBlock.getblk
  dsimp only
  split
  · exact h.addRef.applyOp (Nat.succ_ne_zero _)
  · next hg =>
    have hb : k.dio.backing = .none := by
      by_contra hne
      exact hg (h.good_iff.2 hne)
    split
    · exact ⟨h.good_iff, fun h0 => absurd h0 (Nat.succ_ne_zero _), h.folio, h.clean⟩
    · next hf => exact (h.addRef.filled_fill hb hf).wf h.addRef (Nat.succ_ne_zero _)

/-- A get keeps the bytes that its operation does not touch. -/
theorem keeps_getblk (h : k.Wf bufOnly) (hi' : Untouched op lo hi i) :
    k.Keeps (k.getblk bufOnly op lo hi g) i v := by
  have hadd : k.Keeps { k with dio := { k.dio with refs := k.dio.refs + 1 } } i v :=
    Keeps.of_dio rfl id id
  unfold DevBlock.getblk
  dsimp only
  split
  · exact hadd.trans (keeps_applyOp h.addRef hi')
  · next hg =>
    have hb : k.dio.backing = .none := by
      by_contra hne
      exact hg (h.good_iff.2 hne)
    split
    · exact Keeps.of_dio rfl id id
    · next hf => exact hadd.trans ((h.addRef.filled_fill hb hf).keeps h.addRef hb hi')

/-- A block that is GOOD stays so. -/
theorem good_getblk (hg : k.dio.good = true) : (k.getblk bufOnly op lo hi g).dio.good = true := by
  rw [DevBlock.getblk]
  dsimp only
  rw [if_pos hg]
  cases op with
  | read => exact hg
  | new => exact dio_poke_good.trans hg
  | newnz => exact hg

/-- A block that is good keeps the bytes the operation does not create. -/
theorem Wf.contents_getblk (h : k.Wf bufOnly) (hg : k.dio.good = true)
    (hu : Untouched op lo hi i) : (k.getblk bufOnly op lo hi g).contents i = k.contents i := by
  rw [DevBlock.getblk]
  dsimp only
  rw [if_pos hg]
  cases op with
  | read => rfl
  | new =>
    change contents (DevBlock.poke _ lo hi _) i = _
    rw [contents_poke h.addRef hg, Bytes.patch, if_neg (hu.resolve_left (by decide))]
    rfl
  | newnz => rfl

/-- A get takes one reference. -/
theorem Wf.refs_getblk (h : k.Wf bufOnly) :
    (k.getblk bufOnly op lo hi g).dio.refs = k.dio.refs + 1 := by
  unfold DevBlock.getblk
  dsimp only
  split
  · cases op with
    | read => rfl
    | new => exact dio_poke_refs
    | newnz => rfl
  · next hg =>
    have hb : k.dio.backing = .none := by
      by_contra hne
      exact hg (h.good_iff.2 hne)
    split
    · rfl
    · next hf => cases h.addRef.filled_fill hb hf <;> rfl

/-- The dio after its last reference is dropped. -/
def dropped (k : DevBlock) : DevBlock := { k with dio := ⟨0, false, false, k.dio.error, .none⟩ }

/-- The last drop leaves the block well formed. -/
theorem Wf.dropped (h : k.Wf bufOnly) : k.dropped.Wf bufOnly where
  good_iff := ⟨fun hg => Bool.noConfusion hg, fun hn => absurd rfl hn⟩
  free _ := ⟨rfl, rfl⟩
  folio hf := Backing.noConfusion hf
  clean hb := by
    rcases hb with hb | ⟨x, hx⟩
    · exact h.clean (Or.inl hb)
    · cases hx

/-- A dio that is not marked dirty is dropped as it is. -/
theorem Wf.keeps_dropped (h : k.Wf bufOnly) (hm : ¬ k.Marked) : k.Keeps k.dropped i v := by
  by_cases hb : ∃ x, k.dio.backing = .buf x
  · -- What the page cache holds beside an own buffer is the media.
    have hc : k.dropped.contents = k.media :=
      contents_eq_media (k := k.dropped) rfl fun f hf => (h.clean (Or.inr hb) f hf).2
    exact ⟨fun _ hs => ⟨hc ▸ hs, hs⟩, fun _ hf => absurd hf (h.not_folioDirty (Or.inr hb)),
      fun _ hmk => absurd hmk hm⟩
  · have hc : k.dropped.contents = k.contents := by
      cases hb' : k.dio.backing with
      | none | folio => simp only [contents, hb', DevBlock.dropped]
      | buf x => exact absurd ⟨x, hb'⟩ hb
    exact ⟨fun h hs => ⟨hc ▸ h, hs⟩, fun h hf => ⟨hc ▸ h, hf⟩, fun _ hmk => absurd hmk hm⟩

/-- The last drop of a marked dio in the page cache. -/
theorem Wf.drop_markFolio (h : k.Wf bufOnly) (hb : k.dio.backing = .folio) :
    (k.dropped.markFolio true).Wf bufOnly ∧ ∀ i v, k.Keeps (k.dropped.markFolio true) i v := by
  obtain ⟨ho, f, hf⟩ := h.folio hb
  have hc : (k.dropped.markFolio true).contents = k.contents := by
    simp only [contents, markFolio, DevBlock.dropped, hb, hf, Option.map_some]
  have hd : (k.dropped.markFolio true).FolioDirty :=
    ⟨f.bytes, by simp only [markFolio, DevBlock.dropped, hf, Option.map_some]⟩
  refine ⟨⟨⟨fun hg => Bool.noConfusion hg, fun hn => absurd rfl hn⟩, fun _ => ⟨rfl, rfl⟩,
    fun hf => Backing.noConfusion hf, ?_⟩, fun i v => ⟨fun h hm => ⟨hc ▸ h, hm⟩,
      fun h _ => ⟨hc ▸ h, hd⟩, fun h _ => ⟨hc ▸ h, Or.inr (Or.inl hd)⟩⟩⟩
  rintro (hb | ⟨x, hx⟩)
  · rw [ho] at hb; cases hb
  · cases hx

/-- The last drop of a marked dio with an own buffer, unless the write fails. -/
theorem Wf.drop_ioBufPut (h : k.Wf bufOnly) (hb : k.dio.backing = .buf x)
    (he : (k.dropped.ioBufPut bufOnly p x).2 = false) :
    (k.dropped.ioBufPut bufOnly p x).1.Wf bufOnly ∧
      ∀ i v, k.Keeps (k.dropped.ioBufPut bufOnly p x).1 i v := by
  have hx : k.contents = x := contents_buf hb
  have hnf := h.not_folioDirty (Or.inr ⟨x, hb⟩)
  unfold ioBufPut at he ⊢
  split
  · next ht =>
    simp only [Bool.and_eq_true, Bool.not_eq_true_eq_eq_false] at ht
    refine ⟨⟨⟨fun hg => Bool.noConfusion hg, fun hn => absurd rfl hn⟩, fun _ => ⟨rfl, rfl⟩,
      fun hf => Backing.noConfusion hf, ?_⟩, fun i v => ⟨fun h hm => ⟨hx ▸ h, hm⟩,
        fun _ hf => absurd hf hnf, fun h _ => ⟨hx ▸ h, Or.inr (Or.inl ⟨x, rfl⟩)⟩⟩⟩
    rintro (hb | ⟨y, hy⟩)
    · rw [ht.1] at hb; cases hb
    · cases hy
  · next ht =>
    rw [if_neg ht] at he
    have he : p.error = 0 := by simpa using he
    rw [if_pos he]
    exact ⟨⟨⟨fun hg => Bool.noConfusion hg, fun hn => absurd rfl hn⟩, fun _ => ⟨rfl, rfl⟩,
      fun hf => Backing.noConfusion hf, fun _ f hf => by cases hf⟩, fun i v =>
      ⟨fun h _ => ⟨hx ▸ h, hx ▸ h⟩, fun _ hf => absurd hf hnf,
        fun h _ => ⟨hx ▸ h, Or.inl (hx ▸ h)⟩⟩⟩

/-- A put that is not the last only drops its reference. -/
theorem putblk_of_two_le {e : Bool} (h : 2 ≤ k.dio.refs) : k.putblk bufOnly e p =
    ({ k with dio := { k.dio with refs := k.dio.refs - 1 } }, false) := by
  rw [putblk, if_neg (by omega), if_pos (by omega)]

/-- A put drops one reference. -/
theorem refs_putblk {e : Bool} : (k.putblk bufOnly e p).1.dio.refs = k.dio.refs - 1 := by
  unfold putblk
  split
  · next h => rw [h]
  · split
    · rfl
    · next h1 =>
      have h1 : k.dio.refs = 1 := not_not.1 h1
      dsimp only
      rw [h1]
      split
      · rfl
      · split <;> split <;> rfl
      · split
        · unfold ioBufPut
          split <;> rfl
        · rfl

/-- A release keeps every safe byte, unless the write of an own buffer fails. -/
theorem Wf.putblk (h : k.Wf bufOnly) (he : (k.putblk bufOnly false p).2 = false) :
    (k.putblk bufOnly false p).1.Wf bufOnly ∧ ∀ i v, k.Keeps (k.putblk bufOnly false p).1 i v := by
  by_cases h2 : 2 ≤ k.dio.refs
  · rw [putblk_of_two_le h2]
    refine ⟨⟨h.good_iff, fun h0 => ?_, h.folio, h.clean⟩, fun i v => Keeps.of_dio rfl id id⟩
    change k.dio.refs - 1 = 0 at h0
    omega
  · by_cases h0 : k.dio.refs = 0
    · rw [DevBlock.putblk, if_pos h0]
      exact ⟨h, fun i v => Keeps.of_dio rfl id id⟩
    · have h1 : ¬ k.dio.refs ≠ 1 := by omega
      -- Without the mark the block is dropped as it is, whatever its backing.
      have hdrop : (k.dio.good && k.dio.dirty && !false) = false → k.dropped.Wf bufOnly ∧
          ∀ i v, k.Keeps k.dropped i v := fun hw =>
        ⟨h.dropped, fun i v => h.keeps_dropped fun hm => by rw [hm.1, hm.2] at hw; cases hw⟩
      rw [DevBlock.putblk, if_neg h0, if_neg h1] at he ⊢
      dsimp only at he ⊢
      cases hb : k.dio.backing with
      | none => exact ⟨h.dropped, fun i v => h.keeps_dropped (h.not_marked hb)⟩
      | folio =>
        cases hw : k.dio.good && k.dio.dirty && !false with
        | false => exact hdrop hw
        | true => exact h.drop_markFolio hb
      | buf x =>
        rw [hb] at he
        cases hw : k.dio.good && k.dio.dirty && !false with
        | false => exact hdrop hw
        | true =>
          rw [hw] at he
          exact h.drop_ioBufPut hb he

/-! ## The page cache -/

/-- A write of the folio does not change what is read. -/
theorem contents_writeFolio {error : Nat} {torn : Bytes} :
    (k.writeFolio error torn).1.contents = k.contents := by
  unfold DevBlock.writeFolio
  split
  · next x hx =>
    cases hb : k.dio.backing with
    | none | folio => simp only [contents, hb, hx]
    | buf y => simp only [contents, hb]
  · rfl

/-- A folio that is written leaves its bytes on the media. -/
theorem Wf.writeFolio {error : Nat} {torn : Bytes} (h : k.Wf bufOnly)
    (he : (k.writeFolio error torn).2 = false) : (k.writeFolio error torn).1.Wf bufOnly ∧
      ∀ i v, k.contents i = v → k.media i = v ∨ k.FolioDirty →
        (k.writeFolio error torn).1.media i = v := by
  unfold DevBlock.writeFolio at he ⊢
  split at he
  · next x hx =>
    have he : error = 0 := by simpa using he
    have hc : k.contents = x := by
      cases hb : k.dio.backing with
      | none | folio => simp only [contents, hb, hx]
      | buf y => exact absurd ⟨x, hx⟩ (h.not_folioDirty (Or.inr ⟨y, hb⟩))
    simp only [he, if_true]
    refine ⟨⟨h.good_iff, h.free, fun hf => ⟨(h.folio hf).1, _, rfl⟩, fun _ f hf => ?_⟩,
      fun i v hv _ => hc ▸ hv⟩
    cases hf
    exact ⟨rfl, rfl⟩
  · next hx =>
    refine ⟨h, fun i v hv hm => hm.resolve_right ?_⟩
    rintro ⟨x, hf⟩
    exact hx x hf

theorem dio_readahead : k.readahead.dio = k.dio := by
  unfold DevBlock.readahead
  split <;> rfl

theorem dio_reclaim : k.reclaim.dio = k.dio := by
  unfold DevBlock.reclaim
  split <;> rfl

theorem contents_readahead : k.readahead.contents = k.contents := by
  unfold DevBlock.readahead
  split
  · rfl
  · next hn => cases hb : k.dio.backing <;> simp only [contents, hb, hn]

/-- A block that is good is not reclaimed from under its dio. -/
theorem Wf.contents_reclaim (h : k.Wf bufOnly) (hg : k.dio.good = true) :
    k.reclaim.contents = k.contents := by
  cases hb : k.dio.backing with
  | none => exact absurd hb (h.good_iff.1 hg)
  | folio => simp only [DevBlock.reclaim, hb]
  | buf y => rw [contents_buf hb, contents_buf (dio_reclaim ▸ hb)]

/-- A readahead keeps the block and its bytes. -/
theorem Wf.readahead (h : k.Wf bufOnly) : k.readahead.Wf bufOnly ∧
    ∀ i v, k.Keeps k.readahead i v := by
  unfold DevBlock.readahead
  split
  · exact ⟨h, fun i v => Keeps.of_dio rfl id id⟩
  · next hn =>
    have hc : contents { k with cache := some ⟨k.media, false⟩ } = k.contents := by
      simpa only [DevBlock.readahead, hn] using contents_readahead (k := k)
    refine ⟨⟨h.good_iff, h.free, fun hf => ⟨(h.folio hf).1, _, rfl⟩, fun _ f hf => ?_⟩,
      fun i v => ⟨fun hv hm => ⟨hc ▸ hv, hm⟩, fun _ hf => ?_, fun hv hm => ⟨hc ▸ hv, ?_⟩⟩⟩
    · cases hf; exact ⟨rfl, rfl⟩
    · obtain ⟨x, hx⟩ := hf
      rw [hn] at hx; cases hx
    · exact Or.inr (Or.inr hm)

/-- So does reclaiming a clean folio. -/
theorem Wf.reclaim (h : k.Wf bufOnly) : k.reclaim.Wf bufOnly ∧
    ∀ i v, k.Keeps k.reclaim i v := by
  unfold DevBlock.reclaim
  split
  · exact ⟨h, fun i v => Keeps.of_dio rfl id id⟩
  · exact ⟨h, fun i v => Keeps.of_dio rfl id id⟩
  · next hnf hnd =>
    refine ⟨⟨h.good_iff, h.free, fun hf => absurd hf hnf, fun _ f hf => by cases hf⟩, fun i v => ?_⟩
    have hfd : ¬ k.FolioDirty := fun ⟨x, hx⟩ => hnd x hx
    cases hb : k.dio.backing with
    | none =>
      refine ⟨fun _ hm => ⟨?_, hm⟩, fun _ hf => absurd hf hfd,
        fun _ hm => absurd hm (h.not_marked hb)⟩
      simpa only [contents, hb] using hm
    | folio => exact absurd hb hnf
    | buf y =>
      have hc : contents { k with cache := none } = k.contents := by simp only [contents, hb]
      exact ⟨fun hv hm => ⟨hc ▸ hv, hm⟩, fun _ hf => absurd hf hfd,
        fun hv hm => ⟨hc ▸ hv, Or.inr (Or.inr hm)⟩⟩

end

end DevBlock

end Hammer2
