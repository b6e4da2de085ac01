import Hammer2.Lib.Ring
import Hammer2.Lib.Run
import Hammer2.Xop.Merge

/-!
# The FIFOs of a cluster operation

An element feeds its answers into a ring of its own, from which `hammer2_xop_collect` takes them.
The size and the mask are the operation's, so that a ring that is full has the rings of all elements
grow. `Queues` says that the rings hold one queue for each element; feeding, growing and reading
keep it.

A pointer is the list of the slots allocated behind it; `hrealloc` sleeps until it has the memory
and does not fail. An access outside of the slots has no result, and neither has the doubling of the
size when it overflows its `int`.

Reference: `hammer2_admin.c:68-131`, `hammer2_admin.c:155-174`, `hammer2_admin.c:657-772`,
`hammer2_os.h:1116-1210`, `hammer2.h:634-669`.
-/

namespace Hammer2

/-- `hammer2_xop_fifo_t`. -/
structure Fifo where
  array : List (Option FedChain)
  errors : List Nat
  ri : BitVec 32
  wi : BitVec 32

/-- The FIFOs of `hammer2_xop_head_t`; `active` is `HAMMER2_XOPMASK_VOP` in `run_mask`. The entries
fed to each element and those read from it so far are recorded. -/
structure XopHead (n : Nat) where
  active : Bool
  fifoSize : BitVec 32
  collect : Fin n → Fifo
  fed : Fin n → List (Option FedChain × Nat)
  got : Fin n → List (Option FedChain × Nat)

/-- `HAMMER2_XOPFIFO`. -/
def fifoStart : Nat := 16

/-- `hrealloc` to `nmemb` members. -/
def hrealloc {α : Type*} (zero : α) (mem : List α) (nmemb : Nat) : List α :=
  mem ++ List.replicate (nmemb - mem.length) zero

/-- `xop->fifo_size *= 2`. -/
def doubled (fifoSize : BitVec 32) : Option (BitVec 32) :=
  if fifoSize.toInt * 2 < 2 ^ 31 then some (fifoSize * 2) else none

/-- `hammer2_xop_fifo_alloc` from `old` to `new` members, `old` not being 0. The loop moves the
entries of both arrays. -/
def fifoAlloc (f : Fifo) (new old : Nat) : Option Fifo :=
  (Ring.relocate old new (f.wi - f.ri).toNat f.ri (hrealloc none f.array new)).bind fun array =>
    (Ring.relocate old new (f.wi - f.ri).toNat f.ri (hrealloc 0 f.errors new)).map fun errors =>
      { f with array := array, errors := errors }

/-- What the threads do: an element feeds a chain and an error, the frontend advances an element, or
it retires from the operation. -/
inductive FifoAct (n : Nat)
  | feed (i : Fin n) (chain : Option FedChain) (error : Nat)
  | read (i : Fin n)
  | retire

namespace XopHead
variable {n : Nat}

/-- The FIFO of an element, replaced. -/
def setFifo (s : XopHead n) (i : Fin n) (f : Fifo) : XopHead n :=
  { s with collect := Function.update s.collect i f }

/-- Twice the size, for every element. -/
def grow (s : XopHead n) : Option (XopHead n) :=
  (doubled s.fifoSize).bind fun size =>
    if h : ∀ i, (fifoAlloc (s.collect i) size.toNat s.fifoSize.toNat).isSome then
      some { s with fifoSize := size, collect := fun i => Option.get _ (h i) }
    else none

/-- `while (fifo->ri == fifo->wi - xop->fifo_size)`. -/
def makeRoom (i : Fin n) : Nat → XopHead n → Option (XopHead n)
  | 0, _ => none
  | m + 1, s =>
    if (s.collect i).ri = (s.collect i).wi - s.fifoSize then s.grow.bind (makeRoom i m)
    else some s

/-- The entry at the write index. -/
def put (s : XopHead n) (i : Fin n) (chain : Option FedChain) (error : Nat) : Option (XopHead n) :=
  let f := s.collect i
  let k := Ring.slot f.wi s.fifoSize.toNat
  if k < f.errors.length ∧ k < f.array.length then
    some { s.setFifo i
        { f with errors := f.errors.set k error, array := f.array.set k chain, wi := f.wi + 1 } with
      fed := Function.update s.fed i (s.fed i ++ [(chain, error)]) }
  else none

/-- `hammer2_xop_feed`. The size doubles at most once, so that the bound on the turns is not met. -/
def feed (s : XopHead n) (i : Fin n) (chain : Option FedChain) (error : Nat) : Option (XopHead n) :=
  if s.active then (s.makeRoom i 32).bind fun t => t.put i chain (Hammer2.feed chain error).error
  else some s

/-- The advance of an element in `hammer2_xop_collect`. -/
def read (s : XopHead n) (i : Fin n) : Option (XopHead n) :=
  let f := s.collect i
  let k := Ring.slot f.ri s.fifoSize.toNat
  if f.ri ≠ f.wi then
    f.array[k]?.bind fun chain => f.errors[k]?.map fun error =>
      { s.setFifo i { f with ri := f.ri + 1 } with
        got := Function.update s.got i (s.got i ++ [(chain, error)]) }
  else some s

/-- One step. -/
def next (s : XopHead n) : FifoAct n → Option (XopHead n)
  | .feed i chain error => s.feed i chain error
  | .read i => s.read i
  | .retire => some { s with active := false }

/-- The entries between the indices of an element, as its next reads will find them. -/
def queued (s : XopHead n) (i : Fin n) : List (Option FedChain × Nat) :=
  let f := s.collect i
  let slot (k : Nat) := Ring.slot (f.ri + BitVec.ofNat 32 k) s.fifoSize.toNat
  (List.range (f.wi - f.ri).toNat).map fun k =>
    (f.array.getD (slot k) none, f.errors.getD (slot k) 0)

/-- The state that `hammer2_xop_alloc` makes, with the indices of each element anywhere. -/
structure Init (s : XopHead n) : Prop where
  active : s.active = true
  size : s.fifoSize = BitVec.ofNat 32 fifoStart
  array : ∀ i, (s.collect i).array.length = fifoStart
  errors : ∀ i, (s.collect i).errors.length = fifoStart
  empty : ∀ i, (s.collect i).ri = (s.collect i).wi
  fed : ∀ i, s.fed i = []
  got : ∀ i, s.got i = []

/-- The rings of `2 ^ j` slots hold a queue for each element: what has been fed and not read. -/
structure Queues (s : XopHead n) (j : Nat) (q : Fin n → List (Option FedChain × Nat)) : Prop where
  size : s.fifoSize = BitVec.ofNat 32 (2 ^ j)
  le : j ≤ 30
  array : ∀ i,
    Ring.Holds j (s.collect i).array (s.collect i).ri (s.collect i).wi ((q i).map Prod.fst)
  errors : ∀ i,
    Ring.Holds j (s.collect i).errors (s.collect i).ri (s.collect i).wi ((q i).map Prod.snd)
  fed : ∀ i, s.fed i = s.got i ++ q i

end XopHead

/-! ## Growing -/

section
variable {α : Type*} {zero : α} {mem : List α} {j : Nat}

theorem length_hrealloc (hm : mem.length = 2 ^ j) :
    (hrealloc zero mem (2 ^ (j + 1))).length = 2 ^ (j + 1) := by
  have hle : 2 ^ j ≤ 2 ^ (j + 1) := Nat.pow_le_pow_right (by decide) (Nat.le_succ j)
  rw [hrealloc, List.length_append, List.length_replicate, hm]
  omega

theorem getElem?_hrealloc (hm : mem.length = 2 ^ j) {x : Nat} (hx : x < 2 ^ j) :
    (hrealloc zero mem (2 ^ (j + 1)))[x]? = mem[x]? := by
  rw [hrealloc, List.getElem?_append_left (by omega)]

/-- A ring that is grown holds its queue. -/
theorem holds_hrealloc (zero : α) {ri wi : BitVec 32} {q : List α} (h : Ring.Holds j mem ri wi q)
    (hj : j + 1 < 32) :
    ∃ mem', Ring.relocate (2 ^ j) (2 ^ (j + 1)) (wi - ri).toNat ri
        (hrealloc zero mem (2 ^ (j + 1))) = some mem' ∧
      Ring.Holds (j + 1) mem' ri wi q :=
  h.relocate hj (length_hrealloc h.length) fun _ hx => getElem?_hrealloc h.length hx

/-- A power of two below the sign bit. -/
theorem toNat_size (hj : j ≤ 30) : (BitVec.ofNat 32 (2 ^ j)).toNat = 2 ^ j :=
  Nat.mod_eq_of_lt (Nat.pow_lt_pow_right (by decide) (by omega))

/-- The size doubles as long as the result is below the sign bit. -/
theorem doubled_size (hj : j < 30) :
    doubled (BitVec.ofNat 32 (2 ^ j)) = some (BitVec.ofNat 32 (2 ^ (j + 1))) := by
  have hlt : 2 ^ j < 2 ^ 30 := Nat.pow_lt_pow_right (by decide) hj
  have hint : (BitVec.ofNat 32 (2 ^ j)).toInt = (2 ^ j : Nat) := by
    rw [BitVec.toInt_eq_toNat_of_lt (by rw [toNat_size hj.le]; omega), toNat_size hj.le]
  rw [doubled, if_pos (by rw [hint]; omega), Nat.pow_succ, BitVec.ofNat_mul]
  rfl

end

namespace XopHead
variable {n : Nat} {s t : XopHead n} {j : Nat}
    {q : Fin n → List (Option FedChain × Nat)} {i : Fin n}

theorem Queues.toNat_size (h : s.Queues j q) : s.fifoSize.toNat = 2 ^ j := by
  rw [h.size, Hammer2.toNat_size h.le]

/-- The FIFOs have room for twice the entries as long as the size stays an `int`. -/
theorem Queues.grow (h : s.Queues j q) (hj : j < 30) :
    ∃ t, s.grow = some t ∧ t.Queues (j + 1) q ∧ t.active = s.active := by
  have halloc : ∀ i, ∃ f, fifoAlloc (s.collect i) (2 ^ (j + 1)) (2 ^ j) = some f ∧
      Ring.Holds (j + 1) f.array f.ri f.wi ((q i).map Prod.fst) ∧
      Ring.Holds (j + 1) f.errors f.ri f.wi ((q i).map Prod.snd) := by
    intro i
    obtain ⟨array, ha, harray⟩ := holds_hrealloc none (h.array i) (by omega : j + 1 < 32)
    obtain ⟨errors, he, herrors⟩ := holds_hrealloc 0 (h.errors i) (by omega : j + 1 < 32)
    refine ⟨{ s.collect i with array := array, errors := errors }, ?_, harray, herrors⟩
    rw [fifoAlloc, ha, he]
    rfl
  choose f hf harray herrors using halloc
  have hall : ∀ i, fifoAlloc (s.collect i) (BitVec.ofNat 32 (2 ^ (j + 1))).toNat s.fifoSize.toNat =
      some (f i) := by
    intro i
    rw [h.toNat_size, Hammer2.toNat_size hj]
    exact hf i
  refine ⟨{ s with fifoSize := BitVec.ofNat 32 (2 ^ (j + 1)), collect := f }, ?_,
    ⟨rfl, hj, harray, herrors, h.fed⟩, rfl⟩
  rw [XopHead.grow, h.size, doubled_size hj, Option.bind_some, ← h.size,
    dif_pos fun i => by rw [hall i]; rfl]
  congr 3
  funext i
  exact Option.get_of_eq_some _ (hall i)

/-- The size `2 ^ 30` cannot be doubled. -/
theorem Queues.grow_eq_none (h : s.Queues 30 q) : s.grow = none := by
  rw [XopHead.grow, h.size]
  rfl

/-- The test for a full queue. -/
theorem Queues.full_iff (h : s.Queues j q) (i : Fin n) :
    (s.collect i).ri = (s.collect i).wi - s.fifoSize ↔ (q i).length = 2 ^ j := by
  rw [h.size, (h.array i).full_iff, List.length_map]

/-- A FIFO of fewer than `2 ^ 30` entries gets room. -/
theorem Queues.makeRoom (h : s.Queues j q) (hlen : (q i).length < 2 ^ 30) :
    ∃ t j', s.makeRoom i 32 = some t ∧ t.Queues j' q ∧ (q i).length ≠ 2 ^ j' ∧
      t.active = s.active := by
  unfold XopHead.makeRoom
  by_cases hfull : (q i).length = 2 ^ j
  · have hj : j < 30 := (Nat.pow_lt_pow_iff_right (by decide)).1 (hfull ▸ hlen)
    obtain ⟨t, hgrow, ht, hact⟩ := h.grow hj
    have hroom : (q i).length ≠ 2 ^ (j + 1) := by
      have := Nat.two_pow_pos j
      rw [hfull, Nat.pow_succ]
      omega
    refine ⟨t, j + 1, ?_, ht, hroom, hact⟩
    rw [if_pos ((h.full_iff i).2 hfull), hgrow, Option.bind_some, XopHead.makeRoom,
      if_neg fun hf => hroom ((ht.full_iff i).1 hf)]
  · exact ⟨s, j, if_neg fun hf => hfull ((h.full_iff i).1 hf), h, hfull, rfl⟩

/-- A change to one element. -/
theorem Queues.change (h : s.Queues j q) {f : Fifo} {l : List (Option FedChain × Nat)}
    (harray : Ring.Holds j f.array f.ri f.wi (l.map Prod.fst))
    (herrors : Ring.Holds j f.errors f.ri f.wi (l.map Prod.snd)) (hsize : t.fifoSize = s.fifoSize)
    (hcollect : t.collect = Function.update s.collect i f) (hfed : t.fed i = t.got i ++ l)
    (hother : ∀ k, k ≠ i → t.fed k = s.fed k ∧ t.got k = s.got k) :
    t.Queues j (Function.update q i l) := by
  refine ⟨hsize.trans h.size, h.le, fun k => ?_, fun k => ?_, fun k => ?_⟩ <;>
    rcases eq_or_ne k i with rfl | hk
  · simpa [hcollect] using harray
  · simpa [hcollect, hk] using h.array k
  · simpa [hcollect] using herrors
  · simpa [hcollect, hk] using h.errors k
  · simpa using hfed
  · rw [(hother k hk).1, (hother k hk).2, Function.update_of_ne hk, h.fed k]

/-- An entry more. -/
theorem Queues.put (h : s.Queues j q) (hroom : (q i).length ≠ 2 ^ j) (chain : Option FedChain)
    (error : Nat) : ∃ t, s.put i chain error = some t ∧
      t.Queues j (Function.update q i (q i ++ [(chain, error)])) ∧ t.active = s.active := by
  have hslot := (h.array i).slot_lt (s.collect i).wi
  have hslot' := (h.errors i).slot_lt (s.collect i).wi
  have harray := (h.array i).push (by simpa using hroom) chain
  have herrors := (h.errors i).push (by simpa using hroom) error
  rw [← h.toNat_size] at hslot hslot' harray herrors
  refine ⟨_, if_pos ⟨hslot', hslot⟩, h.change (by simpa using harray)
    (by simpa using herrors) rfl rfl ?_ fun k hk => ⟨Function.update_of_ne hk _ _, rfl⟩, rfl⟩
  simp [XopHead.setFifo, h.fed i]

/-- A read takes the first entry, if there is one. -/
theorem Queues.read (h : s.Queues j q) (i : Fin n) :
    ∃ t, s.read i = some t ∧ t.Queues j (Function.update q i (q i).tail) ∧ t.active = s.active := by
  cases hq : q i with
  | nil =>
    refine ⟨s, if_neg (not_not.2 ((h.array i).empty_iff.2 (by rw [hq]; rfl))), ?_, rfl⟩
    rwa [List.tail_nil, ← hq, Function.update_eq_self]
  | cons e l =>
    have harray := h.array i
    have herrors := h.errors i
    have hne : (s.collect i).ri ≠ (s.collect i).wi := fun heq => by
      have := harray.empty_iff.1 heq
      simp [hq] at this
    rw [hq] at harray herrors
    obtain ⟨ha, harray⟩ := harray.pop
    obtain ⟨he, herrors⟩ := herrors.pop
    rw [← h.toNat_size] at ha he
    refine ⟨{ s.setFifo i { s.collect i with ri := (s.collect i).ri + 1 } with
      got := Function.update s.got i (s.got i ++ [e]) }, ?_, h.change harray herrors rfl rfl ?_
        fun k hk => ⟨rfl, Function.update_of_ne hk _ _⟩, rfl⟩
    · rw [XopHead.read, if_pos hne, ha, Option.bind_some, he]
      rfl
    · simp [XopHead.setFifo, h.fed i, hq]

/-! ## Runs -/

/-- A feed is made for a FIFO of fewer than `2 ^ 30` entries. -/
theorem Queues.feed (h : s.Queues j q) (hact : s.active = true) (hlen : (q i).length < 2 ^ 30)
    (chain : Option FedChain) (error : Nat) : ∃ t j', s.feed i chain error = some t ∧
      t.Queues j' (Function.update q i (q i ++ [(chain, (Hammer2.feed chain error).error)])) ∧
      t.active = s.active := by
  obtain ⟨t, j', hroom, ht, hne, hta⟩ := h.makeRoom hlen
  obtain ⟨u, hput, hu, hua⟩ := ht.put hne chain (Hammer2.feed chain error).error
  refine ⟨u, j', ?_, hu, hua.trans hta⟩
  rw [XopHead.feed, if_pos hact, hroom, Option.bind_some, hput]

/-- A feed beyond that overflows the size. -/
theorem Queues.feed_eq_none (h : s.Queues j q) (hact : s.active = true)
    (hlen : 2 ^ 30 ≤ (q i).length)
    (chain : Option FedChain) (error : Nat) : s.feed i chain error = none := by
  have hle := (h.array i).le
  rw [List.length_map] at hle
  obtain rfl : j = 30 :=
    le_antisymm h.le ((Nat.pow_le_pow_iff_right (by decide)).1 (hlen.trans hle))
  have hfull : (q i).length = 2 ^ 30 := le_antisymm hle hlen
  rw [XopHead.feed, if_pos hact, XopHead.makeRoom, if_pos ((h.full_iff i).2 hfull), h.grow_eq_none]
  rfl

/-- The queue of an element is what its next reads will find. -/
theorem Queues.queued_eq (h : s.Queues j q) (i : Fin n) : s.queued i = q i := by
  have hcount := (h.array i).count
  have hj : j ≤ 32 := by
    have := h.le
    omega
  rw [List.length_map] at hcount
  simp only [XopHead.queued, hcount]
  refine List.ext_getElem? fun k => ?_
  rcases Nat.lt_or_ge k (q i).length with hk | hk
  · have harray := (h.array i).get k (by simpa using hk)
    have herrors := (h.errors i).get k (by simpa using hk)
    rw [List.getElem?_map, List.getElem?_range hk, Option.map_some,
      h.toNat_size, Ring.slot_add _ _ hj,
      List.getD_eq_getElem?_getD, List.getD_eq_getElem?_getD, harray, herrors]
    simp [List.getElem?_eq_getElem hk]
  · rw [List.getElem?_eq_none (by simpa using hk), List.getElem?_eq_none hk]

/-- The queues start empty. -/
theorem Init.queues (h : s.Init) : s.Queues 4 fun _ => [] := by
  refine ⟨h.size, by decide, fun i => ?_, fun i => ?_, fun i => by rw [h.fed i, h.got i]; rfl⟩
  · rw [h.empty i]
    exact .nil (by decide) (h.array i) _
  · rw [h.empty i]
    exact .nil (by decide) (h.errors i) _

/-- Every feed of the run, as long as the frontend is there, is made to a FIFO of fewer than
`2 ^ 30` entries: `len` has their numbers. -/
def Within (active : Bool) (len : Fin n → Nat) : List (FifoAct n) → Prop
  | [] => True
  | .feed i _ _ :: as =>
    if active then len i < 2 ^ 30 ∧ Within active (Function.update len i (len i + 1)) as
    else Within active len as
  | .read i :: as => Within active (Function.update len i (len i - 1)) as
  | .retire :: as => Within false len as

/-- The steps of a run, or `none` at an access outside of the arrays. -/
def run (s : XopHead n) (as : List (FifoAct n)) : Option (XopHead n) :=
  Transition.exec XopHead.next (fun _ _ => True) s as

theorem run_cons (s : XopHead n) (a : FifoAct n) (as : List (FifoAct n)) :
    s.run (a :: as) = (s.next a).bind fun t => t.run as := by
  rw [run, Transition.exec, if_pos trivial]
  rfl

/-- One step of a run: it is made exactly if the run so far is within the bound, and leads to queues
again. -/
theorem Queues.next (h : s.Queues j q) (a : FifoAct n) (as : List (FifoAct n)) :
    (∃ t j' q', s.next a = some t ∧ t.Queues j' q' ∧
        (Within s.active (fun i => (q i).length) (a :: as) ↔
          Within t.active (fun i => (q' i).length) as)) ∨
      s.next a = none ∧ ¬ Within s.active (fun i => (q i).length) (a :: as) := by
  have hupdate : ∀ (i : Fin n) (l : List (Option FedChain × Nat)),
      (fun k => (Function.update q i l k).length) =
        Function.update (fun k => (q k).length) i l.length := by
    intro i l
    funext k
    rcases eq_or_ne k i with rfl | hk
    · simp
    · simp [hk]
  cases a with
  | feed i chain error =>
    cases hact : s.active with
    | false =>
      exact Or.inl ⟨s, j, q, by simp [XopHead.next, XopHead.feed, hact], h, by simp [Within, hact]⟩
    | true =>
      rcases Nat.lt_or_ge (q i).length (2 ^ 30) with hlen | hlen
      · obtain ⟨t, j', heq, ht, hta⟩ := h.feed hact hlen chain error
        refine Or.inl ⟨t, j', _, heq, ht, ?_⟩
        rw [hta, hact, hupdate, Within, if_pos rfl, List.length_append, List.length_singleton]
        exact and_iff_right hlen
      · refine Or.inr ⟨h.feed_eq_none hact hlen chain error, ?_⟩
        rw [Within, if_pos rfl]
        exact fun hw => absurd hw.1 (by omega)
  | read i =>
    obtain ⟨t, heq, ht, hta⟩ := h.read i
    refine Or.inl ⟨t, j, _, heq, ht, ?_⟩
    rw [hta, hupdate, Within, List.length_tail]
  | retire =>
    exact Or.inl ⟨{ s with active := false }, j, q, rfl,
      ⟨h.size, h.le, h.array, h.errors, h.fed⟩, .rfl⟩

/-- **Within the bound a run does not fail, and its queues are right.** -/
theorem Queues.run (h : s.Queues j q) {as : List (FifoAct n)}
    (hw : Within s.active (fun i => (q i).length) as) :
    ∃ t j' q', s.run as = some t ∧ t.Queues j' q' := by
  induction as generalizing s j q with
  | nil => exact ⟨s, j, q, rfl, h⟩
  | cons a as ih =>
    rcases h.next a as with ⟨t, j', q', heq, ht, hiff⟩ | ⟨-, hnot⟩
    · obtain ⟨u, j'', q'', hrun, hu⟩ := ih ht (hiff.1 hw)
      exact ⟨u, j'', q'', by rw [run_cons, heq, Option.bind_some, hrun], hu⟩
    · exact absurd hw hnot

/-- Past the bound it fails. -/
theorem Queues.run_eq_none (h : s.Queues j q) {as : List (FifoAct n)}
    (hw : ¬ Within s.active (fun i => (q i).length) as) : s.run as = none := by
  induction as generalizing s j q with
  | nil => exact absurd trivial hw
  | cons a as ih =>
    rcases h.next a as with ⟨t, j', q', heq, ht, hiff⟩ | ⟨heq, -⟩
    · rw [run_cons, heq, Option.bind_some]
      exact ih ht fun hw' => hw (hiff.2 hw')
    · rw [run_cons, heq]
      rfl

/-- **The FIFOs are queues**: a run makes no access outside of the arrays, and each element's reads
return what was fed to it in order, with the rest still to be read, exactly if no feed is made to a
FIFO of `2 ^ 30` entries. -/
theorem fifo_queue (hs : s.Init) (as : List (FifoAct n)) :
    (∃ t, s.run as = some t ∧ ∀ i, t.fed i = t.got i ++ t.queued i) ↔
    Within true (fun _ => 0) as := by
  have hq := hs.queues
  constructor
  · rintro ⟨t, hrun, -⟩
    by_contra hw
    rw [hq.run_eq_none (by rw [hs.active]; exact hw)] at hrun
    cases hrun
  · intro hw
    have hw' : Within s.active (fun _ => 0) as := by rwa [hs.active]
    obtain ⟨t, j, q, hrun, ht⟩ := hq.run hw'
    exact ⟨t, hrun, fun i => by rw [ht.queued_eq i, ht.fed i]⟩

/-- Two elements at the ends of their counters. -/
def fresh : XopHead 2 where
  active := true
  fifoSize := 16
  collect := fun i =>
    ⟨List.replicate 16 none, List.replicate 16 0, -BitVec.ofNat 32 i, -BitVec.ofNat 32 i⟩
  fed := fun _ => []
  got := fun _ => []

theorem fresh_init : fresh.Init :=
  ⟨rfl, rfl, fun _ => rfl, fun _ => rfl, fun _ => rfl, fun _ => rfl, fun _ => rfl⟩

end XopHead

/-- Entries past the first size, with a read between them. -/
theorem fifo_queue_grown : ∃ t, XopHead.fresh.run
      (.feed 1 none 5 :: .read 1 :: List.replicate 20 (.feed 1 none 6)) = some t ∧
    ∀ i, t.fed i = t.got i ++ t.queued i := by
  refine (XopHead.fifo_queue XopHead.fresh_init _).2 ?_
  simp [XopHead.Within, List.replicate]

namespace XopHead

/-- How often one element may feed. -/
theorem within_replicate {n : Nat} (i : Fin n) (len : Fin n → Nat) (m : Nat) :
    Within true len (List.replicate m (.feed i none 0)) ↔ len i + m ≤ 2 ^ 30 ∨ m = 0 := by
  induction m generalizing len with
  | zero => simp [Within]
  | succ m ih =>
    rw [List.replicate_succ, Within, if_pos rfl, ih, Function.update_self]
    omega

end XopHead

/-- An element that feeds once more than `2 ^ 30` times before the frontend reads overflows the
size. -/
theorem fifo_overflow :
    XopHead.fresh.run (List.replicate (2 ^ 30 + 1) (.feed 0 none 0)) = none := by
  refine XopHead.fresh_init.queues.run_eq_none fun hw => ?_
  have := (XopHead.within_replicate 0 (fun _ => 0) (2 ^ 30 + 1)).1 hw
  omega

end Hammer2
