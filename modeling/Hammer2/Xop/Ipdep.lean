import Hammer2.Lib.Run

/-!
# Inodes held by cluster operations

A cluster operation (XOP) that is not a strategy call takes the dependency on each of its inodes
when it starts and gives them back when it is retired. The dependency on an inode is its entry in
the list of its hash index: `hammer2_xop_testset_ipdep` sleeps while the entry is there and then
makes it, `hammer2_xop_unset_ipdep` takes it out. Each call is one step under the lock of the index,
and the calls of different operations interleave.

`hammer2_xop_start_except` skips `ip3` when it is `ip1`, and `ip4` when it is `ip2`.
`hammer2_xop_retire` compares the same fields, but it has cleared `ip1` and `ip2` by then, so it
gives back an inode a second time, which by then another operation may hold (`ipdep_shared`).
Operations whose inodes do not repeat in this way exclude each other (`ipdep_exclusive`).

Reference: `hammer2_admin.c:244-342`, `hammer2_admin.c:392-487`, `hammer2_admin.c:589-613`.
-/

namespace Hammer2

variable {κ ι τ : Type*} [DecidableEq ι]

/-! ## Operations -/

/-- The fields of `hammer2_xop_head_t` that the dependencies are taken by. -/
structure XopIps (ι : Type*) where
  strategy : Bool
  ip1 : Option ι
  ip2 : Option ι
  ip3 : Option ι
  ip4 : Option ι

/-- The calls of `hammer2_xop_testset_ipdep` that `hammer2_xop_start_except` makes. -/
def XopIps.startCalls (x : XopIps ι) : List ι :=
  (if x.strategy then [] else x.ip1.toList) ++ x.ip2.toList ++
    (if x.ip3 = x.ip1 then [] else x.ip3.toList) ++ (if x.ip4 = x.ip2 then [] else x.ip4.toList)

/-- The calls of `hammer2_xop_unset_ipdep` that `hammer2_xop_retire` makes. Each field is cleared
before the next one is looked at. -/
def XopIps.retireCalls (x : XopIps ι) : List ι :=
  let x₁ := { x with ip1 := none }
  let x₂ := { x₁ with ip2 := none }
  let x₃ := { x₂ with ip3 := none }
  (if x.strategy then [] else x.ip1.toList) ++ x₁.ip2.toList ++
    (if x₂.ip3 = x₂.ip1 then [] else x₂.ip3.toList) ++
    (if x₃.ip4 = x₃.ip2 then [] else x₃.ip4.toList)

/-- No inode stands in both fields of a pair that the start compares. -/
def XopIps.Apart (x : XopIps ι) : Prop :=
  (∀ i ∈ x.ip3, x.ip1 ≠ some i) ∧ ∀ i ∈ x.ip4, x.ip2 ≠ some i

instance (x : XopIps ι) : Decidable x.Apart :=
  inferInstanceAs (Decidable ((∀ i ∈ x.ip3, x.ip1 ≠ some i) ∧ ∀ i ∈ x.ip4, x.ip2 ≠ some i))

/-- An operation from its start on: the calls it has still to make, and what its calls did. -/
structure XopRun (ι : Type*) where
  ips : XopIps ι
  pending : List ι
  retiring : Bool
  owed : List ι
  acquired : List ι
  released : List ι

/-- The inodes the operation has acquired and not released. -/
def XopRun.held (r : XopRun ι) : List ι := r.acquired.filter fun i => i ∉ r.released

/-- The operation is started and not retired. -/
def XopRun.Active (r : XopRun ι) : Prop := r.retiring = false ∨ r.owed ≠ []

/-! ## The system -/

/-- The lists of `pmp->ipdep_lists` and the operations. -/
structure IpdepSys (κ ι τ : Type*) where
  lists : κ → List ι
  xops : τ → Option (XopRun ι)

/-- No operation yet. -/
def IpdepSys.init : IpdepSys κ ι τ := ⟨fun _ => [], fun _ => none⟩

/-- The steps of an operation `t`. -/
inductive IpdepAct (ι τ : Type*)
  | start (t : τ) (x : XopIps ι)
  | testset (t : τ)
  | retire (t : τ)
  | unset (t : τ)

/-- The system with another state of operation `t`. -/
def IpdepSys.setXop [DecidableEq τ] (s : IpdepSys κ ι τ) (t : τ) (r : XopRun ι) : IpdepSys κ ι τ :=
  { s with xops := Function.update s.xops t (some r) }

/-- The system with another list for index `k`. -/
def IpdepSys.setList [DecidableEq κ] (s : IpdepSys κ ι τ) (k : κ) (is : List ι) : IpdepSys κ ι τ :=
  { s with lists := Function.update s.lists k is }

/-- One step; `none` when the operation cannot take it, as a call that would sleep. -/
def IpdepSys.next [DecidableEq κ] [DecidableEq τ] (idx : ι → κ) (s : IpdepSys κ ι τ) :
    IpdepAct ι τ → Option (IpdepSys κ ι τ)
  | .start t x =>
    match s.xops t with
    | none => some (s.setXop t ⟨x, x.startCalls, false, [], [], []⟩)
    | some _ => none
  | .testset t =>
    match s.xops t with
    | none => none
    | some r =>
      match r.pending with
      | [] => none
      | i :: is =>
        if i ∈ s.lists (idx i) then none
        else some ((s.setList (idx i) (i :: s.lists (idx i))).setXop t
          { r with pending := is, acquired := i :: r.acquired })
  | .retire t =>
    match s.xops t with
    | none => none
    | some r =>
      if r.pending = [] ∧ r.retiring = false then
        some (s.setXop t { r with retiring := true, owed := r.ips.retireCalls })
      else none
  | .unset t =>
    match s.xops t with
    | none => none
    | some r =>
      match r.owed with
      | [] => none
      | i :: is => some ((s.setList (idx i) ((s.lists (idx i)).erase i)).setXop t
          { r with owed := is, released := i :: r.released })

/-- The step relation. -/
def IpdepStep [DecidableEq κ] [DecidableEq τ] (idx : ι → κ) (s : IpdepSys κ ι τ)
    (a : IpdepAct ι τ) (s' : IpdepSys κ ι τ) : Prop :=
  s.next idx a = some s'

/-- The operation that starts does not repeat an inode. -/
def IpdepAct.Apart : IpdepAct ι τ → Prop
  | .start _ x => x.Apart
  | _ => True

/-- What the dependencies are for: two operations never hold one inode, an operation releases what
it acquired, once, and no entry stays behind. -/
structure IpdepSys.Exclusive (s : IpdepSys κ ι τ) : Prop where
  alone : ∀ t u r q i, s.xops t = some r → s.xops u = some q → i ∈ r.held → i ∈ q.held → t = u
  once : ∀ t r, s.xops t = some r → r.released.Nodup ∧ r.released ⊆ r.acquired ∧
    (r.Active ∨ r.acquired.Perm r.released)
  empty : (∀ t r, s.xops t = some r → ¬ r.Active) → ∀ k, s.lists k = []

/-! ## One step -/

section
variable {idx : ι → κ} {s s' : IpdepSys κ ι τ} {a : IpdepAct ι τ} {t u : τ} {r q : XopRun ι} {i : ι}

/-- Everything a step can do. -/
theorem IpdepStep.cases [DecidableEq κ] [DecidableEq τ] (h : IpdepStep idx s a s') :
    (∃ t x, a = .start t x ∧ s.xops t = none ∧
      s' = s.setXop t ⟨x, x.startCalls, false, [], [], []⟩) ∨
    (∃ t r i is, a = .testset t ∧ s.xops t = some r ∧ r.pending = i :: is ∧ i ∉ s.lists (idx i) ∧
      s' = (s.setList (idx i) (i :: s.lists (idx i))).setXop t
        { r with pending := is, acquired := i :: r.acquired }) ∨
    (∃ t r, a = .retire t ∧ s.xops t = some r ∧ r.pending = [] ∧ r.retiring = false ∧
      s' = s.setXop t { r with retiring := true, owed := r.ips.retireCalls }) ∨
    ∃ t r i is, a = .unset t ∧ s.xops t = some r ∧ r.owed = i :: is ∧
      s' = (s.setList (idx i) ((s.lists (idx i)).erase i)).setXop t
        { r with owed := is, released := i :: r.released } := by
  unfold IpdepStep at h
  cases a with
  | start t x =>
    simp only [IpdepSys.next] at h
    split at h
    · next hx => exact .inl ⟨t, x, rfl, hx, (Option.some.inj h).symm⟩
    · cases h
  | testset t =>
    simp only [IpdepSys.next] at h
    split at h
    · cases h
    · next r hx =>
      split at h
      · cases h
      · next i is hp =>
        split at h
        · cases h
        · next hi => exact .inr (.inl ⟨t, r, i, is, rfl, hx, hp, hi, (Option.some.inj h).symm⟩)
  | retire t =>
    simp only [IpdepSys.next] at h
    split at h
    · cases h
    · next r hx =>
      split at h
      · next hr => exact .inr (.inr (.inl ⟨t, r, rfl, hx, hr.1, hr.2, (Option.some.inj h).symm⟩))
      · cases h
  | unset t =>
    simp only [IpdepSys.next] at h
    split at h
    · cases h
    · next r hx =>
      split at h
      · cases h
      · next i is ho =>
          exact .inr (.inr (.inr ⟨t, r, i, is, rfl, hx, ho, (Option.some.inj h).symm⟩))

/-- An operation that does not repeat an inode makes the same calls at both ends. -/
theorem XopIps.Apart.retireCalls_eq {x : XopIps ι} (h : x.Apart) :
    x.retireCalls = x.startCalls := by
  obtain ⟨strategy, ip1, ip2, ip3, ip4⟩ := x
  obtain ⟨h3, h4⟩ := h
  have hip3 : (if ip3 = none then [] else ip3.toList) = if ip3 = ip1 then [] else ip3.toList := by
    cases ip3 with
    | none => simp
    | some i => rw [if_neg (Option.some_ne_none i), if_neg (h3 i rfl).symm]
  have hip4 : (if ip4 = none then [] else ip4.toList) = if ip4 = ip2 then [] else ip4.toList := by
    cases ip4 with
    | none => simp
    | some i => rw [if_neg (Option.some_ne_none i), if_neg (h4 i rfl).symm]
  simp only [XopIps.retireCalls, XopIps.startCalls, hip3, hip4]

/-! ## The invariant -/

/-- What the calls of one operation have done so far: it acquires in the order of `startCalls`, and
releases in the same order. -/
structure XopRun.InOrder (r : XopRun ι) : Prop where
  apart : r.ips.Apart
  nodup : r.acquired.Nodup
  acquires : r.acquired.reverse ++ r.pending = r.ips.startCalls
  releases : r.retiring = true → r.pending = [] ∧ r.released.reverse ++ r.owed = r.acquired.reverse
  waits : r.retiring = false → r.released = [] ∧ r.owed = []

/-- The entries of the lists are the inodes held, and each is held by one operation. -/
structure IpdepSys.Held (idx : ι → κ) (s : IpdepSys κ ι τ) : Prop where
  order : ∀ t r, s.xops t = some r → r.InOrder
  nodup : ∀ k, (s.lists k).Nodup
  mem : ∀ k i, i ∈ s.lists k ↔ idx i = k ∧ ∃ t r, s.xops t = some r ∧ i ∈ r.held
  alone : ∀ t u r q i, s.xops t = some r → s.xops u = some q → i ∈ r.held → i ∈ q.held → t = u

/-- What an operation holds. -/
theorem XopRun.mem_held : i ∈ r.held ↔ i ∈ r.acquired ∧ i ∉ r.released := by
  simp [XopRun.held]

/-- The invariant gives what the dependencies are for. -/
theorem IpdepSys.Held.exclusive (hs : s.Held idx) : s.Exclusive := by
  refine ⟨hs.alone, fun t r ht => ?_, fun hidle k => ?_⟩
  · have hr := hs.order t r ht
    by_cases hret : r.retiring = true
    · obtain ⟨-, hrel⟩ := hr.releases hret
      have hnd := List.nodup_reverse.2 hr.nodup
      rw [← hrel, List.nodup_append] at hnd
      refine ⟨List.nodup_reverse.1 hnd.1, fun i hi => ?_, ?_⟩
      · rw [← List.mem_reverse, ← hrel]
        simp [hi]
      · by_cases ho : r.owed = []
        · refine .inr ?_
          rw [ho, List.append_nil] at hrel
          exact .of_eq (List.reverse_inj.1 hrel).symm
        · exact .inl (.inr ho)
    · have hret : r.retiring = false := by simpa using hret
      obtain ⟨hrel, -⟩ := hr.waits hret
      exact ⟨by simp [hrel], by simp [hrel], .inl (.inl hret)⟩
  · refine List.eq_nil_iff_forall_not_mem.2 fun i hi => ?_
    obtain ⟨-, t, r, ht, hir⟩ := (hs.mem k i).1 hi
    have hr := hs.order t r ht
    have hidle := hidle t r ht
    rw [XopRun.Active, not_or, not_not] at hidle
    obtain ⟨-, hrel⟩ := hr.releases (by simpa using hidle.1)
    rw [hidle.2, List.append_nil] at hrel
    obtain ⟨hacq, hnot⟩ := XopRun.mem_held.1 hir
    rw [List.reverse_inj.1 hrel] at hnot
    exact hnot hacq

/-- At the start nothing is held. -/
theorem IpdepSys.held_init : (IpdepSys.init : IpdepSys κ ι τ).Held idx := by
  refine ⟨fun _ _ h => (nomatch h), fun _ => .nil, fun k i => ?_, fun _ _ _ _ _ h => (nomatch h)⟩
  simp [IpdepSys.init]

variable [DecidableEq τ]

omit [DecidableEq ι] in
theorem IpdepSys.setXop_cases (h : (s.setXop t r).xops u = some q) :
    u = t ∧ q = r ∨ u ≠ t ∧ s.xops u = some q := by
  by_cases hut : u = t
  · subst hut
    exact .inl ⟨rfl, by simpa [IpdepSys.setXop] using h.symm⟩
  · exact .inr ⟨hut, by simpa [IpdepSys.setXop, hut] using h⟩

/-- The inodes held after a change of one operation. -/
theorem IpdepSys.held_setXop :
    (∃ u p, (s.setXop t q).xops u = some p ∧ i ∈ p.held) ↔
      i ∈ q.held ∨ ∃ u p, u ≠ t ∧ s.xops u = some p ∧ i ∈ p.held := by
  constructor
  · rintro ⟨u, p, hu, hi⟩
    rcases IpdepSys.setXop_cases hu with ⟨-, rfl⟩ | ⟨hut, hu⟩
    · exact .inl hi
    · exact .inr ⟨u, p, hut, hu, hi⟩
  · rintro (hi | ⟨u, p, hut, hu, hi⟩)
    · exact ⟨t, q, by simp [IpdepSys.setXop], hi⟩
    · exact ⟨u, p, by simp [IpdepSys.setXop, hut, hu], hi⟩

/-- A change of one operation and of the lists keeps the invariant, if the lists follow what the
operation holds and nothing is taken that was in its list. -/
theorem IpdepSys.Held.change {lists : κ → List ι} {old : ι → Prop} (hs : s.Held idx)
    (hold : ∀ j, old j ↔ ∃ r, s.xops t = some r ∧ j ∈ r.held) (hq : q.InOrder)
    (hnodup : ∀ k, (lists k).Nodup)
    (hmem : ∀ k j, j ∈ lists k ↔ idx j = k ∧ j ∈ q.held ∨ j ∈ s.lists k ∧ ¬ old j)
    (hfree : ∀ j ∈ q.held, old j ∨ j ∉ s.lists (idx j)) :
    (IpdepSys.setXop ⟨lists, s.xops⟩ t q).Held idx := by
  have hother : ∀ u p j, u ≠ t → s.xops u = some p → j ∈ p.held → ¬ old j := by
    intro u p j hut hu hj hjo
    obtain ⟨r, ht, hjr⟩ := (hold j).1 hjo
    exact hut (hs.alone u t p r j hu ht hj hjr)
  have htake : ∀ u p j, u ≠ t → s.xops u = some p → j ∈ p.held → j ∉ q.held := by
    intro u p j hut hu hj hjq
    refine (hfree j hjq).elim (hother u p j hut hu hj) fun hjl => hjl ?_
    exact (hs.mem _ j).2 ⟨rfl, u, p, hu, hj⟩
  refine ⟨fun u p hu => ?_, hnodup, fun k j => ?_, fun u v p p' j hu hv hj hj' => ?_⟩
  · rcases IpdepSys.setXop_cases hu with ⟨-, rfl⟩ | ⟨-, hu⟩
    · exact hq
    · exact hs.order u p hu
  · rw [IpdepSys.held_setXop]
    refine (hmem k j).trans ⟨?_, ?_⟩
    · rintro (⟨hj, hjq⟩ | ⟨hj, hjo⟩)
      · exact ⟨hj, .inl hjq⟩
      · obtain ⟨hidx, u, p, hu, hjp⟩ := (hs.mem k j).1 hj
        refine ⟨hidx, .inr ⟨u, p, ?_, hu, hjp⟩⟩
        rintro rfl
        exact hjo ((hold j).2 ⟨p, hu, hjp⟩)
    · rintro ⟨hj, hjq | ⟨u, p, hut, hu, hjp⟩⟩
      · exact .inl ⟨hj, hjq⟩
      · exact .inr ⟨(hs.mem k j).2 ⟨hj, u, p, hu, hjp⟩, hother u p j hut hu hjp⟩
  · rcases IpdepSys.setXop_cases hu with ⟨hut, hp⟩ | ⟨hut, hu'⟩ <;>
      rcases IpdepSys.setXop_cases hv with ⟨hvt, hp'⟩ | ⟨hvt, hv'⟩
    · exact hut.trans hvt.symm
    · exact absurd (hp ▸ hj) (htake v p' j hvt hv' hj')
    · exact absurd (hp' ▸ hj') (htake u p j hut hu' hj)
    · exact hs.alone u v p p' j hu' hv' hj hj'

/-- A step that leaves what the operation holds as it was. -/
theorem IpdepSys.Held.setXop (hs : s.Held idx) (hq : q.InOrder)
    (hheld : ∀ j, j ∈ q.held ↔ ∃ r, s.xops t = some r ∧ j ∈ r.held) : (s.setXop t q).Held idx := by
  refine hs.change hheld hq hs.nodup (fun k j => ?_) fun j hj => .inl hj
  constructor
  · intro hj
    by_cases hjq : j ∈ q.held
    · exact .inl ⟨((hs.mem k j).1 hj).1, hjq⟩
    · exact .inr ⟨hj, hjq⟩
  · rintro (⟨hj, hjq⟩ | ⟨hj, -⟩)
    · obtain ⟨r, hr, hjr⟩ := (hheld j).1 hjq
      exact (hs.mem k j).2 ⟨hj, t, r, hr, hjr⟩
    · exact hj

/-- A started operation keeps the invariant. -/
theorem IpdepSys.Held.start (hs : s.Held idx) {x : XopIps ι} (hx : x.Apart)
    (ht : s.xops t = none) : (s.setXop t ⟨x, x.startCalls, false, [], [], []⟩).Held idx := by
  refine hs.setXop ⟨hx, .nil, rfl, nofun, fun _ => ⟨rfl, rfl⟩⟩ fun j => ?_
  simp [XopRun.held, ht]

variable [DecidableEq κ]

/-- `hammer2_xop_testset_ipdep` keeps the invariant. -/
theorem IpdepSys.Held.testset (hs : s.Held idx) {is : List ι} (ht : s.xops t = some r)
    (hp : r.pending = i :: is) (hi : i ∉ s.lists (idx i)) :
    ((s.setList (idx i) (i :: s.lists (idx i))).setXop t
      { r with pending := is, acquired := i :: r.acquired }).Held idx := by
  have hr := hs.order t r ht
  -- An operation that has a call to make has released nothing.
  have hstart : r.retiring = false := by
    by_contra h
    rw [(hr.releases (by simpa using h)).1] at hp
    cases hp
  obtain ⟨hrel, howed⟩ := hr.waits hstart
  have hnew : i ∉ r.acquired := fun h => hi ((hs.mem _ i).2
    ⟨rfl, t, r, ht, XopRun.mem_held.2 ⟨h, by simp [hrel]⟩⟩)
  have hheld : ∀ j, j ∈ r.held ↔ ∃ p, s.xops t = some p ∧ j ∈ p.held := by simp [ht]
  refine hs.change hheld ⟨hr.apart, List.nodup_cons.2 ⟨hnew, hr.nodup⟩, ?_, ?_, ?_⟩
    (fun k => ?_) (fun k j => ?_) fun j hj => ?_
  · simpa [hp] using hr.acquires
  · simp [hstart]
  · exact fun _ => ⟨hrel, howed⟩
  · by_cases hk : k = idx i
    · subst hk
      simpa using ⟨hi, hs.nodup (idx i)⟩
    · simpa [hk] using hs.nodup k
  · have hmem : j ∈ XopRun.held { r with pending := is, acquired := i :: r.acquired } ↔
        j = i ∨ j ∈ r.held := by simp [XopRun.held, hrel]
    rw [hmem]
    by_cases hk : k = idx i
    · subst hk
      have hback : j ∈ r.held → idx j = idx i → j ∈ s.lists (idx i) := fun hj hidx =>
        (hs.mem _ j).2 ⟨hidx, t, r, ht, hj⟩
      have hidx : j ∈ s.lists (idx i) → idx j = idx i := fun hj => ((hs.mem _ j).1 hj).1
      simp only [Function.update_self, List.mem_cons]
      grind
    · have hback : j ∈ r.held → idx j = k → j ∈ s.lists k := fun hj hidx =>
        (hs.mem _ j).2 ⟨hidx, t, r, ht, hj⟩
      have hidx : j ∈ s.lists k → idx j = k := fun hj => ((hs.mem _ j).1 hj).1
      simp only [Function.update_of_ne hk]
      grind
  · rcases (by simpa [XopRun.held, hrel] using hj : j = i ∨ j ∈ r.acquired) with rfl | hj
    · exact .inr hi
    · exact .inl (XopRun.mem_held.2 ⟨hj, by simp [hrel]⟩)

omit [DecidableEq κ] in
/-- `hammer2_xop_retire` keeps the invariant: it gives back what the start took. -/
theorem IpdepSys.Held.retire (hs : s.Held idx) (ht : s.xops t = some r) (hp : r.pending = [])
    (hr : r.retiring = false) :
    (s.setXop t { r with retiring := true, owed := r.ips.retireCalls }).Held idx := by
  have hord := hs.order t r ht
  obtain ⟨hrel, -⟩ := hord.waits hr
  have hacq : r.acquired.reverse = r.ips.startCalls := by simpa [hp] using hord.acquires
  refine hs.setXop ⟨hord.apart, hord.nodup, hord.acquires, fun _ => ⟨hp, ?_⟩, nofun⟩ fun j => ?_
  · simp [hrel, hacq, hord.apart.retireCalls_eq]
  · simp [XopRun.held, ht]

/-- `hammer2_xop_unset_ipdep` keeps the invariant. -/
theorem IpdepSys.Held.unset (hs : s.Held idx) {is : List ι} (ht : s.xops t = some r)
    (ho : r.owed = i :: is) :
    ((s.setList (idx i) ((s.lists (idx i)).erase i)).setXop t
      { r with owed := is, released := i :: r.released }).Held idx := by
  have hr := hs.order t r ht
  have hret : r.retiring = true := by
    by_contra h
    rw [(hr.waits (by simpa using h)).2] at ho
    cases ho
  obtain ⟨hpend, hrel⟩ := hr.releases hret
  -- What is owed is held, since no inode was acquired twice.
  have hfresh : i ∈ r.acquired ∧ i ∉ r.released := by
    have hnd := List.nodup_reverse.2 hr.nodup
    rw [← hrel, ho, List.nodup_append] at hnd
    have hmem : i ∈ r.acquired.reverse := by rw [← hrel, ho]; simp
    exact ⟨List.mem_reverse.1 hmem, fun h =>
      hnd.2.2 i (List.mem_reverse.2 h) i List.mem_cons_self rfl⟩
  have hheld : ∀ j, j ∈ r.held ↔ ∃ p, s.xops t = some p ∧ j ∈ p.held := by simp [ht]
  have hmem : ∀ j, j ∈ XopRun.held { r with owed := is, released := i :: r.released } ↔
      j ∈ r.held ∧ j ≠ i := by
    intro j
    simp only [XopRun.mem_held, List.mem_cons]
    grind
  have hback : ∀ j, j ∈ r.held → j ∈ s.lists (idx j) := fun j hj =>
    (hs.mem _ j).2 ⟨rfl, t, r, ht, hj⟩
  have hidx : ∀ k j, j ∈ s.lists k → idx j = k := fun k j hj => ((hs.mem _ j).1 hj).1
  have hi : i ∈ r.held := XopRun.mem_held.2 hfresh
  refine hs.change hheld ⟨hr.apart, hr.nodup, hr.acquires, fun _ => ⟨hpend, ?_⟩, ?_⟩
    (fun k => ?_) (fun k j => ?_) fun j hj => .inl ((hmem j).1 hj).1
  · simpa [ho] using hrel
  · simp [hret]
  · by_cases hk : k = idx i
    · subst hk
      simpa using (hs.nodup (idx i)).erase i
    · simpa [hk] using hs.nodup k
  · rw [hmem]
    by_cases hk : k = idx i
    · subst hk
      simp only [Function.update_self, (hs.nodup (idx i)).mem_erase_iff]
      grind
    · simp only [Function.update_of_ne hk]
      grind

/-- Every step of operations that do not repeat an inode keeps the invariant. -/
theorem IpdepSys.Held.step (hs : s.Held idx) (ha : a.Apart) (h : IpdepStep idx s a s') :
    s'.Held idx := by
  rcases h.cases with ⟨t, x, rfl, ht, rfl⟩ | ⟨t, r, i, is, rfl, ht, hp, hi, rfl⟩ |
    ⟨t, r, rfl, ht, hp, hr, rfl⟩ | ⟨t, r, i, is, rfl, ht, ho, rfl⟩
  · exact hs.start ha ht
  · exact hs.testset ht hp hi
  · exact hs.retire ht hp hr
  · exact hs.unset ht ho

end

/-! ## Runs -/

/-- **Operations exclude each other on their inodes**, in every run in which no operation has one
inode in both fields of a pair that its start compares. -/
theorem ipdep_exclusive [DecidableEq κ] [DecidableEq τ] (idx : ι → κ) {as : List (IpdepAct ι τ)}
    {s : IpdepSys κ ι τ}
    (h : Transition.RunMeets (IpdepStep idx) (fun _ a => a.Apart) .init as s) : s.Exclusive :=
  (h.invariant (fun hs ha hst => hs.step ha hst) IpdepSys.held_init).exclusive

/-- A rename between two directories, and an operation on the first of them that gets in before the
rename has given back the others. -/
def renameTrace : List (IpdepAct Nat Nat) :=
  [.start 0 ⟨false, some 1, some 9, some 2, none⟩, .testset 0, .testset 0, .testset 0, .retire 0,
    .unset 0, .start 1 ⟨false, some 1, none, none, none⟩, .testset 1, .unset 0, .unset 0]

/-- A rename and the operations beside it. -/
theorem ipdep_exclusive_rename : ∃ s : IpdepSys Nat Nat Nat,
    Transition.RunMeets (IpdepStep (· % 8)) (fun _ a => a.Apart) .init renameTrace s ∧
      s.Exclusive := by
  have hrun : ∃ s : IpdepSys Nat Nat Nat,
      Transition.RunMeets (IpdepStep (· % 8)) (fun _ a => a.Apart) .init renameTrace s :=
    ⟨_, .cons (by decide : XopIps.Apart _) rfl (.cons trivial rfl (.cons trivial rfl
      (.cons trivial rfl (.cons trivial rfl (.cons trivial rfl
        (.cons (by decide : XopIps.Apart _) rfl (.cons trivial rfl (.cons trivial rfl
          (.cons trivial rfl (.nil _))))))))))⟩
  obtain ⟨s, hs⟩ := hrun
  exact ⟨s, hs, ipdep_exclusive (· % 8) hs⟩

/-- A rename within one directory gives the directory back twice. Between the two another operation
takes it, and the second time a third operation gets in beside that one. -/
theorem ipdep_shared : ∃ s : IpdepSys Nat Nat Nat,
    Transition.Run (IpdepStep (· % 8)) .init
      [.start 0 ⟨false, some 1, some 2, some 1, none⟩, .testset 0, .testset 0, .retire 0, .unset 0,
        .start 1 ⟨false, some 1, none, none, none⟩, .testset 1, .unset 0, .unset 0,
        .start 2 ⟨false, some 1, none, none, none⟩, .testset 2] s ∧ ¬ s.Exclusive := by
  refine ⟨_, .cons trivial rfl (.cons trivial rfl (.cons trivial rfl (.cons trivial rfl
    (.cons trivial rfl (.cons trivial rfl (.cons trivial rfl (.cons trivial rfl (.cons trivial rfl
      (.cons trivial rfl (.cons trivial rfl (.nil _))))))))))), fun h => ?_⟩
  exact absurd (h.alone 1 2 _ _ 1 rfl rfl (by decide) (by decide)) (by decide)

end Hammer2
