import Hammer2.Sync.Queues

/-!
# Inodes joined are flushed together

Inodes that an operation joins are flushed in one run of `hammer2_vfs_sync_pmp`: as long as neither
of them is flushed they are in one group, and once one is, the other is before the syncer in the
same run (`Paired`). What the syncer has taken but not flushed, or what was joined to such an inode,
cannot be left behind, because `pass2` forces a further pass (`Staged`).

Behind the last pass the root inode of the PFS is flushed once more, whatever its queue says. If an
operation has joined it to another inode since it was on `syncq`, the run ends with the root flushed
and the other inode not (`root_flushed_alone`).

Reference: `hammer2_inode.c:75-195`, `hammer2_inode.c:286-401`, `hammer2_vfsops.c:3054-3375`.
-/

namespace Hammer2

open SyncQueues

section
variable {s t : SyncQueues} {ip : Ip} {arg : DependArg}

/-! ## What an association does -/

/-- What `hammer2_inode_setdepend_locked` makes of the inode, the dependency passed in and the
marks. -/
structure Attached (s : SyncQueues) (ip : Ip) (arg : DependArg) (t : SyncQueues) (d : Ip) :
    Prop where
  sideq : (t.inode ip).sideq = true
  depend : (t.inode ip).depend = some d
  other_sideq : ∀ i, i ≠ ip → (t.inode i).sideq = (s.inode i).sideq
  other_pass2 : ∀ e, e ≠ d → (t.dep e).pass2 = true → (s.dep e).pass2 = true
  minusOne : arg = .minusOne → (t.dep d).pass2 = true
  on : ∀ c, arg = .on c → d = c ∧ ((s.dep c).pass2 = true → (t.dep c).pass2 = true) ∧
    ∀ i, (s.inode i).sideq = true → (s.inode i).depend = some c →
      (t.inode i).depend = some c
  fresh : arg ≠ .minusOne → (∀ e, (s.dep e).pass2 = false) → (t.dep d).pass2 = false

/-- What finding or making a group does to an inode. -/
theorem Queued.attached (h : Queued s) (harg : arg.Valid s) (ip : Ip) :
    Attached s ip arg (s.associate ip arg).1 (s.associate ip arg).2 := by
  unfold SyncQueues.associate
  split
  · next hside =>
    obtain ⟨hd, hdep, hmem⟩ := h.depend_eq hside
    cases arg with
    | null =>
      exact ⟨hside, hdep, fun _ _ => rfl, fun _ _ => id, (by rintro ⟨⟩),
        (by rintro _ ⟨⟩), fun _ hf => hf _⟩
    | minusOne =>
      refine ⟨hside, hdep, fun _ _ => rfl, fun e he => ?_, ?_,
        (by rintro _ ⟨⟩), fun hne => absurd rfl hne⟩
      · simp [SyncQueues.setPass2, he]
      · simp [SyncQueues.setPass2]
    | on d =>
      dsimp only
      split
      · next hde =>
        subst hde
        refine ⟨hside, hdep, fun _ _ => rfl, fun _ _ => id, (by rintro ⟨⟩), ?_, fun _ hf => hf _⟩
        rintro c ⟨⟩
        exact ⟨rfl, id, fun _ _ => id⟩
      · next hne =>
        have hin : ((s.merge d (s.dependOf ip)).inode ip) =
            { s.inode ip with depend := some d } := if_pos hmem
        refine ⟨by rw [hin]; exact hside, by rw [hin], ?_, ?_, (by rintro ⟨⟩), ?_, ?_⟩
        · intro i _
          by_cases hi : i ∈ (s.dep (s.dependOf ip)).sideq <;> simp [SyncQueues.merge, hi]
        · intro e he hp
          by_cases hed : e = s.dependOf ip
          · simp [SyncQueues.merge, hed, Depend.unused] at hp
          · simpa [SyncQueues.merge, hed, he] using hp
        · rintro c ⟨⟩
          refine ⟨rfl, fun hp => by simp [SyncQueues.merge, hne, hp], fun i _ hi => ?_⟩
          by_cases him : i ∈ (s.dep (s.dependOf ip)).sideq <;> simp [SyncQueues.merge, him, hi]
        · intro _ hf
          simp [SyncQueues.merge, hne, hf]
  · next hside =>
    have hside := Bool.eq_false_iff.2 hside
    have hfree : s.dep ip = .unused := by
      refine h.unused ip fun hip => ?_
      simp [((h.mem ip ip).1 (h.owner ip hip)).1] at hside
    cases arg with
    | null =>
      refine ⟨by simp [SyncQueues.enter], by simp [SyncQueues.enter], ?_, ?_, (by rintro ⟨⟩),
        (by rintro _ ⟨⟩), ?_⟩
      · exact fun i hi => by simp [SyncQueues.enter, SyncQueues.newDepend, hi]
      · exact fun e he => by simp [SyncQueues.enter, SyncQueues.newDepend, he]
      · exact fun _ _ => by simp [SyncQueues.enter, SyncQueues.newDepend, hfree, Depend.unused]
    | minusOne =>
      refine ⟨by simp [SyncQueues.enter], by simp [SyncQueues.enter], ?_, ?_, ?_, (by rintro _ ⟨⟩),
        fun hne => absurd rfl hne⟩
      · exact fun i hi => by simp [SyncQueues.enter, SyncQueues.newDepend, hi]
      · exact fun e he => by simp [SyncQueues.enter, SyncQueues.newDepend, he]
      · exact fun _ => by simp [SyncQueues.enter, SyncQueues.newDepend]
    | on d =>
      refine ⟨by simp [SyncQueues.enter], by simp [SyncQueues.enter],
        ?_, ?_, (by rintro ⟨⟩), ?_, ?_⟩
      · exact fun i hi => by simp [SyncQueues.enter, hi]
      · exact fun e he => by simp [SyncQueues.enter, he]
      · rintro c ⟨⟩
        refine ⟨rfl, fun hp => by simpa [SyncQueues.enter] using hp, fun i hi hc => ?_⟩
        have hne : i ≠ ip := by
          rintro rfl
          simp [hi] at hside
        simpa [SyncQueues.enter, hne] using hc
      · exact fun _ hf => by simpa [SyncQueues.enter] using hf d

theorem SyncQueues.propagate_inode (s : SyncQueues) (ip d : Ip) :
    (s.propagate ip d).inode = s.inode := by
  unfold propagate
  split <;> rfl

/-- The mark goes from the inode to its group. -/
theorem SyncQueues.propagate_pass2 (s : SyncQueues) (ip d e : Ip) :
    ((s.propagate ip d).dep e).pass2 =
      ((s.dep e).pass2 || decide (e = d) && (s.inode ip).syncqPass2) := by
  unfold propagate
  split
  · next hp =>
    by_cases he : e = d
    · simp [setPass2, he, hp]
    · simp [setPass2, he]
  · next hp => simp [hp]

/-- A group with the mark asks for another scan. -/
theorem SyncQueues.propagate_rescan (s : SyncQueues) (ip d : Ip) :
    (s.propagate ip d).rescan = (s.rescan || ((s.propagate ip d).dep d).pass2) := by
  unfold propagate
  split <;> rfl

/-- An inode that the syncer has had in hand is in a marked group if it is on a side queue. -/
def Passing (s : SyncQueues) : Prop :=
  ∀ i, (s.inode i).syncqPass2 = true → (s.inode i).sideq = true → s.Marked i

/-- A dependency keeps the marks passed on. -/
theorem Passing.setdependLocked (hs : Passing s) (h : Queued s) (harg : arg.Valid s) (ip : Ip) :
    Passing (s.setdependLocked ip arg).1 := by
  have hg := QueuesGrow.setdependLocked h harg ip
  intro i hp hside
  rw [hg.syncqPass2] at hp
  by_cases hold : (s.inode i).sideq = true
  · exact hg.marked i (hs i hp hold)
  · refine ⟨hside, ?_⟩
    unfold SyncQueues.setdependLocked at hside ⊢
    split at hside
    · -- An inode on `syncq` leaves the side queues alone.
      cases arg <;> exact absurd hside hold
    · next hsync =>
      have hat := h.attached harg ip
      rw [if_neg hsync]
      dsimp only at hside ⊢
      rw [propagate_inode] at hside ⊢
      obtain rfl : i = ip := by
        by_contra hne
        exact hold (hat.other_sideq i hne ▸ hside)
      refine ⟨_, hat.depend, ?_⟩
      rw [propagate_pass2, (QueuesGrow.associate h i arg).syncqPass2, hp]
      simp

/-- A new mark asks for a further pass. -/
theorem Queued.pass2_rescan (h : Queued s) (harg : arg.Valid s) (ip : Ip) {e : Ip}
    (hp : ((s.setdependLocked ip arg).1.dep e).pass2 = true) :
    (s.setdependLocked ip arg).1.rescan = true ∨ (s.dep e).pass2 = true := by
  unfold SyncQueues.setdependLocked at hp ⊢
  split
  · next hsync =>
    rw [if_pos hsync] at hp
    cases arg with
    | null => exact .inr hp
    | minusOne => exact .inr hp
    | on d => exact .inl rfl
  · next hsync =>
    rw [if_neg hsync] at hp
    dsimp only at hp ⊢
    have hat := h.attached harg ip
    rw [propagate_rescan]
    by_cases he : e = (s.associate ip arg).2
    · rw [he] at hp
      rw [hp, Bool.or_true]
      exact .inl rfl
    · rw [propagate_pass2] at hp
      simp only [he, decide_false, Bool.false_and, Bool.or_false] at hp
      exact .inr (hat.other_pass2 e he hp)

/-- While the syncer has nothing and nothing is marked, nothing is marked. -/
theorem Queued.pass2_fresh (h : Queued s) (harg : arg.Valid s) (ip : Ip)
    (hsync : ∀ i, (s.inode i).syncq = false) (hpass : ∀ i, (s.inode i).syncqPass2 = false)
    (hdep : ∀ e, (s.dep e).pass2 = false) (e : Ip) :
    ((s.setdependLocked ip arg).1.dep e).pass2 = false := by
  have hne : arg ≠ .minusOne := by
    rintro rfl
    obtain ⟨i, hi⟩ := harg
    simp [hsync i] at hi
  have hat := h.attached harg ip
  unfold SyncQueues.setdependLocked
  rw [if_neg (by simp [hsync ip])]
  dsimp only
  rw [propagate_pass2, (QueuesGrow.associate h ip arg).syncqPass2, hpass ip,
    Bool.and_false, Bool.or_false]
  by_cases he : e = (s.associate ip arg).2
  · rw [he]
    exact hat.fresh hne hdep
  · refine Bool.eq_false_iff.2 fun hp => ?_
    exact absurd (hat.other_pass2 e he hp) (by simp [hdep e])

/-- The inode is before the syncer, or in the group passed on. -/
def DependArg.Links (s : SyncQueues) : DependArg → Ip → Prop
  | .null, _ => False
  | .minusOne, i => (s.inode i).syncq = true
  | .on d, i => (s.inode i).syncq = true ∧ (s.dep d).pass2 = true ∨
      (s.inode i).sideq = true ∧ (s.inode i).depend = some d

variable {i j : Ip} {p : SyncPhase} {rest ips : List Ip} {a : SyncQAct} {e : Option SyncEvent}

/-- A dependency links the inode and those before. -/
theorem DependArg.Links.setdependLocked (h : Queued s) (harg : arg.Valid s) (ip : Ip)
    (hi : arg.Links s i ∨ i = ip) :
    (s.setdependLocked ip arg).2.Links (s.setdependLocked ip arg).1 i := by
  unfold SyncQueues.setdependLocked
  split
  · next hsync =>
    cases arg with
    | null =>
      rcases hi with hi | rfl
      · exact hi.elim
      · exact hsync
    | minusOne =>
      rcases hi with hi | rfl
      · exact hi
      · exact hsync
    | on d =>
      have hd : ((s.setPass2 d).dep d).pass2 = true := by simp [setPass2]
      rcases hi with (hi | hi) | rfl
      · exact .inl ⟨hi.1, hd⟩
      · exact .inr hi
      · exact .inl ⟨hsync, hd⟩
  · have hat := h.attached harg ip
    have hg := QueuesGrow.associate h ip arg
    dsimp only
    generalize (s.associate ip arg).1 = t at hat hg
    generalize (s.associate ip arg).2 = d at hat
    rw [DependArg.Links, propagate_inode, propagate_pass2]
    rcases hi with hi | rfl
    · cases arg with
      | null => exact hi.elim
      | minusOne =>
        have hsync : (t.inode i).syncq = true := (hg.syncq i).trans hi
        exact .inl ⟨hsync, by simp [hat.minusOne rfl]⟩
      | on c =>
        obtain ⟨rfl, hpass, hdepend⟩ := hat.on c rfl
        rcases hi with ⟨hi, hp⟩ | ⟨hi, hc⟩
        · exact .inl ⟨(hg.syncq i).trans hi, by simp [hpass hp]⟩
        · exact .inr ⟨hg.sideq i hi, hdepend i hi hc⟩
    · exact .inr ⟨hat.sideq, hat.depend⟩

/-! ## Steps of the front end -/

/-- What the front end does to the queues and the marks. -/
structure Fronted (s t : SyncQueues) : Prop extends QueuesGrow s t where
  queued : Queued t
  passing : Passing s → Passing t
  asks : ∀ e, (t.dep e).pass2 = true → t.rescan = true ∨ (s.dep e).pass2 = true
  fresh : (∀ i, (s.inode i).syncq = false) → (∀ i, (s.inode i).syncqPass2 = false) →
    (∀ e, (s.dep e).pass2 = false) → ∀ e, (t.dep e).pass2 = false

theorem Fronted.refl (h : Queued s) : Fronted s s :=
  ⟨.refl s, h, id, fun _ => .inr, fun _ _ he => he⟩

theorem Fronted.trans {u : SyncQueues} (h : Fronted s t) (h' : Fronted t u) : Fronted s u := by
  refine ⟨h.toQueuesGrow.trans h'.toQueuesGrow, h'.queued, fun hs =>
    h'.passing (h.passing hs), ?_, ?_⟩
  · intro e he
    rcases h'.asks e he with hr | he
    · exact .inl hr
    · exact (h.asks e he).imp_left h'.rescan
  · intro hsync hpass hdep
    exact h'.fresh (fun i => (h.syncq i).trans (hsync i))
      (fun i => (h.syncqPass2 i).trans (hpass i))
      (h.fresh hsync hpass hdep)

/-- A dependency is a step of the front end. -/
theorem Fronted.setdependLocked (h : Queued s) (harg : arg.Valid s) (ip : Ip) :
    Fronted s (s.setdependLocked ip arg).1 :=
  ⟨.setdependLocked h harg ip, (h.setdependLocked harg ip).1, fun hs =>
    hs.setdependLocked h harg ip, fun _ => h.pass2_rescan harg ip, h.pass2_fresh harg ip⟩

/-- So is queuing for later. -/
theorem Fronted.delayedSideq (h : Queued s) (ip : Ip) : Fronted s (s.delayedSideq ip) := by
  unfold SyncQueues.delayedSideq
  split
  · exact .refl h
  · exact .setdependLocked h (DependArg.valid_null s) ip

theorem SyncQueues.toFront_dep (s : SyncQueues) (ip : Ip) : (s.toFront ip).dep = s.dep := by
  unfold toFront
  split <;> rfl

/-- So is a move to the front. -/
theorem Fronted.toFront (h : Queued s) (ip : Ip) : Fronted s (s.toFront ip) := by
  refine ⟨.toFront s ip, h.toFront ip, ?_, fun e he => .inr (s.toFront_dep ip ▸ he),
    fun _ _ hdep => s.toFront_dep ip ▸ hdep⟩
  unfold Passing SyncQueues.Marked
  rw [toFront_inode, toFront_dep]
  exact id

/-- Moving an inode to the front keeps the links. -/
theorem DependArg.Links.toFront (h : arg.Links s i) (ip : Ip) :
    arg.Links (s.toFront ip) i := by
  cases arg with
  | null => exact h
  | minusOne =>
    rw [DependArg.Links, toFront_inode]
    exact h
  | on d =>
    rw [DependArg.Links, toFront_inode, toFront_dep]
    exact h

/-- The loop of `hammer2_inode_lock4` joins its inodes. -/
theorem Fronted.lock4 (ips : List Ip) (r : SyncQueues × DependArg) (h : Queued r.1)
    (harg : r.2.Valid r.1) :
    Fronted r.1 (ips.foldl lock4Step r).1 ∧ ∀ i, r.2.Links r.1 i ∨ i ∈ ips →
      (ips.foldl lock4Step r).2.Links (ips.foldl lock4Step r).1 i := by
  induction ips generalizing r with
  | nil =>
    exact ⟨.refl h, fun i hi => hi.resolve_right List.not_mem_nil⟩
  | cons ip ips ih =>
    have hset := Fronted.setdependLocked h harg ip
    have hstep := Queued.lock4Step ⟨h, harg⟩ ip
    obtain ⟨hf, hlinks⟩ := ih (lock4Step r ip) hstep.1 hstep.2
    refine ⟨(hset.trans (.toFront hset.queued ip)).trans hf, fun i hi => hlinks i ?_⟩
    rw [List.mem_cons, ← or_assoc] at hi
    exact hi.imp_left fun hi => (DependArg.Links.setdependLocked h harg ip hi).toFront ip

/-- The two calls of `hammer2_inode_depend` join its inodes. -/
theorem Fronted.inodeDepend (h : Queued s) (ip1 ip2 : Ip) :
    let r := s.setdependLocked ip1 .null
    Fronted s (r.1.setdependLocked ip2 r.2).1 ∧
      ∀ i ∈ [ip1, ip2], (r.1.setdependLocked ip2 r.2).2.Links
        (r.1.setdependLocked ip2 r.2).1 i := by
  intro r
  have h₁ := Fronted.setdependLocked h (DependArg.valid_null s) ip1
  have harg := (h.setdependLocked (DependArg.valid_null s) ip1).2
  refine ⟨h₁.trans (.setdependLocked h₁.queued harg ip2), fun i hi => ?_⟩
  refine DependArg.Links.setdependLocked h₁.queued harg ip2 ?_
  rcases List.mem_pair.1 hi with rfl | rfl
  · exact .inl (.setdependLocked h (DependArg.valid_null s) i (.inr rfl))
  · exact .inr rfl

/-! ## Nothing is left behind -/

/-- The inode has been taken off `syncq` and its flag says so. -/
def SyncPhase.passes (ip : Ip) : SyncPhase → Prop
  | .hand i => i = ip
  | .flushing i => i = ip
  | .flushed i => i = ip
  | .settled i => i = ip
  | _ => False

/-- The loop over `syncq` is not running. -/
def SyncPhase.outside : SyncPhase → Prop
  | .idle | .clear | .move | .check | .stage2 | .done => True
  | _ => False

/-- No further pass can follow. -/
def SyncPhase.quiet : SyncPhase → Prop
  | .idle | .stage2 | .done => True
  | _ => False

/-- What the syncer has taken in a run it will come to: inodes it had in hand are on a queue again
or still in hand, and a marked group means a further pass. -/
structure Staged (s : SyncQueues) : Prop where
  passing : Passing s
  flagged : ∀ i, s.phase.passes i → (s.inode i).syncqPass2 = true
  held : ∀ i, (s.inode i).syncqPass2 = true →
    (s.inode i).sideq = true ∨ (s.inode i).syncq = true ∨ s.phase.passes i
  outside : s.phase.outside → ∀ i, (s.inode i).syncq = false
  asked : ∀ e, (s.dep e).pass2 = true → s.rescan = true ∨ s.dorestart = true ∨ s.phase = .move
  calm : s.phase.quiet → (∀ i, (s.inode i).syncqPass2 = false) ∧ ∀ e, (s.dep e).pass2 = false

/-- The stages hold at the start. -/
theorem Staged.start (iroot : Option Ip) : Staged (.start iroot) := by
  constructor <;> simp [SyncQueues.start, Passing, SyncPhase.passes, Depend.unused]

/-- A quiet phase is outside the loop. -/
theorem SyncPhase.quiet.outside (h : p.quiet) : p.outside := by
  cases p <;> trivial

/-- The front end keeps the stages. -/
theorem Staged.fronted (h : Staged s) (hf : Fronted s t) : Staged t := by
  refine ⟨hf.passing h.passing, ?_, ?_, ?_, ?_, ?_⟩
  · intro i hi
    rw [hf.phase] at hi
    exact (hf.syncqPass2 i).trans (h.flagged i hi)
  · intro i hi
    rw [hf.syncqPass2] at hi
    rw [hf.syncq, hf.phase]
    exact (h.held i hi).imp_left (hf.sideq i)
  · intro hp i
    rw [hf.phase] at hp
    exact (hf.syncq i).trans (h.outside hp i)
  · intro e he
    rw [hf.dorestart, hf.phase]
    rcases hf.asks e he with hr | he
    · exact .inl hr
    · exact (h.asked e he).imp_left hf.rescan
  · intro hp
    rw [hf.phase] at hp
    obtain ⟨hpass, hdep⟩ := h.calm hp
    exact ⟨fun i => (hf.syncqPass2 i).trans (hpass i), hf.fresh (h.outside hp.outside) hpass hdep⟩

/-- So does the log. -/
theorem Staged.record (h : Staged s) (e : SyncEvent) : Staged (s.record e) :=
  ⟨h.passing, h.flagged, h.held, h.outside, h.asked, h.calm⟩

/-- The syncer goes from one phase to another. -/
theorem Staged.phase {b : Bool} (h : Staged s) (hpass : ∀ i, p.passes i → s.phase.passes i)
    (hheld : ∀ i, s.phase.passes i → (s.inode i).sideq = true ∨
    (s.inode i).syncq = true ∨ p.passes i)
    (hout : p.outside → ∀ i, (s.inode i).syncq = false)
    (hask : b = true ∨ ∀ e, (s.dep e).pass2 = true → s.rescan = true ∨ b = true ∨ p = .move)
    (hcalm : p.quiet → (∀ i, (s.inode i).syncqPass2 = false) ∧ ∀ e, (s.dep e).pass2 = false) :
    Staged { s with phase := p, dorestart := b } := by
  refine ⟨h.passing, fun i hi => h.flagged i (hpass i hi), ?_, hout, ?_, hcalm⟩
  · intro i hi
    rcases h.held i hi with hs | hs | hs
    · exact .inl hs
    · exact .inr (.inl hs)
    · exact hheld i hs
  · intro e he
    rcases hask with hb | hask
    · exact .inr (.inl hb)
    · exact hask e he

/-- Without a reason for a further pass, nothing is marked. -/
theorem Staged.calm_of_check (h : Staged s) (hp : s.phase = .check) (hre : s.dorestart = false)
    (hscan : s.rescan = false) :
    (∀ i, (s.inode i).syncqPass2 = false) ∧ ∀ e, (s.dep e).pass2 = false := by
  have hdep : ∀ e, (s.dep e).pass2 = false := by
    refine fun e => Bool.eq_false_iff.2 fun he => ?_
    rcases h.asked e he with hr | hr | hr
    · simp [hscan] at hr
    · simp [hre] at hr
    · simp [hp] at hr
  refine ⟨fun i => Bool.eq_false_iff.2 fun hi => ?_, hdep⟩
  rcases h.held i hi with hs | hs | hs
  · obtain ⟨-, d, -, hd⟩ := h.passing i hi hs
    simp [hdep d] at hd
  · simp [h.outside (hp ▸ trivial) i] at hs
  · rw [hp] at hs
    exact hs

/-- An inode queued for later is on a queue. -/
theorem SyncQueues.delayedSideq_queued (h : Queued s) (ip : Ip) :
    ((s.delayedSideq ip).inode ip).sideq = true ∨ ((s.delayedSideq ip).inode ip).syncq = true := by
  unfold SyncQueues.delayedSideq
  split
  · next hq => exact hq.symm
  · have hl := DependArg.Links.setdependLocked h (DependArg.valid_null s) ip (.inr rfl)
    revert hl
    generalize (s.setdependLocked ip .null).2 = r
    cases r with
    | null => exact False.elim
    | minusOne => exact .inr
    | on d => exact fun hl => hl.elim (fun hl => .inr hl.1) (fun hl => .inl hl.1)

/-- Moving the groups keeps the stages. -/
theorem Staged.moveGroups (h : Staged s) (hq : Queued s) (hp : s.phase = .move) :
    Staged { s.moveGroups with phase := .loop, dorestart := false } := by
  obtain ⟨hm, hleft⟩ := Moved.moveGroups hq
  have hmark : ∀ e, (s.moveGroups.dep e).pass2 = false := by
    intro e
    by_cases he : e ∈ s.moveGroups.depq
    · rw [(hm.dep e he).2]
      exact (hleft e he).2
    · rw [hm.queued.unused e he]
      rfl
  refine ⟨?_, nofun, ?_, nofun, fun e he => absurd he (by simp [hmark e]), nofun⟩
  · intro i hi hside
    obtain ⟨hs, hd⟩ := hm.sideq i hside
    rw [hm.syncqPass2] at hi
    obtain ⟨-, d, hdep, hd'⟩ := h.passing i hi hs
    obtain ⟨e, he, hde⟩ := hm.queued.placed i hside
    obtain rfl : d = e := Option.some_inj.1 (hdep.symm.trans (hd.symm.trans hde))
    simp [(hleft d he).2] at hd'
  · intro i hi
    rw [hm.syncqPass2] at hi
    rcases h.held i hi with hs | hs | hs
    · exact (hm.stays i hs).elim (fun hs => .inr (.inl hs)) fun hs => .inl hs.1
    · exact .inr (.inl (hm.syncq i hs))
    · rw [hp] at hs
      exact hs.elim

/-- Taking the next inode keeps them. -/
theorem Staged.pop (h : Staged s) (hq : Queued s) (hp : s.phase = .loop)
    (hsyncq : s.syncq = ip :: rest) : Staged (s.pop ip rest) := by
  have hself := s.pop_self ip rest
  have hoff (i : Ip) (hi : i ≠ ip) := s.pop_of_ne rest hi
  have hip : (s.inode ip).syncq = true := (hq.syncq ip).1 (by simp [hsyncq])
  refine ⟨?_, ?_, ?_, (by rintro ⟨⟩), ?_, (by rintro ⟨⟩)⟩
  · intro i hi hside
    by_cases hne : i = ip
    · rw [hne, hself] at hside
      exact absurd ⟨hside, hip⟩ (hq.apart ip)
    · rw [SyncQueues.Marked, hoff i hne] at *
      exact h.passing i hi hside
  · rintro i rfl
    rw [hself]
  · intro i hi
    by_cases hne : i = ip
    · exact .inr (.inr hne.symm)
    · rw [hoff i hne] at hi ⊢
      rcases h.held i hi with hs | hs | hs
      · exact .inl hs
      · exact .inr (.inl hs)
      · rw [hp] at hs
        exact hs.elim
  · intro e he
    rcases h.asked e he with hr | hr | hr
    · exact .inl hr
    · exact .inr (.inl hr)
    · simp [hp] at hr

/-- The reasons for a further pass do not change. -/
theorem Staged.asked_of_ne (h : Staged s) (hp : s.phase ≠ .move) :
    s.dorestart = true ∨ ∀ e, (s.dep e).pass2 = true →
      s.rescan = true ∨ s.dorestart = true ∨ p = .move := by
  refine .inr fun e he => ?_
  rcases h.asked e he with hr | hr | hr
  · exact .inl hr
  · exact .inr (.inl hr)
  · exact absurd hr hp

/-- The syncer goes on with the inode it has, or without one. -/
theorem Staged.turn (h : Staged s) (hne : s.phase ≠ .move)
    (hiff : ∀ i, p.passes i ↔ s.phase.passes i) (hout : p.outside → ∀ i, (s.inode i).syncq = false)
    (hcalm : p.quiet → (∀ i, (s.inode i).syncqPass2 = false) ∧ ∀ e, (s.dep e).pass2 = false) :
    Staged (s.goto p) :=
  h.phase (fun i => (hiff i).1) (fun i hi => .inr (.inr ((hiff i).2 hi)))
    hout (h.asked_of_ne hne) hcalm

/-- A drop changes the reference count only. -/
theorem SyncQueues.drop_inode (s : SyncQueues) (ip i : Ip) :
    ∃ n, (s.drop ip).inode i = { s.inode i with refs := n } := by
  by_cases hi : i = ip
  · subst hi
    exact ⟨_, Function.update_self ..⟩
  · exact ⟨(s.inode i).refs, Function.update_of_ne hi _ _⟩

/-- The flags and queues do not depend on the references. -/
theorem Staged.drop (h : Staged s) (ip : Ip) : Staged (s.drop ip) := by
  refine ⟨fun i => ?_, fun i hi => ?_, fun i => ?_, fun hp i => ?_, h.asked, fun hp => ?_⟩
  · obtain ⟨n, hn⟩ := s.drop_inode ip i
    rw [SyncQueues.Marked, hn]
    exact h.passing i
  · obtain ⟨n, hn⟩ := s.drop_inode ip i
    rw [hn]
    exact h.flagged i hi
  · obtain ⟨n, hn⟩ := s.drop_inode ip i
    rw [hn]
    exact h.held i
  · obtain ⟨n, hn⟩ := s.drop_inode ip i
    rw [hn]
    exact h.outside hp i
  · refine ⟨fun i => ?_, (h.calm hp).2⟩
    obtain ⟨n, hn⟩ := s.drop_inode ip i
    rw [hn]
    exact (h.calm hp).1 i

/-- **A step leaves nothing behind.** -/
theorem Staged.step (h : Staged s) (hq : Queued s) (hst : s.Step a t) : Staged t := by
  cases hst.took with
  | delayedSideq ip => exact h.fronted (.delayedSideq hq ip)
  | sideqLocked ip => exact h.fronted (.setdependLocked hq (DependArg.valid_null s) ip)
  | inodeDepend ip1 ip2 => exact (h.fronted (Fronted.inodeDepend hq ip1 ip2).1).record _
  | lock4 ips =>
    exact (h.fronted (Fronted.lock4 ips (s, .null) hq (DependArg.valid_null s)).1).record _
  | lock ip => exact h.fronted (.toFront hq ip)
  | syncStart hp =>
    obtain ⟨-, hdep⟩ := h.calm (hp ▸ trivial)
    refine (h.record .started).phase (by rintro _ ⟨⟩) (fun i hi => ?_)
      (fun _ => h.outside (hp ▸ trivial))
      (.inr fun e he => ?_) (by rintro ⟨⟩)
    · simp [SyncQueues.record, hp, SyncPhase.passes] at hi
    · simp [SyncQueues.record, hdep e] at he
  | clearRescan hp =>
    refine ⟨h.passing, (by rintro _ ⟨⟩), fun i hi => ?_, fun _ => h.outside (hp ▸ trivial),
      fun _ _ => .inr (.inr rfl), (by rintro ⟨⟩)⟩
    have hheld := h.held i hi
    rwa [hp] at hheld
  | move hp => exact h.moveGroups hq hp
  | pop hp hsyncq => exact h.pop hq hp hsyncq
  | loopEnd hp hsyncq =>
    refine h.turn (by simp [hp]) (by simp [hp, SyncPhase.passes]) (fun _ i => ?_) (by rintro ⟨⟩)
    exact Bool.eq_false_iff.2 fun hi => by simpa [hsyncq] using (hq.syncq i).2 hi
  | @requeue ip hp =>
    have hf := Fronted.delayedSideq hq ip
    refine (h.fronted hf).phase (by rintro _ ⟨⟩) (fun i hi => ?_) (by rintro ⟨⟩)
      (.inl rfl) (by rintro ⟨⟩)
    rw [hf.phase, hp] at hi
    obtain rfl : ip = i := hi
    exact (delayedSideq_queued hq ip).imp_right .inl
  | skip hp hside =>
    refine h.phase (by rintro _ ⟨⟩) (fun i hi => ?_) (by rintro ⟨⟩) (.inl rfl) (by rintro ⟨⟩)
    rw [hp] at hi
    exact .inl (hi ▸ hside)
  | relock hp hside | settle hp =>
    exact h.turn (by simp [hp]) (by simp [hp, SyncPhase.passes]) (by rintro ⟨⟩) (by rintro ⟨⟩)
  | flush hp =>
    exact (h.record _).turn (by simp [SyncQueues.record, hp])
      (by simp [SyncQueues.record, hp, SyncPhase.passes]) (by rintro ⟨⟩) (by rintro ⟨⟩)
  | @requeueDirty ip hp =>
    have hf := Fronted.delayedSideq hq ip
    exact (h.fronted hf).turn (by simp [hf.phase, hp])
      (by simp [hf.phase, hp, SyncPhase.passes]) (by rintro ⟨⟩)
      (by rintro ⟨⟩)
  | @clearPass2 ip hp =>
    have hoff : ∀ i, i ≠ ip → Function.update s.inode ip { s.inode ip with syncqPass2 := false } i =
        s.inode i := fun i hi => Function.update_of_ne hi _ _
    have hne : ∀ i, (Function.update s.inode ip
        { s.inode ip with syncqPass2 := false } i).syncqPass2 = true → i ≠ ip := by
      rintro i hi rfl
      simp at hi
    refine ⟨fun i hi hside => ?_, (by rintro _ ⟨⟩), fun i hi => ?_, (by rintro ⟨⟩), fun e he => ?_,
      (by rintro ⟨⟩)⟩
    · simp only [SyncQueues.Marked, SyncQueues.goto, SyncQueues.setInode] at hi hside ⊢
      have hi' := hne i hi
      rw [hoff i hi'] at hi hside ⊢
      exact h.passing i hi hside
    · simp only [SyncQueues.goto, SyncQueues.setInode] at hi ⊢
      have hi' := hne i hi
      rw [hoff i hi'] at hi ⊢
      rcases h.held i hi with hs | hs | hs
      · exact .inl hs
      · exact .inr (.inl hs)
      · rw [hp] at hs
        exact absurd hs.symm hi'
    · rcases h.asked e he with hr | hr | hr
      · exact .inl hr
      · exact .inr (.inl hr)
      · simp [hp] at hr
  | @release ip hp =>
    exact (h.drop ip).turn (by simp [SyncQueues.drop, SyncQueues.setInode, hp])
      (by simp [SyncQueues.drop, SyncQueues.setInode, hp, SyncPhase.passes])
        (by rintro ⟨⟩) (by rintro ⟨⟩)
  | restart hp hre =>
    refine h.phase (by rintro _ ⟨⟩) (fun i hi => ?_) (fun _ => h.outside (hp ▸ trivial)) (.inl rfl)
      (by rintro ⟨⟩)
    simp [hp, SyncPhase.passes] at hi
  | stage2 hp hre hscan =>
    exact h.turn (by simp [hp]) (by simp [hp, SyncPhase.passes]) (fun _ => h.outside (hp ▸ trivial))
      fun _ => h.calm_of_check hp hre hscan
  | flushRoot hp hroot | syncDone hp =>
    exact (h.record _).turn (by simp [SyncQueues.record, hp])
      (by simp [SyncQueues.record, hp, SyncPhase.passes]) (fun _ => h.outside (hp ▸ trivial))
      fun _ => h.calm (hp ▸ trivial)
  | noRoot hp hroot =>
    exact h.turn (by simp [hp]) (by simp [hp, SyncPhase.passes]) (fun _ => h.outside (hp ▸ trivial))
      fun _ => h.calm (hp ▸ trivial)

/-! ## What a step does to the groups -/

/-- The syncer has the inode before it in this pass. -/
def SyncPhase.ahead (ip : Ip) : SyncPhase → Prop
  | .hand i => i = ip
  | .flushing i => i = ip
  | _ => False

/-- The inode is flushed before the run ends. -/
def InRun (s : SyncQueues) (i : Ip) : Prop :=
  (s.inode i).syncq = true ∨ s.Marked i ∨ s.phase.ahead i

/-- The inodes are in one group. -/
def Grouped (s : SyncQueues) (i j : Ip) : Prop :=
  (s.inode i).sideq = true ∧ (s.inode j).sideq = true ∧ (s.inode i).depend = (s.inode j).depend

/-- The syncer has not moved the groups yet that it found when it started. -/
def FirstPass (s : SyncQueues) : Prop :=
  (s.phase = .clear ∨ s.phase = .move) ∧ s.dorestart = false

/-- The root inode is flushed behind the last pass only when it is in no group with another
inode. -/
def RootAlone (s : SyncQueues) (a : SyncQAct) : Prop :=
  a = .flushRoot → ∀ r, s.iroot = some r → ∀ i, Grouped s r i → i = r

/-- What a step with the event `e` does to the groups. -/
structure Advance (s : SyncQueues) (a : SyncQAct) (t : SyncQueues) (e : Option SyncEvent) :
    Prop where
  log : t.log = e.toList ++ s.log
  inRun : ∀ i, InRun s i → e = some (.flushed i) ∨ InRun t i
  sideq : ∀ i, (s.inode i).sideq = true →
    e = some (.flushed i) ∨ InRun t i ∨ (t.inode i).sideq = true
  groups : RootAlone s a → ∀ i j, Grouped s i j →
    Grouped t i j ∧ e ≠ some (.flushed i) ∧ e ≠ some (.flushed j) ∨
      (e = some (.flushed i) ∨ InRun t i) ∧ (e = some (.flushed j) ∨ InRun t j)
  joined : ∀ ips, e = some (.joined ips) → ∀ i ∈ ips, ∀ j ∈ ips,
    Grouped t i j ∨ InRun t i ∧ InRun t j
  first : FirstPass s → FirstPass t ∨ ∀ i, (s.inode i).sideq = true → InRun t i
  started : e = some .started → FirstPass t
  ended : e = some .ended → (∀ i, ¬ InRun t i) ∧ ¬ FirstPass t

/-- The members of a marked group are all flushed before the run ends. -/
theorem Grouped.inRun (h : Grouped s i j) (hi : s.Marked i) : InRun s i ∧ InRun s j := by
  obtain ⟨hside, d, hd, hp⟩ := hi
  exact ⟨.inr (.inl ⟨hside, d, hd, hp⟩), .inr (.inl ⟨h.2.1, d, h.2.2 ▸ hd, hp⟩)⟩

/-- A step without a flush that keeps the groups together. -/
theorem Advance.quiet (hlog : t.log = e.toList ++ s.log) (hinRun : ∀ i, InRun s i → InRun t i)
    (hgroups : ∀ i j, Grouped s i j → Grouped t i j ∨ InRun t i ∧ InRun t j)
    (hflush : ∀ i, e ≠ some (.flushed i))
    (hjoined : ∀ ips, e = some (.joined ips) → ∀ i ∈ ips, ∀ j ∈ ips, Grouped t i j ∨
    InRun t i ∧ InRun t j)
    (hfirst : FirstPass s → FirstPass t ∨ ∀ i, (s.inode i).sideq = true → InRun t i)
    (hstarted : e = some .started → FirstPass t)
    (hended : e = some .ended → (∀ i, ¬ InRun t i) ∧ ¬ FirstPass t) : Advance s a t e := by
  refine ⟨hlog, fun i hi => .inr (hinRun i hi), fun i hi => ?_, fun _ i j hij =>
    ?_, hjoined, hfirst, hstarted, hended⟩
  · rcases hgroups i i ⟨hi, hi, rfl⟩ with hg | hg
    · exact .inr (.inr hg.1)
    · exact .inr (.inl hg.1)
  · rcases hgroups i j hij with hg | hg
    · exact .inl ⟨hg, hflush i, hflush j⟩
    · exact .inr ⟨.inr hg.1, .inr hg.2⟩

/-- Inodes in one group stay in one. -/
theorem QueuesGrow.grouped (hg : QueuesGrow s t) (h : Grouped s i j) : Grouped t i j :=
  ⟨hg.sideq i h.1, hg.sideq j h.2.1, hg.together i j h.1 h.2.1 h.2.2⟩

/-- An inode in the run stays in it. -/
theorem QueuesGrow.inRun (hg : QueuesGrow s t) (h : InRun s i) : InRun t i := by
  rcases h with hs | hs | hs
  · exact .inl ((hg.syncq i).trans hs)
  · exact .inr (.inl (hg.marked i hs))
  · exact .inr (.inr (hg.phase ▸ hs))

/-- The pass stays the first. -/
theorem QueuesGrow.firstPass (hg : QueuesGrow s t) (h : FirstPass s) : FirstPass t := by
  rw [FirstPass, hg.phase, hg.dorestart]
  exact h

/-- The front end's steps that join nothing. -/
theorem QueuesGrow.advance (a : SyncQAct) (hg : QueuesGrow s t) : Advance s a t none :=
  .quiet hg.log (fun _ => hg.inRun) (fun _ _ hij => .inl (hg.grouped hij)) nofun nofun
    (fun hf => .inl (hg.firstPass hf)) nofun nofun

/-- Inodes that are linked are in one group, or before the syncer. -/
theorem DependArg.Links.grouped (hi : arg.Links s i) (hj : arg.Links s j) :
    Grouped s i j ∨ InRun s i ∧ InRun s j := by
  cases arg with
  | null => exact hi.elim
  | minusOne => exact .inr ⟨.inl hi, .inl hj⟩
  | on d =>
    rcases hi with ⟨hi, hp⟩ | ⟨hi, hdi⟩
    · rcases hj with ⟨hj, -⟩ | ⟨hj, hdj⟩
      · exact .inr ⟨.inl hi, .inl hj⟩
      · exact .inr ⟨.inl hi, .inr (.inl ⟨hj, d, hdj, hp⟩)⟩
    · rcases hj with ⟨hj, hp⟩ | ⟨hj, hdj⟩
      · exact .inr ⟨.inr (.inl ⟨hi, d, hdi, hp⟩), .inl hj⟩
      · exact .inl ⟨hi, hj, hdi.trans hdj.symm⟩

/-- The front end's steps that join inodes. -/
theorem QueuesGrow.advance_joined (a : SyncQAct) (hg : QueuesGrow s t)
    (hlinks : ∀ i ∈ ips, arg.Links t i) :
    Advance s a (t.record (.joined ips)) (some (.joined ips)) := by
  refine .quiet (by rw [SyncQueues.record, hg.log]; rfl) (fun _ hi => hg.inRun hi)
    (fun _ _ hij => .inl (hg.grouped hij)) nofun ?_ (fun hf => .inl (hg.firstPass hf)) nofun nofun
  rintro _ ⟨⟩ i hi j hj
  exact (hlinks i hi).grouped (hlinks j hj)

/-- What the flags and groups of the inodes say is the same in two states. -/
structure SameFlags (s t : SyncQueues) : Prop where
  sideq : ∀ i, (t.inode i).sideq = (s.inode i).sideq
  syncq : ∀ i, (t.inode i).syncq = (s.inode i).syncq
  depend : ∀ i, (t.inode i).depend = (s.inode i).depend
  dep : t.dep = s.dep

/-- Steps that leave inodes and groups. -/
theorem SameFlags.of_eq (hinode : t.inode = s.inode) (hdep : t.dep = s.dep) : SameFlags s t :=
  ⟨fun _ => hinode ▸ rfl, fun _ => hinode ▸ rfl, fun _ => hinode ▸ rfl, hdep⟩

/-- Marks depend on the flags. -/
theorem SameFlags.marked (h : SameFlags s t) (hi : s.Marked i) : t.Marked i := by
  rw [SyncQueues.Marked, h.sideq, h.depend, h.dep]
  exact hi

/-- Groups depend on the flags. -/
theorem SameFlags.grouped (h : SameFlags s t) (hij : Grouped s i j) : Grouped t i j := by
  rw [Grouped, h.sideq, h.sideq, h.depend, h.depend]
  exact hij

/-- The syncer's steps that change no group. -/
theorem SameFlags.advance (h : SameFlags s t) (hlog : t.log = e.toList ++ s.log)
    (hahead : ∀ i, s.phase.ahead i → t.phase.ahead i ∨ s.Marked i)
    (hflush : ∀ i, e ≠ some (.flushed i)) (hjoined : ∀ ips, e ≠ some (.joined ips))
    (hfirst : FirstPass s → FirstPass t) (hstarted : e = some .started → FirstPass t)
    (hended : e = some .ended → (∀ i, ¬ InRun t i) ∧ ¬ FirstPass t) : Advance s a t e := by
  refine .quiet hlog (fun i hi => ?_) (fun i j hij => .inl (h.grouped hij)) hflush
    (fun ips he => absurd he (hjoined ips)) (fun hf => .inl (hfirst hf)) hstarted hended
  rcases hi with hi | hi | hi
  · exact .inl ((h.syncq i).trans hi)
  · exact .inr (.inl (h.marked hi))
  · rcases hahead i hi with ha | ha
    · exact .inr (.inr ha)
    · exact .inr (.inl (h.marked ha))

/-- Moving the groups advances the sync. -/
theorem Advance.moveGroups (hq : Queued s) (hp : s.phase = .move) :
    Advance s .move { s.moveGroups with phase := .loop, dorestart := false } none := by
  obtain ⟨hm, hleft⟩ := Moved.moveGroups hq
  have hplaced : ∀ i, (s.moveGroups.inode i).sideq = true → ∃ d, (s.inode i).depend = some d ∧
      s.dorestart = true ∧ (s.dep d).pass2 = false := by
    intro i hi
    obtain ⟨d, hd, hdep⟩ := hm.queued.placed i hi
    exact ⟨d, (hm.sideq i hi).2 ▸ hdep, hleft d hd⟩
  refine .quiet hm.log ?_ ?_ nofun nofun ?_ nofun nofun
  · rintro i (hi | ⟨hi, d, hd, hpass⟩ | hi)
    · exact .inl (hm.syncq i hi)
    · rcases hm.stays i hi with hs | ⟨hs, -⟩
      · exact .inl hs
      · obtain ⟨e, he, -, hf⟩ := hplaced i hs
        obtain rfl : d = e := Option.some_inj.1 (hd.symm.trans he)
        simp [hpass] at hf
    · rw [hp] at hi
      exact hi.elim
  · rintro i j ⟨hi, hj, hij⟩
    rcases hm.stays i hi with hs | ⟨hs, hdi⟩
    · exact .inr ⟨.inl hs, .inl (hm.together i j hi hj hij hs)⟩
    · rcases hm.stays j hj with hs' | ⟨hs', hdj⟩
      · exact .inr ⟨.inl (hm.together j i hj hi hij.symm hs'), .inl hs'⟩
      · exact .inl ⟨hs, hs', by rw [hdi, hdj, hij]⟩
  · rintro ⟨-, hre⟩
    refine .inr fun i hi => ?_
    rcases hm.stays i hi with hs | ⟨hs, -⟩
    · exact .inl hs
    · obtain ⟨d, -, hre', -⟩ := hplaced i hs
      simp [hre] at hre'

/-- So does taking the next inode. -/
theorem Advance.pop (hp : s.phase = .loop) : Advance s .pop (s.pop ip rest) none := by
  have hin : ∀ i, ((s.pop ip rest).inode i).sideq = (s.inode i).sideq ∧
      ((s.pop ip rest).inode i).depend = (s.inode i).depend ∧
      (i ≠ ip → ((s.pop ip rest).inode i).syncq = (s.inode i).syncq) := by
    intro i
    by_cases hi : i = ip <;> simp [SyncQueues.pop, SyncQueues.setInode, hi]
  refine .quiet rfl ?_ ?_ (by rintro _ ⟨⟩) (by rintro _ ⟨⟩) ?_ (by rintro ⟨⟩) (by rintro ⟨⟩)
  · intro i hi
    by_cases hne : i = ip
    · exact .inr (.inr hne.symm)
    · rcases hi with hi | ⟨hi, d, hd, hpass⟩ | hi
      · exact .inl (((hin i).2.2 hne).trans hi)
      · exact .inr (.inl ⟨(hin i).1.trans hi, d, (hin i).2.1.trans hd, hpass⟩)
      · rw [hp] at hi
        exact hi.elim
  · rintro i j ⟨hi, hj, hij⟩
    exact .inl ⟨(hin i).1.trans hi, (hin j).1.trans hj, by rw [(hin i).2.1, (hin j).2.1, hij]⟩
  · rintro ⟨hc | hc, -⟩ <;> simp [hp] at hc

/-- So does putting one back. -/
theorem Advance.requeue (hq : Queued s) (h : Staged s) (hp : s.phase = .hand ip) :
    Advance s .requeue { s.delayedSideq ip with phase := .release ip, dorestart := true } none := by
  have hf := Fronted.delayedSideq hq ip
  have hip : (s.delayedSideq ip).Marked ip ∨ ((s.delayedSideq ip).inode ip).syncq = true := by
    refine (delayedSideq_queued hq ip).imp_left fun hs => hf.passing h.passing ip ?_ hs
    rw [hf.syncqPass2]
    exact h.flagged ip (by rw [hp]; rfl)
  refine .quiet hf.log ?_ (fun i j hij => .inl (hf.toQueuesGrow.grouped hij))
    nofun nofun ?_ nofun nofun
  · intro i hi
    rcases hf.toQueuesGrow.inRun hi with hi | hi | hi
    · exact .inl hi
    · exact .inr (.inl hi)
    · rw [hf.phase, hp] at hi
      obtain rfl : ip = i := hi
      exact hip.elim (fun hm => .inr (.inl hm)) .inl
  · rintro ⟨hc | hc, -⟩ <;> simp [hp] at hc

/-- **A flush** of the inode in hand: whoever is grouped with it is flushed before the run ends. -/
theorem Advance.flush (h : Staged s) (hp : s.phase = .flushing ip) :
    Advance s .flush ((s.record (.flushed ip)).goto (.flushed ip)) (some (.flushed ip)) := by
  have hrun : ∀ i, InRun s i → some (SyncEvent.flushed ip) = some (.flushed i) ∨
      InRun ((s.record (.flushed ip)).goto (.flushed ip)) i := by
    rintro i (hi | hi | hi)
    · exact .inr (.inl hi)
    · exact .inr (.inr (.inl hi))
    · rw [hp] at hi
      exact .inl (by rw [show ip = i from hi])
  have hmark : ∀ i, (s.inode i).sideq = true → i = ip → s.Marked i := by
    rintro i hi rfl
    exact h.passing i (h.flagged i (by rw [hp]; rfl)) hi
  refine ⟨rfl, hrun, fun i hi => .inr (.inr hi), fun _ i j hij => ?_, nofun, ?_, nofun, nofun⟩
  · by_cases hi : i = ip
    · obtain ⟨hri, hrj⟩ := hij.inRun (hmark i hij.1 hi)
      exact .inr ⟨hrun i hri, hrun j hrj⟩
    · by_cases hj : j = ip
      · obtain ⟨hrj, hri⟩ := Grouped.inRun (i := j) (j := i) ⟨hij.2.1, hij.1, hij.2.2.symm⟩
          (hmark j hij.2.1 hj)
        exact .inr ⟨hrun i hri, hrun j hrj⟩
      · exact .inl ⟨hij, by simpa using Ne.symm hi, by simpa using Ne.symm hj⟩
  · rintro ⟨hc | hc, -⟩ <;> simp [hp] at hc

/-- The flush of the root inode behind the last pass. -/
theorem Advance.flushRoot (hp : s.phase = .stage2) (hroot : s.iroot = some ip) :
    Advance s .flushRoot ((s.record (.flushed ip)).goto .done) (some (.flushed ip)) := by
  have hrun : ∀ i, InRun s i → InRun ((s.record (.flushed ip)).goto .done) i := by
    rintro i (hi | hi | hi)
    · exact .inl hi
    · exact .inr (.inl hi)
    · rw [hp] at hi
      exact hi.elim
  refine ⟨rfl, fun i hi => .inr (hrun i hi), fun i hi =>
    .inr (.inr hi), fun hal i j hij => ?_, nofun, ?_, nofun, nofun⟩
  · have halone := hal rfl ip hroot
    by_cases hi : i = ip
    · subst hi
      exact .inr ⟨.inl rfl, .inl (by rw [halone j hij])⟩
    · by_cases hj : j = ip
      · subst hj
        exact absurd (halone i ⟨hij.2.1, hij.1, hij.2.2.symm⟩) hi
      · exact .inl ⟨hij, by simpa using Ne.symm hi, by simpa using Ne.symm hj⟩
  · rintro ⟨hc | hc, -⟩ <;> simp [hp] at hc

/-- Not a phase that starts a pass. -/
def SyncPhase.later : SyncPhase → Prop
  | .clear | .move => False
  | _ => True

/-- A later phase is not the first pass. -/
theorem not_firstPass (hp : s.phase = p) (hl : p.later) : ¬ FirstPass s := by
  subst hp
  rintro ⟨h | h, -⟩
  · rwa [h] at hl
  · rwa [h] at hl

/-- The syncer's steps without an event, behind the move of the groups. -/
theorem SameFlags.silent (h : SameFlags s t) (hp : s.phase = p) (hl : p.later)
    (hlog : t.log = s.log) (hahead : ∀ i, p.ahead i → t.phase.ahead i ∨ s.Marked i) :
    ∃ e, Advance s a t e :=
  ⟨none, h.advance hlog (hp ▸ hahead) nofun nofun
    (fun hf => absurd hf (not_firstPass hp hl)) nofun nofun⟩

/-- Once a run is over, nothing is before the syncer. -/
theorem Staged.not_inRun (h : Staged s) (hp : s.phase.quiet) (i : Ip) (hahead : ¬ s.phase.ahead i) :
    ¬ InRun s i := by
  rintro (hi | ⟨-, d, -, hd⟩ | hi)
  · simp [h.outside hp.outside i] at hi
  · simp [(h.calm hp).2 d] at hd
  · exact hahead hi

/-- **What a step does to the groups.** -/
theorem SyncQueues.Step.advance (hst : s.Step a t) (hq : Queued s) (h : Staged s) :
    ∃ e, Advance s a t e := by
  have ht := h.step hq hst
  cases hst.took with
  | delayedSideq ip => exact ⟨_, (QueuesGrow.delayedSideq hq ip).advance _⟩
  | sideqLocked ip =>
      exact ⟨_, (QueuesGrow.setdependLocked hq (DependArg.valid_null s) ip).advance _⟩
  | inodeDepend ip1 ip2 =>
    obtain ⟨hf, hlinks⟩ := Fronted.inodeDepend hq ip1 ip2
    exact ⟨_, hf.toQueuesGrow.advance_joined _ hlinks⟩
  | lock4 ips =>
    obtain ⟨hf, hlinks⟩ := Fronted.lock4 ips (s, .null) hq (DependArg.valid_null s)
    exact ⟨_, hf.toQueuesGrow.advance_joined _ fun i hi => hlinks i (.inr hi)⟩
  | lock ip => exact ⟨_, (QueuesGrow.toFront s ip).advance _⟩
  | syncStart hp =>
    refine ⟨some .started, SameFlags.advance (.of_eq rfl rfl) rfl
      (fun i hi => ?_) (by rintro _ ⟨⟩) (by rintro _ ⟨⟩)
      (fun _ => ⟨.inl rfl, rfl⟩) (fun _ => ⟨.inl rfl, rfl⟩) (by rintro ⟨⟩)⟩
    rw [hp] at hi
    exact hi.elim
  | clearRescan hp =>
    refine ⟨none, SameFlags.advance (.of_eq rfl rfl) rfl
      (fun i hi => ?_) (by rintro _ ⟨⟩) (by rintro _ ⟨⟩)
      (fun hf => ⟨.inr rfl, hf.2⟩) (by rintro ⟨⟩) (by rintro ⟨⟩)⟩
    rw [hp] at hi
    exact hi.elim
  | move hp => exact ⟨_, .moveGroups hq hp⟩
  | pop hp hsyncq => exact ⟨_, .pop hp⟩
  | loopEnd hp hsyncq =>
    exact SameFlags.silent (t := s.goto .check) (.of_eq rfl rfl) hp trivial rfl (by rintro _ ⟨⟩)
  | requeue hp => exact ⟨_, .requeue hq h hp⟩
  | skip hp hside =>
    refine SameFlags.silent (.of_eq rfl rfl) hp trivial rfl ?_
    rintro i rfl
    exact .inr (h.passing _ (h.flagged _ (by rw [hp]; rfl)) hside)
  | relock hp hside =>
    exact SameFlags.silent (.of_eq rfl rfl) hp trivial rfl fun i hi => .inl hi
  | flush hp => exact ⟨_, .flush h hp⟩
  | @requeueDirty ip hp =>
    have hg := QueuesGrow.delayedSideq hq ip
    refine ⟨none, .quiet hg.log (fun i hi => ?_)
      (fun i j hij => .inl (hg.grouped hij)) (by rintro _ ⟨⟩) (by rintro _ ⟨⟩)
      (fun hf => absurd hf (not_firstPass hp trivial)) (by rintro ⟨⟩) (by rintro ⟨⟩)⟩
    rcases hg.inRun hi with hi | hi | hi
    · exact .inl hi
    · exact .inr (.inl hi)
    · rw [hg.phase, hp] at hi
      exact hi.elim
  | settle hp | restart hp hre | stage2 hp hre hscan | noRoot hp hroot =>
    exact SameFlags.silent (.of_eq rfl rfl) hp trivial rfl (by rintro _ ⟨⟩)
  | @clearPass2 ip hp =>
    refine SameFlags.silent ⟨?_, ?_, ?_, rfl⟩ hp trivial rfl (by rintro _ ⟨⟩) <;> intro i <;>
      by_cases hi : i = ip <;> simp [SyncQueues.goto, SyncQueues.setInode, hi]
  | @release ip hp =>
    refine SameFlags.silent ⟨?_, ?_, ?_, rfl⟩ hp trivial rfl (by rintro _ ⟨⟩) <;> intro i <;>
      by_cases hi : i = ip <;> simp [SyncQueues.goto, SyncQueues.drop, SyncQueues.setInode, hi]
  | flushRoot hp hroot => exact ⟨_, .flushRoot hp hroot⟩
  | syncDone hp =>
    refine ⟨some .ended, SameFlags.advance (.of_eq rfl rfl) rfl (fun i hi => ?_) (by rintro _ ⟨⟩)
      (by rintro _ ⟨⟩) (fun hf => absurd hf (not_firstPass hp trivial)) (by rintro ⟨⟩)
      fun _ => ⟨fun i => ht.not_inRun trivial i id, not_firstPass rfl trivial⟩⟩
    rw [hp] at hi
    exact hi.elim

/-! ## Histories -/

/-- A join in the log after a step is that step, or stands in the log before it. -/
theorem split_log {log mid pre : List SyncEvent} (h : e.toList ++ log = mid ++ .joined ips :: pre) :
    e = some (.joined ips) ∧ mid = [] ∨
      ∃ mid', mid = e.toList ++ mid' ∧ log = mid' ++ .joined ips :: pre := by
  cases e with
  | none => exact .inr ⟨mid, rfl, h⟩
  | some e =>
    cases mid with
    | nil =>
      simp only [Option.toList_some, List.singleton_append, List.nil_append, List.cons.injEq] at h
      exact .inl ⟨congrArg some h.1, rfl⟩
    | cons x mid =>
      simp only [Option.toList_some, List.cons_append, List.cons.injEq] at h
      exact .inr ⟨mid, by rw [h.1]; rfl, h.2⟩

/-- Of two inodes that were joined before the events `mid`, either none is flushed yet and they are
in one group, or each is flushed or comes before the syncer in this run. -/
def Paired (s : SyncQueues) (mid : List SyncEvent) (i j : Ip) : Prop :=
  Grouped s i j ∧ .flushed i ∉ mid ∧ .flushed j ∉ mid ∨
    (.flushed i ∈ mid ∨ InRun s i) ∧ (.flushed j ∈ mid ∨ InRun s j)

/-- The inodes of every join are paired. -/
def JoinsPaired (s : SyncQueues) : Prop :=
  ∀ mid ips pre, s.log = mid ++ .joined ips :: pre → ∀ i ∈ ips, ∀ j ∈ ips, Paired s mid i j

/-- Every inode joined is flushed, or comes before the syncer in this run, or is on a side queue and
no run has passed over it since. -/
def JoinsReached (s : SyncQueues) : Prop :=
  ∀ mid ips pre, s.log = mid ++ .joined ips :: pre → ∀ i ∈ ips,
    .flushed i ∈ mid ∨ InRun s i ∨ (s.inode i).sideq = true ∧ (.started ∈ mid → FirstPass s)

/-- **Flushed together**: when a run ends, inodes joined before are both flushed or both not. -/
def FlushedTogether (log : List SyncEvent) : Prop :=
  ∀ post mid ips pre, log = post ++ .ended :: (mid ++ .joined ips :: pre) →
    ∀ i ∈ ips, ∀ j ∈ ips, (.flushed i ∈ mid ↔ .flushed j ∈ mid)

/-- When a run ends, inodes joined before it started are flushed. -/
def FlushedByEnd (log : List SyncEvent) : Prop :=
  ∀ post mid ips pre, log = post ++ .ended :: (mid ++ .joined ips :: pre) → .started ∈ mid →
    ∀ i ∈ ips, .flushed i ∈ mid

section
variable {a : SyncQAct} {e : Option SyncEvent}

theorem mem_toList_append {x : SyncEvent} {mid : List SyncEvent} :
    x ∈ e.toList ++ mid ↔ e = some x ∨ x ∈ mid := by
  rw [List.mem_append, Option.mem_toList]

/-- An advance keeps the joins paired. -/
theorem Advance.joinsPaired (h : Advance s a t e) (hal : RootAlone s a) (hs : JoinsPaired s) :
    JoinsPaired t := by
  intro mid ips pre hlog i hi j hj
  rw [h.log] at hlog
  rcases split_log hlog with ⟨he, rfl⟩ | ⟨mid, rfl, hold⟩
  · exact (h.joined ips he i hi j hj).imp (fun hg => ⟨hg, by simp, by simp⟩) fun hr =>
      ⟨.inr hr.1, .inr hr.2⟩
  · have hbound : ∀ k, .flushed k ∈ mid ∨ InRun s k → .flushed k ∈ e.toList ++ mid ∨ InRun t k := by
      intro k hk
      rw [mem_toList_append]
      rcases hk with hk | hk
      · exact .inl (.inr hk)
      · exact (h.inRun k hk).imp_left .inl
    rcases hs mid ips pre hold i hi j hj with ⟨hg, hni, hnj⟩ | ⟨hbi, hbj⟩
    · simp only [Paired, mem_toList_append, not_or]
      rcases h.groups hal i j hg with ⟨hg, hei, hej⟩ | ⟨hri, hrj⟩
      · exact .inl ⟨hg, ⟨hei, hni⟩, hej, hnj⟩
      · exact .inr ⟨hri.imp_left .inl, hrj.imp_left .inl⟩
    · exact .inr ⟨hbound i hbi, hbound j hbj⟩

/-- It keeps them reached. -/
theorem Advance.joinsReached (h : Advance s a t e) (hs : JoinsReached s) : JoinsReached t := by
  intro mid ips pre hlog i hi
  rw [h.log] at hlog
  rcases split_log hlog with ⟨he, rfl⟩ | ⟨mid, rfl, hold⟩
  · rcases h.joined ips he i hi i hi with hg | hr
    · exact .inr (.inr ⟨hg.1, nofun⟩)
    · exact .inr (.inl hr.1)
  · simp only [mem_toList_append]
    rcases hs mid ips pre hold i hi with hf | hr | ⟨hside, hstart⟩
    · exact .inl (.inr hf)
    · exact (h.inRun i hr).imp .inl .inl
    · rcases h.sideq i hside with hf | hr | hside'
      · exact .inl (.inl hf)
      · exact .inr (.inl hr)
      · by_cases hrun : InRun t i
        · exact .inr (.inl hrun)
        · refine .inr (.inr ⟨hside', ?_⟩)
          rintro (he | hmid)
          · exact h.started he
          · exact (h.first (hstart hmid)).resolve_right fun hr => hrun (hr i hside)

/-- An end of a run in the log after a step is that step, or stands in the log before it. -/
theorem Advance.split_ended {post rest : List SyncEvent} (h : Advance s a t e)
    (hlog : t.log = post ++ .ended :: rest) :
    ((∀ i, ¬ InRun t i) ∧ ¬ FirstPass t) ∧ t.log = .ended :: rest ∨
      ∃ post', s.log = post' ++ .ended :: rest := by
  have hlog' := hlog
  rw [h.log] at hlog'
  cases e with
  | none => exact .inr ⟨post, hlog'⟩
  | some e =>
    cases post with
    | nil =>
      simp only [Option.toList_some, List.singleton_append, List.nil_append,
        List.cons.injEq] at hlog'
      exact .inl ⟨h.ended (congrArg some hlog'.1), hlog⟩
    | cons x post =>
      simp only [Option.toList_some, List.cons_append, List.cons.injEq] at hlog'
      exact .inr ⟨post, hlog'.2⟩

/-- An advance keeps what was joined flushed together. -/
theorem Advance.flushedTogether (h : Advance s a t e) (ht : JoinsPaired t)
    (hs : FlushedTogether s.log) : FlushedTogether t.log := by
  intro post mid ips pre hlog i hi j hj
  rcases h.split_ended hlog with ⟨⟨hrun, -⟩, hlog⟩ | ⟨post', hlog⟩
  · rcases ht (.ended :: mid) ips pre hlog i hi j hj with ⟨-, hni, hnj⟩ | ⟨hbi, hbj⟩
    · simp only [List.mem_cons, reduceCtorEq, false_or] at hni hnj
      exact iff_of_false hni hnj
    · have hfi := hbi.resolve_right (hrun i)
      have hfj := hbj.resolve_right (hrun j)
      simp only [List.mem_cons, reduceCtorEq, false_or] at hfi hfj
      exact iff_of_true hfi hfj
  · exact hs post' mid ips pre hlog i hi j hj

/-- It keeps what was joined flushed by the end. -/
theorem Advance.flushedByEnd (h : Advance s a t e) (ht : JoinsReached t) (hs : FlushedByEnd s.log) :
    FlushedByEnd t.log := by
  intro post mid ips pre hlog hstart i hi
  rcases h.split_ended hlog with ⟨⟨hrun, hfirst⟩, hlog⟩ | ⟨post', hlog⟩
  · rcases ht (.ended :: mid) ips pre hlog i hi with hf | hr | ⟨-, hfp⟩
    · simpa using hf
    · exact absurd hr (hrun i)
    · exact absurd (hfp (List.mem_cons_of_mem _ hstart)) hfirst
  · exact hs post' mid ips pre hlog hstart i hi

end

/-- **The queues keep dependent inodes together**: over every run of the front end and the syncer
the queues are in order, and a run of the syncer that starts after a join flushes its inodes; and if
the root inode, each time it is flushed behind the last pass, is in no group with another inode,
then no run flushes one of two inodes that were joined without the other. -/
theorem syncQueues_together (iroot : Option Ip) (as : List SyncQAct) (s : SyncQueues)
    (h : Transition.Run Step (.start iroot) as s) :
    Queued s ∧ FlushedByEnd s.log ∧
      (Transition.RunMeets Step RootAlone (.start iroot) as s → FlushedTogether s.log) := by
  have hrun : Queued s ∧ Staged s ∧ JoinsReached s ∧ FlushedByEnd s.log := by
    refine Transition.Run.invariant (I := fun s => Queued s ∧ Staged s ∧ JoinsReached s ∧
      FlushedByEnd s.log) ?_ h ⟨.start iroot, .start iroot, ?_, ?_⟩
    · rintro s a t ⟨hq, hst, hr, hf⟩ hstep
      obtain ⟨e, ha⟩ := hstep.advance hq hst
      have hr' := ha.joinsReached hr
      exact ⟨hq.step hstep, hst.step hq hstep, hr', ha.flushedByEnd hr' hf⟩
    · simp [JoinsReached, SyncQueues.start]
    · simp [FlushedByEnd, SyncQueues.start]
  refine ⟨hrun.1, hrun.2.2.2, fun hmeets => ?_⟩
  refine (Transition.RunMeets.invariant (I := fun s => Queued s ∧ Staged s ∧ JoinsPaired s ∧
    FlushedTogether s.log) ?_ hmeets ⟨.start iroot, .start iroot, ?_, ?_⟩).2.2.2
  · rintro s a t ⟨hq, hst, hp, hf⟩ hal hstep
    obtain ⟨e, ha⟩ := hstep.advance hq hst
    have hp' := ha.joinsPaired hal hp
    exact ⟨hq.step hstep, hst.step hq hstep, hp', ha.flushedTogether hp' hf⟩
  · simp [JoinsPaired, SyncQueues.start]
  · simp [FlushedTogether, SyncQueues.start]

/-- Two inodes are joined and synced. -/
def pairTrace : List SyncQAct :=
  [.inodeDepend 1 2, .syncStart, .clearRescan, .move, .pop, .relock,
    .flush, .settle false, .clearPass2,
    .release, .pop, .relock, .flush, .settle false, .clearPass2, .release, .loopEnd, .restart,
    .flushRoot, .syncDone]

/-- Two inodes joined and flushed. -/
theorem syncQueues_together_pair :
    ∃ s, Transition.Run Step (.start (some 0)) pairTrace s ∧ Queued s ∧ FlushedByEnd s.log ∧
      FlushedTogether s.log := by
  have hrun : ∃ s, Transition.RunMeets Step RootAlone (.start (some 0)) pairTrace s := by
    refine ⟨_, .cons nofun rfl (.cons nofun rfl (.cons nofun rfl (.cons nofun rfl (.cons nofun rfl
      (.cons nofun rfl (.cons nofun rfl (.cons nofun rfl (.cons nofun rfl (.cons nofun rfl
      (.cons nofun rfl (.cons nofun rfl (.cons nofun rfl (.cons nofun rfl (.cons nofun rfl
      (.cons nofun rfl (.cons nofun rfl (.cons nofun rfl (.cons ?_ rfl (.cons nofun rfl
      (.nil _))))))))))))))))))))⟩
    rintro - r ⟨⟩ i ⟨hside, -⟩
    exact absurd hside (by decide)
  obtain ⟨s, hmeets⟩ := hrun
  have hplain : Transition.Run Step (.start (some 0)) pairTrace s := hmeets.run
  obtain ⟨hq, hf, ht⟩ := syncQueues_together (some 0) pairTrace s hplain
  exact ⟨s, hplain, hq, hf, ht hmeets⟩

/-- An operation joins the root inode and another one while the syncer is at work. -/
def rootTrace : List SyncQAct :=
  [.syncStart, .clearRescan, .move, .inodeDepend 0 1, .loopEnd, .restart, .flushRoot, .syncDone]

/-- The root inode is flushed behind the last pass, and the inode it was joined to is not. -/
theorem root_flushed_alone :
    ∃ s, Transition.Run Step (.start (some 0)) rootTrace s ∧ ¬ FlushedTogether s.log := by
  have hrun : ∃ s, Transition.Run Step (.start (some 0)) rootTrace s ∧
      s.log = [.ended, .flushed 0, .joined [0, 1], .started] :=
    ⟨_,
      .cons trivial rfl (.cons trivial rfl (.cons trivial rfl (.cons trivial rfl (.cons trivial rfl
      (.cons trivial rfl (.cons trivial rfl (.cons trivial rfl (.nil _)))))))), rfl⟩
  obtain ⟨s, hs, hlog⟩ := hrun
  refine ⟨s, hs, fun h => ?_⟩
  have hiff := h [] [.flushed 0] [0, 1] [.started] hlog 0 (by simp) 1 (by simp)
  simp at hiff

end

end Hammer2
