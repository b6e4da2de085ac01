import Hammer2.Lib.Run

/-!
# The inode sync queues

A dirty inode stands on a side queue, in the group of inodes that must reach the media together: its
dependency, a structure inside one of the members. Operations on several inodes merge their groups.
`hammer2_vfs_sync_pmp` dissolves the groups onto `syncq` and flushes the inodes from there one by
one; what is joined to an inode it has not flushed yet is marked to be taken in a further pass of
the same run (`pass2`, `HAMMER2_TRANS_RESCAN`).

A step is one section of code under `pmp->list_spin`, or one of the syncer's own steps between two
of them. The inode locks are left out, so that every interleaving they allow is a run here. The
queues keep their invariant (`Queued`) over every run.

Reference: `hammer2_inode.c:75-195`, `hammer2_inode.c:217-401`, `hammer2_vfsops.c:3054-3375`.
-/

namespace Hammer2

/-! ## The queues -/

/-- An inode, by number. -/
abbrev Ip := Nat

/-- What the queues keep in an inode; `refs` are the references of the queues and the syncer. -/
structure QueueInode where
  sideq : Bool
  syncq : Bool
  syncqPass2 : Bool
  depend : Option Ip
  refs : Nat

/-- `hammer2_depend`. -/
structure Depend where
  sideq : List Ip
  count : Int
  pass2 : Bool

/-- A dependency that is not in use. -/
def Depend.unused : Depend := ⟨[], 0, false⟩

/-- Where `hammer2_vfs_sync_pmp` stands. -/
inductive SyncPhase
  | idle
  /-- At the label `restart`. -/
  | clear
  | move
  /-- At the head of the loop over `syncq`. -/
  | loop
  /-- Has taken an inode off `syncq`. -/
  | hand (ip : Ip)
  /-- Has the lock of an inode that is on no queue. -/
  | flushing (ip : Ip)
  | flushed (ip : Ip)
  | settled (ip : Ip)
  /-- Before the reference to the inode is dropped. -/
  | release (ip : Ip)
  /-- Behind the loop. -/
  | check
  | stage2
  | done
  deriving DecidableEq

/-- What happened that the order of flushes is judged by. -/
inductive SyncEvent
  /-- The inodes were joined by `hammer2_inode_lock4` or `hammer2_inode_depend`. -/
  | joined (ips : List Ip)
  | flushed (ip : Ip)
  /-- A run of `hammer2_vfs_sync_pmp` begins. -/
  | started
  | ended
  deriving DecidableEq

/-- The queues of a PFS and the syncer; `dep ip` is `ip->depend_static`, the last event is the head
of `log`. -/
structure SyncQueues where
  iroot : Option Ip
  inode : Ip → QueueInode
  dep : Ip → Depend
  depq : List Ip
  syncq : List Ip
  sideqCount : Int
  rescan : Bool
  dorestart : Bool
  phase : SyncPhase
  log : List SyncEvent

/-- A PFS with nothing queued. -/
def SyncQueues.start (iroot : Option Ip) : SyncQueues where
  iroot := iroot
  inode := fun _ => ⟨false, false, false, none, 0⟩
  dep := fun _ => .unused
  depq := []
  syncq := []
  sideqCount := 0
  rescan := false
  dorestart := false
  phase := .idle
  log := []

namespace SyncQueues

/-- Changes an inode. -/
def setInode (s : SyncQueues) (ip : Ip) (f : QueueInode → QueueInode) : SyncQueues :=
  { s with inode := Function.update s.inode ip (f (s.inode ip)) }

/-- `depend->pass2 = 1`. -/
def setPass2 (s : SyncQueues) (d : Ip) : SyncQueues :=
  { s with dep := Function.update s.dep d { s.dep d with pass2 := true } }

/-- Adds an inode to the side queue of a dependency. -/
def enter (s : SyncQueues) (ip d : Ip) : SyncQueues :=
  { s with
    inode := Function.update s.inode ip
      { s.inode ip with sideq := true, depend := some d, refs := (s.inode ip).refs + 1 }
    dep := Function.update s.dep d
      { s.dep d with sideq := (s.dep d).sideq ++ [ip], count := (s.dep d).count + 1 }
    sideqCount := s.sideqCount + 1 }

/-- Puts the dependency inside an inode to use. -/
def newDepend (s : SyncQueues) (ip : Ip) (pass2 : Bool) : SyncQueues :=
  { s with
    dep := Function.update s.dep ip { s.dep ip with pass2 := (s.dep ip).pass2 || pass2 }
    depq := s.depq ++ [ip] }

/-- Moves all inodes of the dependency `dtmp` to the dependency `d`. -/
def merge (s : SyncQueues) (d dtmp : Ip) : SyncQueues :=
  { s with
    inode := fun i =>
      if i ∈ (s.dep dtmp).sideq then { s.inode i with depend := some d } else s.inode i
    dep := Function.update (Function.update s.dep d
      ⟨(s.dep d).sideq ++ (s.dep dtmp).sideq, (s.dep d).count + (s.dep dtmp).count,
        (s.dep d).pass2 || (s.dep dtmp).pass2⟩) dtmp .unused
    depq := s.depq.erase dtmp }

end SyncQueues

/-- The dependency passed to `hammer2_inode_setdepend_locked`: `NULL`, `(void *)-1` or one. -/
inductive DependArg
  | null
  | minusOne
  | on (d : Ip)
  deriving DecidableEq

namespace SyncQueues

/-- The dependency of an inode that is on a side queue. -/
def dependOf (s : SyncQueues) (ip : Ip) : Ip := (s.inode ip).depend.getD ip

/-- The middle of `hammer2_inode_setdepend_locked`: the inode with its dependency merged with the
one passed in, and the result. -/
def associate (s : SyncQueues) (ip : Ip) (depend : DependArg) : SyncQueues × Ip :=
  if (s.inode ip).sideq then
    match depend with
    | .null => (s, s.dependOf ip)
    | .minusOne => (s.setPass2 (s.dependOf ip), s.dependOf ip)
    | .on d => if d = s.dependOf ip then (s, d) else (s.merge d (s.dependOf ip), d)
  else
    match depend with
    | .null => ((s.newDepend ip false).enter ip ip, ip)
    | .minusOne => ((s.newDepend ip true).enter ip ip, ip)
    | .on d => (s.enter ip d, d)

/-- The end of `hammer2_inode_setdepend_locked`: `pass2` for an inode the syncer holds, and a rescan
for `pass2`. -/
def propagate (s : SyncQueues) (ip d : Ip) : SyncQueues :=
  let s := if (s.inode ip).syncqPass2 then s.setPass2 d else s
  { s with rescan := s.rescan || (s.dep d).pass2 }

/-- `hammer2_inode_setdepend_locked`. -/
def setdependLocked (s : SyncQueues) (ip : Ip) (depend : DependArg) : SyncQueues × DependArg :=
  if (s.inode ip).syncq then
    match depend with
    | .on d => ({ s.setPass2 d with rescan := true }, .on d)
    | _ => (s, .minusOne)
  else
    let r := s.associate ip depend
    (r.1.propagate ip r.2, .on r.2)

/-- `hammer2_inode_delayed_sideq`. -/
def delayedSideq (s : SyncQueues) (ip : Ip) : SyncQueues :=
  if (s.inode ip).syncq ∨ (s.inode ip).sideq then s else (s.setdependLocked ip .null).1

/-- Moves an inode on `syncq` to its head. -/
def toFront (s : SyncQueues) (ip : Ip) : SyncQueues :=
  if (s.inode ip).syncq then { s with syncq := ip :: s.syncq.erase ip } else s

/-- Records an event. -/
def record (s : SyncQueues) (e : SyncEvent) : SyncQueues := { s with log := e :: s.log }

/-- The loop of `hammer2_inode_lock4` at one inode. -/
def lock4Step (r : SyncQueues × DependArg) (ip : Ip) : SyncQueues × DependArg :=
  let r' := r.1.setdependLocked ip r.2
  (r'.1.toFront ip, r'.2)

/-- The association of `hammer2_inode_lock4`, which is made again after each sleep. -/
def lock4 (s : SyncQueues) (ips : List Ip) : SyncQueues :=
  (ips.foldl lock4Step (s, .null)).1.record (.joined ips)

/-- `hammer2_inode_depend`. -/
def inodeDepend (s : SyncQueues) (ip1 ip2 : Ip) : SyncQueues :=
  let r := s.setdependLocked ip1 .null
  (r.1.setdependLocked ip2 r.2).1.record (.joined [ip1, ip2])

/-- Moves the inodes of a dependency to `syncq`. -/
def moveGroup (s : SyncQueues) (d : Ip) : SyncQueues :=
  { s with
    inode := fun i => if i ∈ (s.dep d).sideq then
      { s.inode i with syncq := true, sideq := false, depend := none } else s.inode i
    syncq := s.syncq ++ (s.dep d).sideq
    dep := Function.update s.dep d .unused
    depq := s.depq.erase d }

/-- The loop over `depq`; on a restart only dependencies with `pass2` are moved. -/
def moveGroups (s : SyncQueues) : SyncQueues :=
  s.depq.foldl (fun s d =>
    if s.dorestart = true ∧ (s.dep d).pass2 = false then s else s.moveGroup d) s

/-- Takes the first inode off `syncq`. -/
def pop (s : SyncQueues) (ip : Ip) (rest : List Ip) : SyncQueues :=
  { s.setInode ip fun i => { i with syncq := false, syncqPass2 := true } with
    syncq := rest
    sideqCount := s.sideqCount - 1
    phase := .hand ip }

/-- `hammer2_inode_drop`. -/
def drop (s : SyncQueues) (ip : Ip) : SyncQueues :=
  s.setInode ip fun i => { i with refs := i.refs - 1 }

/-- The syncer moves on. -/
def goto (s : SyncQueues) (phase : SyncPhase) : SyncQueues := { s with phase := phase }

end SyncQueues

/-- The steps: those of the front end, then those of `hammer2_vfs_sync_pmp` in order. -/
inductive SyncQAct
  | delayedSideq (ip : Ip)
  /-- The locked half of `hammer2_inode_delayed_sideq`, whose test was made earlier. -/
  | sideqLocked (ip : Ip)
  | inodeDepend (ip1 ip2 : Ip)
  | lock4 (ips : List Ip)
  /-- `hammer2_inode_lock` on an inode that is on `syncq`. -/
  | lock (ip : Ip)
  | syncStart
  | clearRescan
  | move
  | pop
  | loopEnd
  /-- `igrab` fails. -/
  | requeue
  | relock
  | flush
  /-- The flush left the inode dirty, or clean. -/
  | settle (dirty : Bool)
  | clearPass2
  | release
  | restart
  | flushRoot
  | syncDone
  deriving DecidableEq

namespace SyncQueues

/-- The state after a step, if it can be taken. -/
def next (s : SyncQueues) : SyncQAct → Option SyncQueues
  | .delayedSideq ip => some (s.delayedSideq ip)
  | .sideqLocked ip => some (s.setdependLocked ip .null).1
  | .inodeDepend ip1 ip2 => some (s.inodeDepend ip1 ip2)
  | .lock4 ips => some (s.lock4 ips)
  | .lock ip => some (s.toFront ip)
  | .syncStart =>
    if s.phase = .idle then some { s.record .started with phase := .clear, dorestart := false }
    else none
  | .clearRescan =>
    if s.phase = .clear then some { s with phase := .move, rescan := false } else none
  | .move =>
    if s.phase = .move then some { s.moveGroups with phase := .loop, dorestart := false } else none
  | .pop =>
    match s.phase, s.syncq with
    | .loop, ip :: rest => some (s.pop ip rest)
    | _, _ => none
  | .loopEnd =>
    match s.phase, s.syncq with
    | .loop, [] => some (s.goto .check)
    | _, _ => none
  | .requeue =>
    match s.phase with
    | .hand ip => some { s.delayedSideq ip with phase := .release ip, dorestart := true }
    | _ => none
  | .relock =>
    match s.phase with
    | .hand ip =>
      if (s.inode ip).sideq then some { s with phase := .release ip, dorestart := true }
      else some (s.goto (.flushing ip))
    | _ => none
  | .flush =>
    match s.phase with
    | .flushing ip => some ((s.record (.flushed ip)).goto (.flushed ip))
    | _ => none
  | .settle dirty =>
    match s.phase with
    | .flushed ip => some ((if dirty then s.delayedSideq ip else s).goto (.settled ip))
    | _ => none
  | .clearPass2 =>
    match s.phase with
    | .settled ip =>
      some ((s.setInode ip fun i => { i with syncqPass2 := false }).goto (.release ip))
    | _ => none
  | .release =>
    match s.phase with
    | .release ip => some ((s.drop ip).goto .loop)
    | _ => none
  | .restart =>
    if s.phase = .check then
      if s.dorestart ∨ s.rescan then some { s with phase := .clear, dorestart := true }
      else some (s.goto .stage2)
    else none
  | .flushRoot =>
    if s.phase = .stage2 then
      match s.iroot with
      | some ip => some ((s.record (.flushed ip)).goto .done)
      | none => some (s.goto .done)
    else none
  | .syncDone => if s.phase = .done then some ((s.record .ended).goto .idle) else none

/-- A step of the queues. -/
def Step (s : SyncQueues) (a : SyncQAct) (t : SyncQueues) : Prop := s.next a = some t

end SyncQueues

/-! ## The invariant -/

/-- The syncer has the reference that the queue had. -/
def SyncPhase.holds (ip : Ip) : SyncPhase → Bool
  | .hand i => i = ip
  | .flushing i => i = ip
  | .flushed i => i = ip
  | .settled i => i = ip
  | .release i => i = ip
  | _ => false

/-- The number of inodes on the queues. -/
def SyncQueues.queuedCount (s : SyncQueues) : Nat :=
  (s.depq.map fun d => (s.dep d).sideq.length).sum + s.syncq.length

/-- The queues agree with the inodes: an inode is on the side queue of its dependency or on `syncq`
as its flags say, a dependency in use belongs to one of its members, and the counts are right. -/
structure Queued (s : SyncQueues) : Prop where
  mem : ∀ ip d, ip ∈ (s.dep d).sideq ↔ (s.inode ip).sideq = true ∧ (s.inode ip).depend = some d
  placed : ∀ ip, (s.inode ip).sideq = true → ∃ d ∈ s.depq, (s.inode ip).depend = some d
  owner : ∀ d ∈ s.depq, d ∈ (s.dep d).sideq
  unused : ∀ d, d ∉ s.depq → s.dep d = .unused
  depq_nodup : s.depq.Nodup
  sideq_nodup : ∀ d, (s.dep d).sideq.Nodup
  count : ∀ d, (s.dep d).count = (s.dep d).sideq.length
  syncq : ∀ ip, ip ∈ s.syncq ↔ (s.inode ip).syncq = true
  syncq_nodup : s.syncq.Nodup
  apart : ∀ ip, ¬ ((s.inode ip).sideq = true ∧ (s.inode ip).syncq = true)
  total : s.sideqCount = s.queuedCount
  refs : ∀ ip, (s.inode ip).refs =
    ((s.inode ip).sideq || (s.inode ip).syncq).toNat + (s.phase.holds ip).toNat

namespace SyncQueues

variable (s : SyncQueues) (d e i : Ip)

@[simp] theorem merge_sideq : ((s.merge d e).inode i).sideq = (s.inode i).sideq := by
  unfold merge
  dsimp only
  split <;> rfl

@[simp] theorem merge_syncq : ((s.merge d e).inode i).syncq = (s.inode i).syncq := by
  unfold merge
  dsimp only
  split <;> rfl

@[simp] theorem merge_syncqPass2 :
    ((s.merge d e).inode i).syncqPass2 = (s.inode i).syncqPass2 := by
  unfold merge
  dsimp only
  split <;> rfl

@[simp] theorem merge_refs : ((s.merge d e).inode i).refs = (s.inode i).refs := by
  unfold merge
  dsimp only
  split <;> rfl

/-- The inode at the head leaves the queue. -/
theorem pop_self (rest : List Ip) : (s.pop i rest).inode i =
    { s.inode i with syncq := false, syncqPass2 := true } := by
  simp [pop, setInode]

variable {d i e}

theorem pop_of_ne (rest : List Ip) (hi : i ≠ e) : (s.pop e rest).inode i = s.inode i := by
  simp [pop, setInode, hi]

variable {s}

/-- A member of the group goes to the sync queue. -/
theorem moveGroup_of_mem (hi : i ∈ (s.dep d).sideq) : (s.moveGroup d).inode i =
    { s.inode i with syncq := true, sideq := false, depend := none } := if_pos hi

theorem moveGroup_of_notMem (hi : i ∉ (s.dep d).sideq) : (s.moveGroup d).inode i = s.inode i :=
  if_neg hi

end SyncQueues

namespace Queued

variable {s : SyncQueues} {ip d : Ip}

/-- The queues start empty. -/
theorem start (iroot : Option Ip) : Queued (.start iroot) := by
  constructor <;> simp [SyncQueues.start, Depend.unused, SyncPhase.holds, SyncQueues.queuedCount]

/-- The dependency of an inode on a side queue. -/
theorem depend_eq (h : Queued s) (hip : (s.inode ip).sideq = true) :
    s.dependOf ip ∈ s.depq ∧ (s.inode ip).depend = some (s.dependOf ip) ∧
      ip ∈ (s.dep (s.dependOf ip)).sideq := by
  obtain ⟨d, hd, hdep⟩ := h.placed ip hip
  have hof : s.dependOf ip = d := by rw [SyncQueues.dependOf, hdep, Option.getD_some]
  rw [hof]
  exact ⟨hd, hdep, (h.mem ip d).2 ⟨hip, hdep⟩⟩

/-- A mark for the second pass keeps the queues. -/
theorem setPass2 (h : Queued s) (hd : d ∈ s.depq) : Queued (s.setPass2 d) := by
  have hside : ∀ e, ((s.setPass2 d).dep e).sideq = (s.dep e).sideq := by
    intro e
    by_cases he : e = d
    · subst he
      simp [SyncQueues.setPass2]
    · simp [SyncQueues.setPass2, he]
  have hcount : ∀ e, ((s.setPass2 d).dep e).count = (s.dep e).count := by
    intro e
    by_cases he : e = d
    · subst he
      simp [SyncQueues.setPass2]
    · simp [SyncQueues.setPass2, he]
  refine ⟨fun i e => hside e ▸ h.mem i e, h.placed, fun e he => hside e ▸ h.owner e he, ?_,
    h.depq_nodup, fun e => hside e ▸ h.sideq_nodup e, fun e => hcount e ▸ hside e ▸ h.count e,
    h.syncq, h.syncq_nodup, h.apart, ?_, h.refs⟩
  · intro e he
    have hne : e ≠ d := fun hed => he (hed ▸ hd)
    rw [SyncQueues.setPass2]
    dsimp only
    rw [Function.update_of_ne hne]
    exact h.unused e he
  · have htotal := h.total
    simp only [SyncQueues.queuedCount, hside] at htotal ⊢
    exact htotal

/-- The invariant only reads the queues. -/
theorem congr {t : SyncQueues} (h : Queued s) (hside : ∀ i, (t.inode i).sideq = (s.inode i).sideq)
    (hsync : ∀ i, (t.inode i).syncq = (s.inode i).syncq)
    (hdepend : ∀ i, (t.inode i).depend = (s.inode i).depend)
    (hrefs : ∀ i, (t.inode i).refs + (s.phase.holds i).toNat =
      (s.inode i).refs + (t.phase.holds i).toNat)
    (hdep : t.dep = s.dep) (hdepq : t.depq = s.depq) (hsyncq : t.syncq = s.syncq)
    (hcount : t.sideqCount = s.sideqCount) : Queued t := by
  refine ⟨?_, ?_, ?_, ?_, ?_, ?_, ?_, ?_, ?_, ?_, ?_, ?_⟩
  · intro i d
    rw [hdep, hside, hdepend]
    exact h.mem i d
  · intro i
    rw [hside, hdepq, hdepend]
    exact h.placed i
  · rw [hdepq, hdep]
    exact h.owner
  · rw [hdepq, hdep]
    exact h.unused
  · rw [hdepq]
    exact h.depq_nodup
  · rw [hdep]
    exact h.sideq_nodup
  · rw [hdep]
    exact h.count
  · intro i
    rw [hsyncq, hsync]
    exact h.syncq i
  · rw [hsyncq]
    exact h.syncq_nodup
  · intro i
    rw [hside, hsync]
    exact h.apart i
  · rw [hcount, h.total, SyncQueues.queuedCount, SyncQueues.queuedCount, hdepq, hdep, hsyncq]
  · intro i
    have h₁ := h.refs i
    have h₂ := hrefs i
    rw [hside, hsync]
    omega

/-- The sum over the dependencies after one of them has changed. -/
theorem sum_map_of_mem {f g : Ip → Nat} {ds : List Ip} (hnodup : ds.Nodup) (hd : d ∈ ds)
    (hfg : ∀ e ≠ d, f e = g e) : (ds.map f).sum + g d = (ds.map g).sum + f d := by
  have hrest : (ds.erase d).map f = (ds.erase d).map g :=
    List.map_congr_left fun e he => hfg e fun hed => hnodup.not_mem_erase (hed ▸ he)
  have hf := List.sum_map_erase f hd
  have hg := List.sum_map_erase g hd
  rw [hrest] at hf
  omega

/-- An inode on no queue enters the side queue of a dependency in use, or of its own. -/
theorem entered {t : SyncQueues} {x : Depend} (h : Queued s) (hside : (s.inode ip).sideq = false)
    (hsync : (s.inode ip).syncq = false)
    (hinode : t.inode = Function.update s.inode ip
      { s.inode ip with sideq := true, depend := some d, refs := (s.inode ip).refs + 1 })
    (hdep : t.dep = Function.update s.dep d x) (hx : x.sideq = (s.dep d).sideq ++ [ip])
    (hxc : x.count = (s.dep d).count + 1)
    (hdepq : d ∈ s.depq ∧ t.depq = s.depq ∨ d = ip ∧ t.depq = s.depq ++ [ip])
    (hsyncq : t.syncq = s.syncq) (hcount : t.sideqCount = s.sideqCount + 1)
    (hphase : t.phase = s.phase) : Queued t := by
  have hnot : ∀ e, ip ∉ (s.dep e).sideq := fun e he => by simp [((h.mem ip e).1 he).1] at hside
  have hfree : ip ∉ s.depq := fun hip => hnot ip (h.owner ip hip)
  have hsub : ∀ e ∈ s.depq, e ∈ t.depq := by
    intro e he
    rcases hdepq with ⟨-, hq⟩ | ⟨-, hq⟩ <;> simp [hq, he]
  have hdt : d ∈ t.depq := by
    rcases hdepq with ⟨hd, hq⟩ | ⟨rfl, hq⟩ <;> simp [*]
  have hin : ∀ i, i ≠ ip → t.inode i = s.inode i := fun i hi => by
    rw [hinode, Function.update_of_ne hi]
  have hself : t.inode ip =
      { s.inode ip with sideq := true, depend := some d, refs := (s.inode ip).refs + 1 } := by
    rw [hinode, Function.update_self]
  have hother : ∀ e, e ≠ d → t.dep e = s.dep e := fun e he => by rw [hdep, Function.update_of_ne he]
  have hnew : t.dep d = x := by rw [hdep, Function.update_self]
  refine ⟨?_, ?_, ?_, ?_, ?_, ?_, ?_, ?_, ?_, ?_, ?_, ?_⟩
  · intro i e
    by_cases hi : i = ip
    · subst hi
      rw [hself]
      by_cases he : e = d
      · subst he
        simp [hnew, hx]
      · simp [hother e he, hnot e, Ne.symm he]
    · rw [hin i hi, ← h.mem i e]
      by_cases he : e = d
      · subst he
        simp [hnew, hx, hi]
      · rw [hother e he]
  · intro i hi
    by_cases hip : i = ip
    · subst hip
      exact ⟨d, hdt, by rw [hself]⟩
    · rw [hin i hip] at hi ⊢
      exact (h.placed i hi).imp fun e he => ⟨hsub e he.1, he.2⟩
  · intro e he
    by_cases hed : e = d
    · subst hed
      rw [hnew, hx]
      rcases hdepq with ⟨hd, -⟩ | ⟨rfl, -⟩
      · exact List.mem_append_left _ (h.owner e hd)
      · simp
    · rw [hother e hed]
      refine h.owner e ?_
      rcases hdepq with ⟨-, hq⟩ | ⟨rfl, hq⟩
      · rwa [hq] at he
      · simpa [hq, hed] using he
  · intro e he
    rw [hother e fun hed => he (hed ▸ hdt)]
    exact h.unused e fun hs => he (hsub e hs)
  · rcases hdepq with ⟨-, hq⟩ | ⟨-, hq⟩ <;> rw [hq]
    · exact h.depq_nodup
    · exact List.nodup_append.2 ⟨h.depq_nodup, by simp,
        by simpa using fun e he => ne_of_mem_of_not_mem he hfree⟩
  · intro e
    by_cases hed : e = d
    · subst hed
      rw [hnew, hx]
      exact List.nodup_append.2 ⟨h.sideq_nodup e, by simp,
        by simpa using fun i hi => ne_of_mem_of_not_mem hi (hnot e)⟩
    · rw [hother e hed]
      exact h.sideq_nodup e
  · intro e
    by_cases hed : e = d
    · subst hed
      rw [hnew, hx, hxc, h.count]
      simp
    · rw [hother e hed]
      exact h.count e
  · intro i
    rw [hsyncq, h.syncq]
    by_cases hi : i = ip
    · rw [hi, hself]
    · rw [hin i hi]
  · rw [hsyncq]
    exact h.syncq_nodup
  · intro i
    by_cases hi : i = ip
    · rw [hi, hself]
      simp [hsync]
    · rw [hin i hi]
      exact h.apart i
  · have hlen : (t.dep d).sideq.length = (s.dep d).sideq.length + 1 := by simp [hnew, hx]
    have hsum : ∀ e ≠ d, (t.dep e).sideq.length = (s.dep e).sideq.length :=
      fun e he => by rw [hother e he]
    rw [hcount, h.total, SyncQueues.queuedCount, SyncQueues.queuedCount, hsyncq]
    rcases hdepq with ⟨hd, hq⟩ | ⟨rfl, hq⟩
    · have := sum_map_of_mem h.depq_nodup hd hsum
      rw [hq]
      omega
    · have hold : (s.dep d).sideq.length = 0 := by simp [h.unused d hfree, Depend.unused]
      have hmap : s.depq.map (fun e => (t.dep e).sideq.length) =
          s.depq.map fun e => (s.dep e).sideq.length :=
        List.map_congr_left fun e he => hsum e (ne_of_mem_of_not_mem he hfree)
      rw [hq, List.map_append, List.sum_append, hmap]
      simp only [List.map_cons, List.map_nil, List.sum_singleton, hlen, hold]
      omega
  · intro i
    rw [hphase]
    by_cases hi : i = ip
    · subst hi
      rw [hself, h.refs, hside, hsync]
      simp
      omega
    · rw [hin i hi]
      exact h.refs i

/-- An inode that is on no queue enters a group. -/
theorem enter (h : Queued s) (hd : d ∈ s.depq) (hside : (s.inode ip).sideq = false)
    (hsync : (s.inode ip).syncq = false) : Queued (s.enter ip d) :=
  h.entered hside hsync rfl rfl rfl rfl (.inl ⟨hd, rfl⟩) rfl rfl rfl

/-- An inode on no queue enters the side queue of its own dependency. -/
theorem selfDepend (h : Queued s) (pass2 : Bool) (hside : (s.inode ip).sideq = false)
    (hsync : (s.inode ip).syncq = false) : Queued ((s.newDepend ip pass2).enter ip ip) := by
  refine h.entered (t := (s.newDepend ip pass2).enter ip ip) hside hsync rfl
    (x := ⟨(s.dep ip).sideq ++ [ip], (s.dep ip).count + 1, (s.dep ip).pass2 || pass2⟩) ?_ rfl rfl
    (.inr ⟨rfl, rfl⟩) rfl rfl rfl
  simp [SyncQueues.enter, SyncQueues.newDepend]

/-- Two dependencies have no inode in common. -/
theorem disjoint (h : Queued s) {e : Ip} (hne : e ≠ d) {i : Ip} (hi : i ∈ (s.dep d).sideq) :
    i ∉ (s.dep e).sideq := by
  intro he
  have hd := ((h.mem i d).1 hi).2
  have he := ((h.mem i e).1 he).2
  exact hne (Option.some_inj.1 (he.symm.trans hd))

/-- The groups of two dependencies become one. -/
theorem merge {e : Ip} (h : Queued s) (hd : d ∈ s.depq) (he : e ∈ s.depq) (hne : d ≠ e) :
    Queued (s.merge d e) := by
  have hat : ∀ i ∈ (s.dep e).sideq, (s.merge d e).inode i = { s.inode i with depend := some d } :=
    fun i hi => if_pos hi
  have hoff : ∀ i, i ∉ (s.dep e).sideq → (s.merge d e).inode i = s.inode i := fun i hi => if_neg hi
  have hde : (s.merge d e).dep e = .unused := by simp [SyncQueues.merge]
  have hdd : (s.merge d e).dep d = ⟨(s.dep d).sideq ++ (s.dep e).sideq,
      (s.dep d).count + (s.dep e).count, (s.dep d).pass2 || (s.dep e).pass2⟩ := by
    simp [SyncQueues.merge, hne]
  have hother : ∀ c, c ≠ d → c ≠ e → (s.merge d e).dep c = s.dep c := by
    intro c hcd hce
    simp [SyncQueues.merge, hcd, hce]
  have hmemq : ∀ c, c ∈ (s.merge d e).depq ↔ c ∈ s.depq ∧ c ≠ e := by
    intro c
    rw [and_comm]
    exact h.depq_nodup.mem_erase_iff
  refine ⟨?_, ?_, ?_, ?_, h.depq_nodup.erase e, ?_, ?_, fun i => s.merge_syncq d e i ▸ h.syncq i,
    h.syncq_nodup, fun i => by simpa using h.apart i, ?_, fun i => by
      rw [SyncQueues.merge_sideq, SyncQueues.merge_syncq, SyncQueues.merge_refs]
      exact h.refs i⟩
  · intro i c
    rw [SyncQueues.merge_sideq]
    by_cases hi : i ∈ (s.dep e).sideq
    · have hs := ((h.mem i e).1 hi).1
      rw [hat i hi]
      rcases eq_or_ne c d with rfl | hcd
      · simp [hdd, hi, hs]
      · rcases eq_or_ne c e with rfl | hce
        · simp [hde, Depend.unused, hne]
        · simp [hother c hcd hce, h.disjoint hce hi, hcd.symm]
    · rw [hoff i hi, ← h.mem i c]
      rcases eq_or_ne c d with rfl | hcd
      · simp [hdd, hi]
      · rcases eq_or_ne c e with rfl | hce
        · simp [hde, Depend.unused, hi]
        · rw [hother c hcd hce]
  · intro i hi
    rw [SyncQueues.merge_sideq] at hi
    by_cases hie : i ∈ (s.dep e).sideq
    · exact ⟨d, (hmemq d).2 ⟨hd, hne⟩, by rw [hat i hie]⟩
    · obtain ⟨c, hc, hdep⟩ := h.placed i hi
      refine ⟨c, (hmemq c).2 ⟨hc, ?_⟩, by rw [hoff i hie, hdep]⟩
      rintro rfl
      exact hie ((h.mem i c).2 ⟨hi, hdep⟩)
  · intro c hc
    obtain ⟨hq, hce⟩ := (hmemq c).1 hc
    rcases eq_or_ne c d with rfl | hcd
    · rw [hdd]
      exact List.mem_append_left _ (h.owner c hq)
    · rw [hother c hcd hce]
      exact h.owner c hq
  · intro c hc
    rcases eq_or_ne c e with rfl | hce
    · exact hde
    · have hcq : c ∉ s.depq := fun hq => hc ((hmemq c).2 ⟨hq, hce⟩)
      rw [hother c (fun hcd => hcq (hcd ▸ hd)) hce]
      exact h.unused c hcq
  · intro c
    rcases eq_or_ne c e with rfl | hce
    · simp [hde, Depend.unused]
    · rcases eq_or_ne c d with rfl | hcd
      · rw [hdd]
        refine List.nodup_append.2 ⟨h.sideq_nodup c, h.sideq_nodup e, fun i hi j hj hij => ?_⟩
        exact h.disjoint hne.symm hi (hij ▸ hj)
      · rw [hother c hcd hce]
        exact h.sideq_nodup c
  · intro c
    rcases eq_or_ne c e with rfl | hce
    · simp [hde, Depend.unused]
    · rcases eq_or_ne c d with rfl | hcd
      · simp [hdd, h.count]
      · rw [hother c hcd hce]
        exact h.count c
  · have hsum := sum_map_of_mem (f := fun c => ((s.merge d e).dep c).sideq.length)
      (g := fun c => if c = e then 0 else (s.dep c).sideq.length) (h.depq_nodup.erase e)
      ((hmemq d).2 ⟨hd, hne⟩) (fun c hcd => by
        by_cases hce : c = e
        · simp [hce, hde, Depend.unused]
        · simp [hother c hcd hce, hce])
    have hold := List.sum_map_erase (fun c => (s.dep c).sideq.length) he
    have hmap : ((s.depq.erase e).map fun c => if c = e then 0 else (s.dep c).sideq.length) =
        (s.depq.erase e).map fun c => (s.dep c).sideq.length :=
      List.map_congr_left fun c hc => if_neg (h.depq_nodup.mem_erase_iff.1 hc).1
    have htotal := h.total
    simp only [hmap, hdd, List.length_append, if_neg hne] at hsum
    simp only [SyncQueues.queuedCount] at htotal ⊢
    have hdepq : (s.merge d e).depq = s.depq.erase e := rfl
    have hsyncq : (s.merge d e).syncq = s.syncq := rfl
    have hcount : (s.merge d e).sideqCount = s.sideqCount := rfl
    rw [hdepq, hsyncq, hcount]
    omega

/-- The group of a dependency goes to `syncq`. -/
theorem moveGroup (h : Queued s) (hd : d ∈ s.depq) : Queued (s.moveGroup d) := by
  have hat := fun i => @SyncQueues.moveGroup_of_mem s d i
  have hoff := fun i => @SyncQueues.moveGroup_of_notMem s d i
  have hdd : (s.moveGroup d).dep d = .unused := by simp [SyncQueues.moveGroup]
  have hother : ∀ c, c ≠ d → (s.moveGroup d).dep c = s.dep c := by
    intro c hc
    simp [SyncQueues.moveGroup, hc]
  have hmemq : ∀ c, c ∈ (s.moveGroup d).depq ↔ c ∈ s.depq ∧ c ≠ d := by
    intro c
    rw [and_comm]
    exact h.depq_nodup.mem_erase_iff
  refine ⟨?_, ?_, ?_, ?_, h.depq_nodup.erase d, ?_, ?_, ?_, ?_, ?_, ?_, ?_⟩
  · intro i c
    by_cases hi : i ∈ (s.dep d).sideq
    · rw [hat i hi]
      rcases eq_or_ne c d with rfl | hcd
      · simp [hdd, Depend.unused]
      · simp [hother c hcd, h.disjoint hcd hi]
    · rw [hoff i hi, ← h.mem i c]
      rcases eq_or_ne c d with rfl | hcd
      · simp [hdd, Depend.unused, hi]
      · rw [hother c hcd]
  · intro i hi
    by_cases hid : i ∈ (s.dep d).sideq
    · rw [hat i hid] at hi
      cases hi
    · rw [hoff i hid] at hi ⊢
      obtain ⟨c, hc, hdep⟩ := h.placed i hi
      refine ⟨c, (hmemq c).2 ⟨hc, ?_⟩, hdep⟩
      rintro rfl
      exact hid ((h.mem i c).2 ⟨hi, hdep⟩)
  · intro c hc
    obtain ⟨hq, hcd⟩ := (hmemq c).1 hc
    rw [hother c hcd]
    exact h.owner c hq
  · intro c hc
    rcases eq_or_ne c d with rfl | hcd
    · exact hdd
    · rw [hother c hcd]
      exact h.unused c fun hq => hc ((hmemq c).2 ⟨hq, hcd⟩)
  · intro c
    rcases eq_or_ne c d with rfl | hcd
    · simp [hdd, Depend.unused]
    · rw [hother c hcd]
      exact h.sideq_nodup c
  · intro c
    rcases eq_or_ne c d with rfl | hcd
    · simp [hdd, Depend.unused]
    · rw [hother c hcd]
      exact h.count c
  · intro i
    by_cases hi : i ∈ (s.dep d).sideq
    · simp [SyncQueues.moveGroup, hi]
    · rw [hoff i hi, ← h.syncq i]
      simp [SyncQueues.moveGroup, hi]
  · refine List.nodup_append.2 ⟨h.syncq_nodup, h.sideq_nodup d, fun i hi j hj hij => ?_⟩
    exact h.apart i ⟨((h.mem i d).1 (hij ▸ hj)).1, (h.syncq i).1 hi⟩
  · intro i
    by_cases hi : i ∈ (s.dep d).sideq
    · simp [hat i hi]
    · rw [hoff i hi]
      exact h.apart i
  · have hold := List.sum_map_erase (fun c => (s.dep c).sideq.length) hd
    have hmap : ((s.depq.erase d).map fun c => ((s.moveGroup d).dep c).sideq.length) =
        (s.depq.erase d).map fun c => (s.dep c).sideq.length :=
      List.map_congr_left fun c hc => by rw [hother c (h.depq_nodup.mem_erase_iff.1 hc).1]
    have htotal := h.total
    have hdepq : (s.moveGroup d).depq = s.depq.erase d := rfl
    have hsyncq : (s.moveGroup d).syncq = s.syncq ++ (s.dep d).sideq := rfl
    have hcount : (s.moveGroup d).sideqCount = s.sideqCount := rfl
    simp only [SyncQueues.queuedCount] at htotal ⊢
    rw [hdepq, hsyncq, hcount, hmap, List.length_append]
    omega
  · intro i
    have hrefs := h.refs i
    have hphase : (s.moveGroup d).phase = s.phase := rfl
    rw [hphase]
    by_cases hi : i ∈ (s.dep d).sideq
    · rw [hat i hi]
      simpa [((h.mem i d).1 hi).1] using hrefs
    · rw [hoff i hi]
      exact hrefs

/-- The first inode of `syncq` goes to the syncer, and its reference with it. -/
theorem pop {rest : List Ip} (h : Queued s) (hq : s.syncq = ip :: rest)
    (hfree : ∀ i, s.phase.holds i = false) : Queued (s.pop ip rest) := by
  have hself := s.pop_self ip rest
  have hoff (i : Ip) (hi : i ≠ ip) := s.pop_of_ne rest hi
  have hip : (s.inode ip).syncq = true := (h.syncq ip).1 (by simp [hq])
  have hside : (s.inode ip).sideq = false :=
    Bool.eq_false_iff.2 fun hs => h.apart ip ⟨hs, hip⟩
  have hnodup := h.syncq_nodup
  rw [hq, List.nodup_cons] at hnodup
  refine ⟨?_, ?_, h.owner, h.unused, h.depq_nodup, h.sideq_nodup, h.count, ?_, hnodup.2, ?_, ?_, ?_⟩
  · intro i d
    by_cases hi : i = ip
    · rw [hi, hself]
      exact h.mem ip d
    · rw [hoff i hi]
      exact h.mem i d
  · intro i
    by_cases hi : i = ip
    · rw [hi, hself]
      exact h.placed ip
    · rw [hoff i hi]
      exact h.placed i
  · intro i
    have hs := h.syncq i
    have hrest : (s.pop ip rest).syncq = rest := rfl
    rw [hq, List.mem_cons] at hs
    rw [hrest]
    by_cases hi : i = ip
    · subst hi
      simpa [hself] using hnodup.1
    · rw [hoff i hi, ← hs]
      simp [hi]
  · intro i
    by_cases hi : i = ip
    · simp [hi, hself]
    · rw [hoff i hi]
      exact h.apart i
  · have htotal := h.total
    simp only [SyncQueues.queuedCount, hq, List.length_cons] at htotal
    simp only [SyncQueues.queuedCount, SyncQueues.pop, SyncQueues.setInode]
    omega
  · intro i
    have hrefs := h.refs i
    rw [hfree i] at hrefs
    by_cases hi : i = ip
    · subst hi
      rw [hself]
      simpa [SyncQueues.pop, SyncPhase.holds, hside, hip] using hrefs
    · rw [hoff i hi, hrefs]
      simp [SyncQueues.pop, SyncPhase.holds, Ne.symm hi]

/-- Moving an inode to the front keeps the queues. -/
theorem toFront (h : Queued s) (ip : Ip) : Queued (s.toFront ip) := by
  rw [SyncQueues.toFront]
  split
  · next hip =>
    have hperm : (ip :: s.syncq.erase ip).Perm s.syncq :=
      (List.perm_cons_erase ((h.syncq ip).2 hip)).symm
    refine ⟨h.mem, h.placed, h.owner, h.unused, h.depq_nodup, h.sideq_nodup, h.count,
      fun i => hperm.mem_iff.trans (h.syncq i), hperm.nodup_iff.2 h.syncq_nodup,
        h.apart, ?_, h.refs⟩
    rw [h.total, SyncQueues.queuedCount, SyncQueues.queuedCount, hperm.length_eq]
  · exact h

end Queued

/-! ## What the front end leaves alone -/

/-- The inode is in a group that the syncer takes in this run. -/
def SyncQueues.Marked (s : SyncQueues) (ip : Ip) : Prop :=
  (s.inode ip).sideq = true ∧ ∃ d, (s.inode ip).depend = some d ∧ (s.dep d).pass2 = true

/-- Groups only grow, and stay marked: what the front end does to the queues. -/
structure QueuesGrow (s t : SyncQueues) : Prop where
  syncq : ∀ i, (t.inode i).syncq = (s.inode i).syncq
  syncqPass2 : ∀ i, (t.inode i).syncqPass2 = (s.inode i).syncqPass2
  sideq : ∀ i, (s.inode i).sideq = true → (t.inode i).sideq = true
  together : ∀ i j, (s.inode i).sideq = true → (s.inode j).sideq = true →
    (s.inode i).depend = (s.inode j).depend → (t.inode i).depend = (t.inode j).depend
  marked : ∀ i, s.Marked i → t.Marked i
  rescan : s.rescan = true → t.rescan = true
  dorestart : t.dorestart = s.dorestart
  phase : t.phase = s.phase
  log : t.log = s.log
  iroot : t.iroot = s.iroot

namespace QueuesGrow

variable {s t u : SyncQueues} {ip d : Ip}

theorem refl (s : SyncQueues) : QueuesGrow s s :=
  ⟨fun _ => rfl, fun _ => rfl, fun _ => id, fun _ _ _ _ => id, fun _ => id, id, rfl, rfl, rfl, rfl⟩

theorem trans (h : QueuesGrow s t) (h' : QueuesGrow t u) : QueuesGrow s u where
  syncq i := (h'.syncq i).trans (h.syncq i)
  syncqPass2 i := (h'.syncqPass2 i).trans (h.syncqPass2 i)
  sideq i hi := h'.sideq i (h.sideq i hi)
  together i j hi hj he := h'.together i j (h.sideq i hi) (h.sideq j hj) (h.together i j hi hj he)
  marked i hi := h'.marked i (h.marked i hi)
  rescan hr := h'.rescan (h.rescan hr)
  dorestart := h'.dorestart.trans h.dorestart
  phase := h'.phase.trans h.phase
  log := h'.log.trans h.log
  iroot := h'.iroot.trans h.iroot

/-- A mark for the second pass takes nothing away. -/
theorem setPass2 (s : SyncQueues) (d : Ip) : QueuesGrow s (s.setPass2 d) := by
  refine ⟨fun _ => rfl, fun _ => rfl, fun _ => id, fun _ _ _ _ => id, ?_, id, rfl, rfl, rfl, rfl⟩
  rintro i ⟨hi, e, he, hp⟩
  refine ⟨hi, e, he, ?_⟩
  by_cases hed : e = d
  · simp [SyncQueues.setPass2, hed]
  · simpa [SyncQueues.setPass2, hed] using hp

theorem setRescan (s : SyncQueues) (b : Bool) : QueuesGrow s { s with rescan := s.rescan || b } :=
  ⟨fun _ => rfl, fun _ => rfl, fun _ => id, fun _ _ _ _ => id, fun _ =>
    id, fun hr => by simp [hr], rfl, rfl, rfl, rfl⟩

/-- Nor does a new group. -/
theorem newDepend (s : SyncQueues) (ip : Ip) (pass2 : Bool) :
    QueuesGrow s (s.newDepend ip pass2) := by
  refine ⟨fun _ => rfl, fun _ => rfl, fun _ => id, fun _ _ _ _ => id, ?_, id, rfl, rfl, rfl, rfl⟩
  rintro i ⟨hi, e, he, hp⟩
  refine ⟨hi, e, he, ?_⟩
  by_cases hed : e = ip
  · subst hed
    simp [SyncQueues.newDepend, hp]
  · simpa [SyncQueues.newDepend, hed] using hp

/-- Nor does an inode that enters. -/
theorem enter (d : Ip) (hside : (s.inode ip).sideq = false) : QueuesGrow s (s.enter ip d) := by
  have hne : ∀ i, (s.inode i).sideq = true → i ≠ ip := by
    rintro i hi rfl
    simp [hi] at hside
  have hin : ∀ i, i ≠ ip → (s.enter ip d).inode i = s.inode i := fun i hi => by
    simp [SyncQueues.enter, hi]
  refine ⟨?_, ?_, ?_, ?_, ?_, id, rfl, rfl, rfl, rfl⟩
  · intro i
    by_cases hi : i = ip <;> simp [SyncQueues.enter, hi]
  · intro i
    by_cases hi : i = ip <;> simp [SyncQueues.enter, hi]
  · intro i hi
    rwa [hin i (hne i hi)]
  · intro i j hi hj
    rw [hin i (hne i hi), hin j (hne j hj)]
    exact id
  · rintro i ⟨hi, e, he, hp⟩
    rw [SyncQueues.Marked, hin i (hne i hi)]
    refine ⟨hi, e, he, ?_⟩
    by_cases hed : e = d
    · subst hed
      simpa [SyncQueues.enter] using hp
    · simpa [SyncQueues.enter, hed] using hp

/-- Nor does a merge of two groups. -/
theorem merge {e : Ip} (h : Queued s) (hne : d ≠ e) : QueuesGrow s (s.merge d e) := by
  have hmem : ∀ i, (s.inode i).sideq = true →
      (i ∈ (s.dep e).sideq ↔ (s.inode i).depend = some e) :=
    fun i hi => (h.mem i e).trans (and_iff_right hi)
  have hdepend : ∀ i, (s.inode i).sideq = true → ((s.merge d e).inode i).depend =
      if (s.inode i).depend = some e then some d else (s.inode i).depend := by
    intro i hi
    simp only [SyncQueues.merge, hmem i hi]
    split <;> rfl
  refine ⟨s.merge_syncq d e, s.merge_syncqPass2 d e, fun i hi => (s.merge_sideq d e i).trans hi, ?_,
    ?_, id, rfl, rfl, rfl, rfl⟩
  · intro i j hi hj hij
    rw [hdepend i hi, hdepend j hj, hij]
  · rintro i ⟨hi, c, hc, hp⟩
    rw [SyncQueues.Marked, hdepend i hi, hc]
    refine ⟨(s.merge_sideq d e i).trans hi, ?_⟩
    rcases eq_or_ne c e with rfl | hce
    · refine ⟨d, if_pos rfl, ?_⟩
      simp [SyncQueues.merge, hne, hp]
    · refine ⟨c, if_neg (by simpa using hce), ?_⟩
      rcases eq_or_ne c d with rfl | hcd
      · simp [SyncQueues.merge, hce, hp]
      · simp [SyncQueues.merge, hce, hcd, hp]

/-- Nor does a move to the front. -/
theorem toFront (s : SyncQueues) (ip : Ip) : QueuesGrow s (s.toFront ip) := by
  unfold SyncQueues.toFront
  split
  · exact ⟨fun _ => rfl, fun _ => rfl, fun _ => id, fun _ _ _ _ => id, fun _ => id,
      id, rfl, rfl, rfl, rfl⟩
  · exact refl s

end QueuesGrow

/-! ## The invariant over runs -/

section
variable {s t : SyncQueues} {ip : Ip} {arg : DependArg}

/-- What is passed on between the calls of `hammer2_inode_setdepend_locked`: a dependency in use, or
`(void *)-1` while the syncer has inodes. -/
def DependArg.Valid (s : SyncQueues) : DependArg → Prop
  | .null => True
  | .minusOne => ∃ i, (s.inode i).syncq = true
  | .on d => d ∈ s.depq

theorem DependArg.valid_null (s : SyncQueues) : DependArg.null.Valid s := trivial

/-- The group of an inode is found or made. -/
theorem Queued.associate (h : Queued s) (harg : arg.Valid s) (hsync : (s.inode ip).syncq = false) :
    Queued (s.associate ip arg).1 ∧ (s.associate ip arg).2 ∈ (s.associate ip arg).1.depq := by
  unfold SyncQueues.associate
  split
  · next hside =>
    obtain ⟨hd, -, -⟩ := h.depend_eq hside
    cases arg with
    | null => exact ⟨h, hd⟩
    | minusOne => exact ⟨h.setPass2 hd, hd⟩
    | on d =>
      dsimp only
      split
      · exact ⟨h, harg⟩
      · next hne => exact ⟨h.merge harg hd hne, (h.depq_nodup.mem_erase_iff).2 ⟨hne, harg⟩⟩
  · next hside =>
    have hside := Bool.eq_false_iff.2 hside
    cases arg with
    | null =>
        exact ⟨h.selfDepend false hside hsync, by simp [SyncQueues.enter, SyncQueues.newDepend]⟩
    | minusOne =>
      exact ⟨h.selfDepend true hside hsync, by simp [SyncQueues.enter, SyncQueues.newDepend]⟩
    | on d => exact ⟨h.enter harg hside hsync, harg⟩

theorem SyncQueues.propagate_depq (s : SyncQueues) (ip d : Ip) :
    (s.propagate ip d).depq = s.depq := by
  unfold propagate
  split <;> rfl

/-- Passing the mark on keeps the queues. -/
theorem Queued.propagate {d : Ip} (h : Queued s) (hd : d ∈ s.depq) : Queued (s.propagate ip d) := by
  unfold SyncQueues.propagate
  split
  · exact (h.setPass2 hd).congr (fun _ => rfl) (fun _ => rfl) (fun _ => rfl)
      (fun _ => rfl) rfl rfl rfl
      rfl
  · exact h.congr (fun _ => rfl) (fun _ => rfl) (fun _ => rfl) (fun _ => rfl) rfl rfl rfl rfl

/-- A dependency keeps the queues, and its group is valid. -/
theorem Queued.setdependLocked (h : Queued s) (harg : arg.Valid s) (ip : Ip) :
    Queued (s.setdependLocked ip arg).1 ∧
      (s.setdependLocked ip arg).2.Valid (s.setdependLocked ip arg).1 := by
  unfold SyncQueues.setdependLocked
  split
  · next hsync =>
    cases arg with
    | null => exact ⟨h, ip, hsync⟩
    | minusOne => exact ⟨h, ip, hsync⟩
    | on d =>
      refine ⟨(h.setPass2 harg).congr (fun _ => rfl) (fun _ => rfl) (fun _ => rfl)
        (fun _ => rfl) rfl rfl rfl rfl, harg⟩
  · next hsync =>
    obtain ⟨hq, hd⟩ := h.associate harg (Bool.eq_false_iff.2 hsync)
    refine ⟨hq.propagate hd, ?_⟩
    rw [DependArg.Valid, SyncQueues.propagate_depq]
    exact hd

/-- Queuing an inode for later keeps the queues. -/
theorem Queued.delayedSideq (h : Queued s) (ip : Ip) : Queued (s.delayedSideq ip) := by
  unfold SyncQueues.delayedSideq
  split
  · exact h
  · exact (h.setdependLocked (DependArg.valid_null s) ip).1

theorem SyncQueues.toFront_inode (s : SyncQueues) (ip : Ip) : (s.toFront ip).inode = s.inode := by
  unfold toFront
  split <;> rfl

theorem SyncQueues.toFront_depq (s : SyncQueues) (ip : Ip) : (s.toFront ip).depq = s.depq := by
  unfold toFront
  split <;> rfl

/-- Moving an inode to the front keeps the group. -/
theorem DependArg.Valid.toFront (h : arg.Valid s) (ip : Ip) : arg.Valid (s.toFront ip) := by
  cases arg with
  | null => trivial
  | minusOne =>
    rw [DependArg.Valid, SyncQueues.toFront_inode]
    exact h
  | on d =>
    rw [DependArg.Valid, SyncQueues.toFront_depq]
    exact h

/-- One inode of `hammer2_inode_lock4` keeps the queues. -/
theorem Queued.lock4Step {r : SyncQueues × DependArg} (h : Queued r.1 ∧ r.2.Valid r.1) (ip : Ip) :
    Queued (SyncQueues.lock4Step r ip).1 ∧
      (SyncQueues.lock4Step r ip).2.Valid (SyncQueues.lock4Step r ip).1 := by
  obtain ⟨hq, harg⟩ := h.1.setdependLocked h.2 ip
  exact ⟨hq.toFront ip, harg.toFront ip⟩

/-- The log is no part of the queues. -/
theorem Queued.record (h : Queued s) (e : SyncEvent) : Queued (s.record e) :=
  h.congr (fun _ => rfl) (fun _ => rfl) (fun _ => rfl) (fun _ => rfl) rfl rfl rfl rfl

/-- Locking up to four inodes keeps the queues. -/
theorem Queued.lock4 (h : Queued s) (ips : List Ip) : Queued (s.lock4 ips) := by
  refine Queued.record ?_ _
  have hstart : Queued (s, DependArg.null).1 ∧ (s, DependArg.null).2.Valid (s, DependArg.null).1 :=
    ⟨h, trivial⟩
  generalize (s, DependArg.null) = r at hstart
  induction ips generalizing r with
  | nil => exact hstart.1
  | cons ip ips ih => exact ih _ (lock4Step hstart ip)

/-- Whole groups go to `syncq`; the others stay as they are. -/
structure Moved (s t : SyncQueues) : Prop where
  queued : Queued t
  dorestart : t.dorestart = s.dorestart
  rescan : t.rescan = s.rescan
  phase : t.phase = s.phase
  log : t.log = s.log
  iroot : t.iroot = s.iroot
  syncqPass2 : ∀ i, (t.inode i).syncqPass2 = (s.inode i).syncqPass2
  syncq : ∀ i, (s.inode i).syncq = true → (t.inode i).syncq = true
  stays : ∀ i, (s.inode i).sideq = true → (t.inode i).syncq = true ∨
    (t.inode i).sideq = true ∧ (t.inode i).depend = (s.inode i).depend
  sideq : ∀ i, (t.inode i).sideq = true → (s.inode i).sideq = true ∧
    (t.inode i).depend = (s.inode i).depend
  together : ∀ i j, (s.inode i).sideq = true → (s.inode j).sideq = true →
    (s.inode i).depend = (s.inode j).depend → (t.inode i).syncq = true → (t.inode j).syncq = true
  dep : ∀ e ∈ t.depq, e ∈ s.depq ∧ t.dep e = s.dep e

theorem Moved.refl (h : Queued s) : Moved s s :=
  ⟨h, rfl, rfl, rfl, rfl, rfl, fun _ => rfl, fun _ => id, fun _ hi => .inr ⟨hi, rfl⟩,
    fun _ hi => ⟨hi, rfl⟩, fun i _ hi _ _ hs => absurd ⟨hi, hs⟩ (h.apart i), fun _ he => ⟨he, rfl⟩⟩

theorem Moved.trans {u : SyncQueues} (h : Moved s t) (h' : Moved t u) : Moved s u := by
  refine ⟨h'.queued, h'.dorestart.trans h.dorestart, h'.rescan.trans h.rescan,
    h'.phase.trans h.phase,
    h'.log.trans h.log, h'.iroot.trans h.iroot, fun i => (h'.syncqPass2 i).trans (h.syncqPass2 i),
    fun i hi => h'.syncq i (h.syncq i hi), ?_, ?_, ?_, ?_⟩
  · intro i hi
    rcases h.stays i hi with hs | ⟨hs, hd⟩
    · exact .inl (h'.syncq i hs)
    · exact (h'.stays i hs).imp_right fun hu => ⟨hu.1, hu.2.trans hd⟩
  · intro i hi
    obtain ⟨ht, hd⟩ := h'.sideq i hi
    obtain ⟨hs, hd'⟩ := h.sideq i ht
    exact ⟨hs, hd.trans hd'⟩
  · intro i j hi hj hij hs
    rcases h.stays i hi with hti | ⟨hti, hdi⟩
    · exact h'.syncq j (h.together i j hi hj hij hti)
    · rcases h.stays j hj with htj | ⟨htj, hdj⟩
      · exact h'.syncq j htj
      · exact h'.together i j hti htj (by rw [hdi, hdj, hij]) hs
  · intro e he
    obtain ⟨ht, hd⟩ := h'.dep e he
    obtain ⟨hs, hd'⟩ := h.dep e ht
    exact ⟨hs, hd.trans hd'⟩

/-- Moving a group keeps the queues. -/
theorem Moved.moveGroup {d : Ip} (h : Queued s) (hd : d ∈ s.depq) : Moved s (s.moveGroup d) := by
  have hat := fun i => @SyncQueues.moveGroup_of_mem s d i
  have hoff := fun i => @SyncQueues.moveGroup_of_notMem s d i
  refine ⟨h.moveGroup hd, rfl, rfl, rfl, rfl, rfl, ?_, ?_, ?_, ?_, ?_, ?_⟩
  · intro i
    by_cases hi : i ∈ (s.dep d).sideq
    · rw [hat i hi]
    · rw [hoff i hi]
  · intro i hs
    by_cases hi : i ∈ (s.dep d).sideq
    · rw [hat i hi]
    · rwa [hoff i hi]
  · intro i hs
    by_cases hi : i ∈ (s.dep d).sideq
    · exact .inl (by rw [hat i hi])
    · rw [hoff i hi]
      exact .inr ⟨hs, rfl⟩
  · intro i hs
    by_cases hi : i ∈ (s.dep d).sideq
    · rw [hat i hi] at hs
      cases hs
    · rw [hoff i hi] at hs ⊢
      exact ⟨hs, rfl⟩
  · intro i j hi hj hij hs
    have hid : i ∈ (s.dep d).sideq := by
      by_contra hid
      rw [hoff i hid] at hs
      exact h.apart i ⟨hi, hs⟩
    have hjd : j ∈ (s.dep d).sideq := (h.mem j d).2 ⟨hj, hij ▸ ((h.mem i d).1 hid).2⟩
    rw [hat j hjd]
  · intro e he
    obtain ⟨hne, he⟩ := h.depq_nodup.mem_erase_iff.1 he
    exact ⟨he, by simp [SyncQueues.moveGroup, hne]⟩

/-- The loop over `depq` moves whole groups, and leaves none in a first pass and no marked one on a
restart. -/
theorem Moved.moveGroups (h : Queued s) : Moved s s.moveGroups ∧
    ∀ d ∈ s.moveGroups.depq, s.dorestart = true ∧ (s.dep d).pass2 = false := by
  suffices hfold : ∀ (ds : List Ip) (t : SyncQueues), Queued t → ds.Nodup → (∀ d ∈ ds, d ∈ t.depq) →
      let u := ds.foldl (fun s d => if s.dorestart = true ∧ (s.dep d).pass2 = false then s
        else s.moveGroup d) t
      Moved t u ∧ ∀ d ∈ u.depq, d ∈ ds → t.dorestart = true ∧ (t.dep d).pass2 = false by
    obtain ⟨hm, hleft⟩ := hfold s.depq s h h.depq_nodup fun _ hd => hd
    exact ⟨hm, fun d hd => hleft d hd (hm.dep d hd).1⟩
  intro ds
  induction ds with
  | nil => exact fun t ht _ _ => ⟨.refl ht, fun _ _ hd => absurd hd List.not_mem_nil⟩
  | cons d ds ih =>
    intro t ht hnodup hds
    obtain ⟨hd, hnodup⟩ := List.nodup_cons.1 hnodup
    dsimp only
    rw [List.foldl_cons]
    split
    · next hskip =>
      obtain ⟨hm, hleft⟩ := ih t ht hnodup fun e he => hds e (List.mem_cons_of_mem _ he)
      refine ⟨hm, fun e he hed => ?_⟩
      rcases List.mem_cons.1 hed with rfl | hed
      · exact hskip
      · exact hleft e he hed
    · have hmd := Moved.moveGroup ht (hds d List.mem_cons_self)
      obtain ⟨hm, hleft⟩ := ih _ hmd.queued hnodup fun e he =>
        ht.depq_nodup.mem_erase_iff.2
          ⟨ne_of_mem_of_not_mem he hd, hds e (List.mem_cons_of_mem _ he)⟩
      refine ⟨hmd.trans hm, fun e he hed => ?_⟩
      have het := hm.dep e he
      rcases List.mem_cons.1 hed with rfl | hed
      · exact absurd het.1 ht.depq_nodup.not_mem_erase
      · have hold := hleft e he hed
        rwa [(hmd.dep e het.1).2] at hold

/-- The syncer keeps its reference from one phase to the next. -/
theorem Queued.phase (h : Queued s) {phase : SyncPhase} (b : Bool)
    (hholds : ∀ i, phase.holds i = s.phase.holds i) :
    Queued { s with phase := phase, dorestart := b } :=
  h.congr (fun _ => rfl) (fun _ => rfl) (fun _ => rfl) (fun i => by simp [hholds i]) rfl rfl rfl rfl

/-- Finding or making a group takes nothing away. -/
theorem QueuesGrow.associate (h : Queued s) (ip : Ip) (arg : DependArg) :
    QueuesGrow s (s.associate ip arg).1 := by
  unfold SyncQueues.associate
  split
  · cases arg with
    | null => exact .refl s
    | minusOne => exact .setPass2 s _
    | on d =>
      dsimp only
      split
      · exact .refl s
      · next hne => exact .merge h hne
  · next hside =>
    have hside := Bool.eq_false_iff.2 hside
    cases arg with
    | null => exact (QueuesGrow.newDepend s ip false).trans (.enter ip hside)
    | minusOne => exact (QueuesGrow.newDepend s ip true).trans (.enter ip hside)
    | on d => exact .enter d hside

/-- Nor does passing the mark on. -/
theorem QueuesGrow.propagate (s : SyncQueues) (ip d : Ip) : QueuesGrow s (s.propagate ip d) := by
  unfold SyncQueues.propagate
  split
  · exact (QueuesGrow.setPass2 s d).trans (.setRescan _ _)
  · exact .setRescan s _

/-- Nor does a dependency. -/
theorem QueuesGrow.setdependLocked (h : Queued s) (harg : arg.Valid s) (ip : Ip) :
    QueuesGrow s (s.setdependLocked ip arg).1 := by
  unfold SyncQueues.setdependLocked
  split
  · cases arg with
    | null => exact .refl s
    | minusOne => exact .refl s
    | on d => exact (QueuesGrow.setPass2 s d).trans ⟨fun _ => rfl, fun _ => rfl, fun _ => id,
        fun _ _ _ _ => id, fun _ => id, fun _ => rfl, rfl, rfl, rfl, rfl⟩
  · exact (QueuesGrow.associate h ip arg).trans (.propagate _ ip _)

/-- Nor does queuing for later. -/
theorem QueuesGrow.delayedSideq (h : Queued s) (ip : Ip) : QueuesGrow s (s.delayedSideq ip) := by
  unfold SyncQueues.delayedSideq
  split
  · exact .refl s
  · exact .setdependLocked h (DependArg.valid_null s) ip

/-- What a step can do, with the phase it is taken in. -/
inductive SyncQueues.Took (s : SyncQueues) : SyncQAct → SyncQueues → Prop
  | delayedSideq (ip : Ip) : Took s (.delayedSideq ip) (s.delayedSideq ip)
  | sideqLocked (ip : Ip) : Took s (.sideqLocked ip) (s.setdependLocked ip .null).1
  | inodeDepend (ip1 ip2 : Ip) : Took s (.inodeDepend ip1 ip2) (s.inodeDepend ip1 ip2)
  | lock4 (ips : List Ip) : Took s (.lock4 ips) (s.lock4 ips)
  | lock (ip : Ip) : Took s (.lock ip) (s.toFront ip)
  | syncStart (hp : s.phase = .idle) :
      Took s .syncStart { s.record .started with phase := .clear, dorestart := false }
  | clearRescan (hp : s.phase = .clear) :
      Took s .clearRescan { s with phase := .move, rescan := false }
  | move (hp : s.phase = .move) :
      Took s .move { s.moveGroups with phase := .loop, dorestart := false }
  | pop {ip : Ip} {rest : List Ip} (hp : s.phase = .loop) (hq : s.syncq = ip :: rest) :
      Took s .pop (s.pop ip rest)
  | loopEnd (hp : s.phase = .loop) (hq : s.syncq = []) : Took s .loopEnd (s.goto .check)
  | requeue {ip : Ip} (hp : s.phase = .hand ip) :
      Took s .requeue { s.delayedSideq ip with phase := .release ip, dorestart := true }
  | skip {ip : Ip} (hp : s.phase = .hand ip) (hside : (s.inode ip).sideq = true) :
      Took s .relock { s with phase := .release ip, dorestart := true }
  | relock {ip : Ip} (hp : s.phase = .hand ip) (hside : (s.inode ip).sideq = false) :
      Took s .relock (s.goto (.flushing ip))
  | flush {ip : Ip} (hp : s.phase = .flushing ip) :
      Took s .flush ((s.record (.flushed ip)).goto (.flushed ip))
  | requeueDirty {ip : Ip} (hp : s.phase = .flushed ip) :
      Took s (.settle true) ((s.delayedSideq ip).goto (.settled ip))
  | settle {ip : Ip} (hp : s.phase = .flushed ip) : Took s (.settle false) (s.goto (.settled ip))
  | clearPass2 {ip : Ip} (hp : s.phase = .settled ip) : Took s .clearPass2
      ((s.setInode ip fun i => { i with syncqPass2 := false }).goto (.release ip))
  | release {ip : Ip} (hp : s.phase = .release ip) : Took s .release ((s.drop ip).goto .loop)
  | restart (hp : s.phase = .check) (hre : s.dorestart = true ∨ s.rescan = true) :
      Took s .restart { s with phase := .clear, dorestart := true }
  | stage2 (hp : s.phase = .check) (hre : s.dorestart = false) (hscan : s.rescan = false) :
      Took s .restart (s.goto .stage2)
  | flushRoot {ip : Ip} (hp : s.phase = .stage2) (hroot : s.iroot = some ip) :
      Took s .flushRoot ((s.record (.flushed ip)).goto .done)
  | noRoot (hp : s.phase = .stage2) (hroot : s.iroot = none) : Took s .flushRoot (s.goto .done)
  | syncDone (hp : s.phase = .done) : Took s .syncDone ((s.record .ended).goto .idle)

/-- **Every step takes what its action says.** One case for each action. -/
theorem SyncQueues.Step.took {a : SyncQAct} (hst : s.Step a t) : s.Took a t := by
  unfold Step at hst
  cases a <;> dsimp only [next] at hst
  case delayedSideq ip => exact Option.some_inj.1 hst ▸ .delayedSideq ip
  case sideqLocked ip => exact Option.some_inj.1 hst ▸ .sideqLocked ip
  case inodeDepend ip1 ip2 => exact Option.some_inj.1 hst ▸ .inodeDepend ip1 ip2
  case lock4 ips => exact Option.some_inj.1 hst ▸ .lock4 ips
  case lock ip => exact Option.some_inj.1 hst ▸ .lock ip
  case syncStart => split at hst <;> cases hst; exact .syncStart ‹_›
  case clearRescan => split at hst <;> cases hst; exact .clearRescan ‹_›
  case move => split at hst <;> cases hst; exact .move ‹_›
  case pop => split at hst <;> cases hst; exact .pop ‹_› ‹_›
  case loopEnd => split at hst <;> cases hst; exact .loopEnd ‹_› ‹_›
  case requeue => split at hst <;> cases hst; exact .requeue ‹_›
  case relock =>
    split at hst
    · split at hst
      · cases hst
        exact .skip ‹_› ‹_›
      · cases hst
        exact .relock ‹_› (Bool.eq_false_iff.2 ‹_›)
    · cases hst
  case flush => split at hst <;> cases hst; exact .flush ‹_›
  case settle dirty =>
    split at hst
    · cases hst
      cases dirty with
      | false => exact .settle ‹_›
      | true => exact .requeueDirty ‹_›
    · cases hst
  case clearPass2 => split at hst <;> cases hst; exact .clearPass2 ‹_›
  case release => split at hst <;> cases hst; exact .release ‹_›
  case restart =>
    split at hst
    · split at hst
      · cases hst
        exact .restart ‹_› ‹_›
      · next hre =>
        cases hst
        rw [not_or, Bool.not_eq_true, Bool.not_eq_true] at hre
        exact .stage2 ‹_› hre.1 hre.2
    · cases hst
  case flushRoot =>
    split at hst
    · split at hst
      · cases hst
        exact .flushRoot ‹_› ‹_›
      · cases hst
        exact .noRoot ‹_› ‹_›
    · cases hst
  case syncDone => split at hst <;> cases hst; exact .syncDone ‹_›

/-- **A step keeps the queues in order.** -/
theorem Queued.step {a : SyncQAct} (h : Queued s) (hst : s.Step a t) : Queued t := by
  cases hst.took with
  | delayedSideq ip => exact h.delayedSideq ip
  | sideqLocked ip => exact (h.setdependLocked (DependArg.valid_null s) ip).1
  | inodeDepend ip1 ip2 =>
    obtain ⟨h₁, harg⟩ := h.setdependLocked (DependArg.valid_null s) ip1
    exact (h₁.setdependLocked harg ip2).1.record _
  | lock4 ips => exact h.lock4 ips
  | lock ip => exact h.toFront ip
  | syncStart hp =>
    refine (h.record .started).phase false fun i => ?_
    simp [SyncQueues.record, hp, SyncPhase.holds]
  | clearRescan hp =>
    refine h.congr (fun _ => rfl) (fun _ => rfl) (fun _ => rfl) (fun i => ?_) rfl rfl rfl rfl
    simp [hp, SyncPhase.holds]
  | move hp =>
    have hm := (Moved.moveGroups h).1
    exact hm.queued.phase false fun i => by simp [hm.phase, hp, SyncPhase.holds]
  | pop hp hq => exact h.pop hq fun i => by simp [hp, SyncPhase.holds]
  | loopEnd hp hq | relock hp hside | settle hp | stage2 hp hre hscan | noRoot hp hroot =>
    exact h.phase _ fun i => by simp [hp, SyncPhase.holds]
  | requeue hp =>
    refine (h.delayedSideq _).phase true fun i => ?_
    simp [(QueuesGrow.delayedSideq h _).phase, hp, SyncPhase.holds]
  | skip hp hside | restart hp hre => exact h.phase true fun i => by simp [hp, SyncPhase.holds]
  | flush hp | flushRoot hp hroot | syncDone hp =>
    refine (h.record _).phase s.dorestart fun i => ?_
    simp [SyncQueues.record, hp, SyncPhase.holds]
  | requeueDirty hp =>
    refine (h.delayedSideq _).phase _ fun i => ?_
    simp [(QueuesGrow.delayedSideq h _).phase, hp, SyncPhase.holds]
  | @clearPass2 ip hp =>
    refine h.congr ?_ ?_ ?_ ?_ rfl rfl rfl rfl <;> intro i <;> by_cases hi : i = ip <;>
      simp [SyncQueues.goto, SyncQueues.setInode, hi, hp, SyncPhase.holds]
  | @release ip hp =>
    have hrefs := h.refs ip
    simp only [hp, SyncPhase.holds, decide_true, Bool.toNat_true] at hrefs
    refine h.congr ?_ ?_ ?_ ?_ rfl rfl rfl rfl <;> intro i <;> by_cases hi : i = ip
    all_goals simp [SyncQueues.goto, SyncQueues.drop, SyncQueues.setInode, hi, hp, SyncPhase.holds]
    · omega
    · exact Ne.symm hi

end

end Hammer2
