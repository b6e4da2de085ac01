import Mathlib

/-!
# Admission of a peer's requests

The server of a device runs the requests of the peer on an ordered workqueue. Whether the reader
queues a request is up to one state, which four paths write: `hammer2_link_work` quiesces the server
and replaces the connection, the descriptor swap leaves the server waiting for the new peer, the
peer's announcement opens it, and `hammer2_iocom_uninit` closes it for good.
`hammer2_remote_quiesce` does not look at the state it overwrites. That a reconnect cannot lift a
close rests on `hammer2_mntlk`, which both callers hold: the teardown waits for the work before its
quiesce, and holds the lock until the server is freed.

What is queued came on the connection that is up, behind the announcement of its peer (`Served`), so
that nothing else is executed (`remote_admits`).

Reference: `hammer2_remote.c:162-247`, `hammer2_remote.c:321-417`, `hammer2_remote.c:833-864`,
`hammer2_iocom.c:148-192`, `hammer2_iocom.c:365-395`, `hammer2_iocom.c:906-984`,
`kern_dmsg.c:114-171`.
-/

namespace Hammer2

/-! ## The server -/

/-- `rm->state`. -/
inductive Admission
  | opened | quiesced | closed | awaiting
  deriving DecidableEq

/-- `struct hammer2_remote_req`. `conn` and `announced` say on which connection the request came,
and whether its peer had announced `DMSG_SPAN_PROTO_2` by then. -/
structure PeerReq where
  id : Nat
  conn : Nat
  announced : Bool
  deriving DecidableEq

/-- How far a caller of `hammer2_remote_quiesce` is. `flush_workqueue` waits for the requests that
were queued when it was called, which are those numbered below `upto`. -/
inductive Quiesce
  | idle | flushing (upto : Nat) | returned
  deriving DecidableEq

/-- The server of a device, `struct hammer2_remote`, with the connection that its requests come on.
The connections are numbered by the descriptor swaps, and `announced` lists those whose peer has
announced `DMSG_SPAN_PROTO_2`. -/
structure HmServer where
  /-- `hmp->remote` is there. -/
  present : Bool
  state : Admission
  conn : Nat
  /-- The connection's reader runs. -/
  reader : Bool
  /-- `KDMSG_IOCOMF_PROTO2`. -/
  proto2 : Bool
  announced : List Nat
  queue : List PeerReq
  running : Option PeerReq
  nreqs : Nat
  /-- `hammer2_link_work` is replacing the connection. -/
  work : Quiesce
  /-- `hammer2_iocom_uninit` is tearing the device down. -/
  closing : Quiesce
  deriving DecidableEq

namespace HmServer

/-- `hammer2_remote_init`, which may find no memory. There is no connection yet. -/
def init (present : Bool) : HmServer :=
  ⟨present, .opened, 0, false, false, [], [], none, 0, .idle, .idle⟩

variable (s : HmServer)

/-- `hammer2_remote_quiesce`, up to its `flush_workqueue`. -/
def quiesce (final : Bool) : HmServer :=
  if s.present then { s with state := if final then .closed else .quiesced } else s

/-- Where its caller is then. -/
def flush : Quiesce := if s.present then .flushing s.nreqs else .returned

/-- `flush_workqueue` has seen the end of every request numbered below `upto`. -/
def Flushed (upto : Nat) : Prop := ∀ r, r ∈ s.queue ∨ s.running = some r → upto ≤ r.id

/-- `hammer2_remote_swap`. -/
def swap : HmServer :=
  if s.present = true ∧ s.state = .quiesced then { s with state := .awaiting } else s

/-- `hammer2_remote_resume`. -/
def resume : HmServer :=
  if s.present = true ∧ s.state = .awaiting then { s with state := .opened } else s

/-- `hammer2_autodmsg` for a `LNK_CONN` that announces `DMSG_SPAN_PROTO_2`. -/
def autodmsg : HmServer :=
  ({ s with proto2 := true, announced := s.conn :: s.announced } : HmServer).resume

/-- `hammer2_remote_rcvmsg` for a request; `refused` says that it cannot be placed or that there is
no memory for it. -/
def rcvmsg (refused : Bool) : HmServer :=
  if s.present = false ∨ refused = true ∨ s.state ≠ .opened then s
  else
    { s with
      queue := s.queue ++ [⟨s.nreqs, s.conn, s.conn ∈ s.announced⟩]
      nreqs := s.nreqs + 1 }

/-- The reader has a request's frame: one that the peer did not announce ends the connection. -/
def frame (refused : Bool) : HmServer :=
  if s.proto2 then s.rcvmsg refused else { s with reader := false }

/-- The start of `hammer2_remote_serve`, which closes a request that the peer has cancelled, or
whose connection is going, without executing it. -/
def serve (cancelled : Bool) (r : PeerReq) (rest : List PeerReq) : HmServer :=
  { s with queue := rest, running := if cancelled = true ∨ s.state ≠ .opened then none else some r }

end HmServer

/-- A step of one of the threads. Both callers of `hammer2_remote_quiesce` hold `hammer2_mntlk`: a
teardown under way, which keeps it until the server is gone, keeps the work from its quiesce, and
waits for a work that is past it. -/
inductive HmStep : HmServer → HmServer → Prop
  | quiesce {s} : s.work = .idle → s.closing = .idle ∨ s.present = false →
      HmStep s { s.quiesce false with work := s.flush }
  | close {s} : s.work = .idle → s.closing = .idle →
      HmStep s { s.quiesce true with closing := s.flush }
  | workFlushed {s n} : s.work = .flushing n → s.Flushed n → HmStep s { s with work := .returned }
  | closeFlushed {s n} : s.closing = .flushing n → s.Flushed n →
      HmStep s { s with closing := .returned }
  /-- `kdmsg_iocom_reconnect`, when the old connection's threads are gone. -/
  | swap {s} : s.work = .returned →
      HmStep s { s.swap with conn := s.conn + 1, reader := true, proto2 := false, work := .idle }
  | lost {s} : HmStep s { s with reader := false }
  | announce {s} : s.reader = true → HmStep s s.autodmsg
  | request {s} (refused : Bool) : s.reader = true → HmStep s (s.frame refused)
  | serve {s r rest} (cancelled : Bool) : s.running = none → s.queue = r :: rest →
      HmStep s (s.serve cancelled r rest)
  | finish {s} : HmStep s { s with running := none }
  /-- `kdmsg_iocom_uninit` and `hammer2_remote_uninit`. -/
  | uninit {s} : s.closing = .returned → HmStep s { s with reader := false, present := false }

/-! ## What is admitted -/

/-- What holds at any time. -/
structure Served (s : HmServer) : Prop where
  /-- Requests are admitted only behind the announcement of the connection's peer. -/
  opened : s.present = true → s.state = .opened → s.reader = true → s.conn ∈ s.announced
  reqs : ∀ r, r ∈ s.queue ∨ s.running = some r →
    r.conn = s.conn ∧ r.announced = true ∧ r.id < s.nreqs
  work : s.work ≠ .idle → s.present = true → s.state = .quiesced ∧ s.closing = .idle
  closed : s.present = true → (s.state = .closed ↔ s.closing ≠ .idle)
  flushing : ∀ n, s.work = .flushing n ∨ s.closing = .flushing n → s.present = true ∧ n = s.nreqs
  returned : s.work = .returned ∨ s.closing = .returned → s.queue = [] ∧ s.running = none
  absent : s.present = false → s.queue = [] ∧ s.running = none

section
variable {s t : HmServer}

/-- The invariant holds at the start. -/
theorem Served.init (present : Bool) : Served (HmServer.init present) where
  opened := fun _ _ h => nomatch h
  reqs := fun r h => by simp [HmServer.init] at h
  work := fun h => absurd rfl h
  closed := fun _ => by simp [HmServer.init]
  flushing := fun n h => by simp [HmServer.init] at h
  returned := fun h => by simp [HmServer.init] at h
  absent := fun _ => ⟨rfl, rfl⟩

/-- While a caller is in its quiesce, nothing is admitted. -/
theorem Served.not_opened (h : Served s) (hp : s.present = true)
    (hq : s.work ≠ .idle ∨ s.closing ≠ .idle) : s.state ≠ .opened := by
  rcases hq with hq | hq
  · rw [(h.work hq hp).1]
    exact nofun
  · rw [(h.closed hp).2 hq]
    exact nofun

/-- Behind a flush nothing is queued and nothing runs, since what was queued had been numbered. -/
theorem Served.empty_of_flushed (h : Served s) {n : Nat}
    (hn : s.work = .flushing n ∨ s.closing = .flushing n) (hf : s.Flushed n) :
    s.queue = [] ∧ s.running = none := by
  obtain ⟨-, rfl⟩ := h.flushing n hn
  have hnone : ∀ r, ¬ (r ∈ s.queue ∨ s.running = some r) := fun r hr =>
    absurd (h.reqs r hr).2.2 (hf r hr).not_gt
  exact ⟨List.eq_nil_iff_forall_not_mem.2 fun r hr => hnone r (.inl hr),
    Option.eq_none_iff_forall_ne_some.2 fun r hr => hnone r (.inr hr)⟩

/-- An announcement of the protocol keeps the invariant. -/
theorem Served.autodmsg (h : Served s) : Served s.autodmsg := by
  unfold HmServer.autodmsg HmServer.resume
  split
  · next hw =>
    have hidle : s.work = .idle := by
      by_contra hne
      have hq : Admission.awaiting = .quiesced := hw.2.symm.trans (h.work hne hw.1).1
      cases hq
    have hopen : s.closing = .idle := by
      by_contra hne
      have hc : Admission.awaiting = .closed := hw.2.symm.trans ((h.closed hw.1).2 hne)
      cases hc
    exact { h with
      opened := fun _ _ _ => List.mem_cons_self
      work := fun hne => absurd hidle hne
      closed := fun _ => by simp [hopen] }
  · exact { h with opened := fun _ _ _ => List.mem_cons_self }

/-- A message keeps it, refused or not. -/
theorem Served.rcvmsg (h : Served s) (hr : s.reader = true) (refused : Bool) :
    Served (s.rcvmsg refused) := by
  unfold HmServer.rcvmsg
  split
  · exact h
  · next hstate =>
    simp only [not_or, not_not, Bool.not_eq_false] at hstate
    obtain ⟨hp, -, hopen⟩ := hstate
    have hidle : s.work = .idle ∧ s.closing = .idle := by
      by_contra hne
      exact h.not_opened hp (not_and_or.1 hne) hopen
    refine { h with reqs := fun r hr' => ?_, flushing := ?_, returned := ?_, absent := ?_ }
    · rcases hr' with hr' | hr'
      · rcases List.mem_append.1 hr' with hr' | hr'
        · exact (h.reqs r (.inl hr')).imp_right (And.imp_right Nat.lt_succ_of_lt)
        · obtain rfl := List.mem_singleton.1 hr'
          exact ⟨rfl, decide_eq_true (h.opened hp hopen hr), Nat.lt_succ_self _⟩
      · exact (h.reqs r (.inr hr')).imp_right (And.imp_right Nat.lt_succ_of_lt)
    · simp [hidle.1, hidle.2]
    · simp [hidle.1, hidle.2]
    · simp [hp]

/-- A request that is served keeps it. -/
theorem Served.serve (h : Served s) {r : PeerReq} {rest : List PeerReq} (cancelled : Bool)
    (hq : s.queue = r :: rest) : Served (s.serve cancelled r rest) := by
  have hne : ¬ (s.queue = [] ∧ s.running = none) := fun hempty => by simp [hq] at hempty
  refine { h with
    reqs := fun r' hr' => h.reqs r' ?_
    returned := fun hret => absurd (h.returned hret) hne
    absent := fun hp => absurd (h.absent hp) hne }
  rw [hq]
  rcases hr' with hr' | hr'
  · exact .inl (List.mem_cons_of_mem _ hr')
  · dsimp only [HmServer.serve] at hr'
    split at hr'
    · cases hr'
    · obtain rfl := Option.some.inj hr'
      exact .inl List.mem_cons_self

/-- **A step** keeps what holds. -/
theorem Served.step (h : Served s) (hs : HmStep s t) : Served t := by
  cases hs with
  | quiesce hw hc =>
    unfold HmServer.quiesce HmServer.flush
    by_cases hp : s.present = true
    · have hc : s.closing = .idle := hc.resolve_right (by simp [hp])
      rw [if_pos hp, if_pos hp]
      exact { h with
        opened := fun _ ho => by cases ho
        work := fun _ _ => ⟨rfl, hc⟩
        closed := fun _ => by simp [hc]
        flushing := fun n hn => by simpa [hc, hp, eq_comm] using hn
        returned := fun hr => by simp [hc] at hr }
    · rw [if_neg hp, if_neg hp]
      exact { h with
        work := fun _ hp' => absurd hp' hp
        flushing := fun n hn => h.flushing n (hn.imp_left nofun)
        returned := fun _ => h.absent (Bool.eq_false_of_not_eq_true hp) }
  | close hw hc =>
    unfold HmServer.quiesce HmServer.flush
    by_cases hp : s.present = true
    · rw [if_pos hp, if_pos hp]
      exact { h with
        opened := fun _ ho => by cases ho
        work := fun hne => absurd hw hne
        closed := fun _ => by simp
        flushing := fun n hn => by simpa [hw, hp, eq_comm] using hn
        returned := fun hr => by simp [hw] at hr }
    · rw [if_neg hp, if_neg hp]
      exact { h with
        work := fun hne => absurd hw hne
        closed := fun hp' => absurd hp' hp
        flushing := fun n hn => h.flushing n (hn.imp_right nofun)
        returned := fun _ => h.absent (Bool.eq_false_of_not_eq_true hp) }
  | workFlushed hw hf => exact { h with
      work := fun _ => h.work (by simp [hw])
      flushing := fun n hn => h.flushing n (hn.imp_left nofun)
      returned := fun _ => h.empty_of_flushed (.inl hw) hf }
  | closeFlushed hc hf => exact { h with
      work := fun hw hp => absurd (hc.symm.trans (h.work hw hp).2) nofun
      closed := fun hp => (h.closed hp).trans (by simp [hc])
      flushing := fun n hn => h.flushing n (hn.imp_right nofun)
      returned := fun _ => h.empty_of_flushed (.inr hc) hf }
  | swap hw =>
    obtain ⟨hq, hrun⟩ := h.returned (.inl hw)
    have hreqs : ∀ r, ¬ (r ∈ s.queue ∨ s.running = some r) := by simp [hq, hrun]
    unfold HmServer.swap
    split
    · next hstate => exact { h with
        opened := fun _ ho => by cases ho
        reqs := fun r hr => absurd hr (hreqs r)
        work := fun hne => absurd rfl hne
        closed := fun hp => by simp [(h.work (by simp [hw]) hp).2]
        flushing := fun n hn => h.flushing n (hn.imp_left nofun)
        returned := fun _ => ⟨hq, hrun⟩ }
    · next hstate =>
      have habsent : s.present ≠ true := fun hp => hstate ⟨hp, (h.work (by simp [hw]) hp).1⟩
      exact { h with
        opened := fun hp => absurd hp habsent
        reqs := fun r hr => absurd hr (hreqs r)
        work := fun hne => absurd rfl hne
        flushing := fun n hn => h.flushing n (hn.imp_left nofun)
        returned := fun _ => ⟨hq, hrun⟩ }
  | lost => exact { h with opened := fun _ _ hr => by cases hr }
  | announce _ => exact h.autodmsg
  | request refused hr =>
    unfold HmServer.frame
    split
    · exact h.rcvmsg hr refused
    · exact { h with opened := fun _ _ hr => by cases hr }
  | serve cancelled _ hq => exact h.serve cancelled hq
  | finish => exact { h with
      reqs := fun r hr => h.reqs r (hr.imp_right nofun)
      returned := fun hr => ⟨(h.returned hr).1, rfl⟩
      absent := fun hp => ⟨(h.absent hp).1, rfl⟩ }
  | uninit hc => exact { h with
      opened := fun _ _ hr => by cases hr
      work := fun _ hp => by cases hp
      closed := fun hp => by cases hp
      flushing := fun n hn => by
        have hp := (h.flushing n hn).1
        rcases hn with hw | hc'
        · have hne : s.work ≠ .idle := fun hidle => nomatch hidle.symm.trans hw
          exact absurd (hc.symm.trans (h.work hne hp).2) nofun
        · exact absurd (hc.symm.trans hc') nofun
      absent := fun _ => h.returned (.inr hc) }

/-- No step lifts a close. The work that could write over it has not got the lock. -/
theorem Served.closed_step (h : Served s) (hc : s.state = .closed) (hs : HmStep s t) :
    t.state = .closed := by
  cases hs with
  | quiesce hw hidle =>
    have hp : s.present ≠ true := fun hp =>
      hidle.elim ((h.closed hp).1 hc) fun hp' => by simp [hp] at hp'
    simp [HmServer.quiesce, hp, hc]
  | close _ _ =>
    unfold HmServer.quiesce
    split
    · rfl
    · exact hc
  | swap _ => simp [HmServer.swap, hc]
  | announce _ => simp [HmServer.autodmsg, HmServer.resume, hc]
  | request refused _ =>
    unfold HmServer.frame
    split
    · simp [HmServer.rcvmsg, hc]
    · exact hc
  | _ => exact hc

/-- **Only requests of an admitted connection are executed.** Whatever the order of the steps, what
runs came on the connection that is up, behind the announcement of its peer; so no request of a
connection runs past its swap. A quiesce returns when nothing is queued and nothing runs, and no
step lifts a close. -/
theorem remote_admits {present : Bool}
    (h : Relation.ReflTransGen HmStep (HmServer.init present) s) :
    (∀ r, s.running = some r → r.conn = s.conn ∧ r.announced = true) ∧
      (s.work = .returned ∨ s.closing = .returned → s.queue = [] ∧ s.running = none) ∧
      (s.state = .closed → ∀ t, Relation.ReflTransGen HmStep s t → t.state = .closed) := by
  have hinv : Served s := by
    induction h with
    | refl => exact .init present
    | tail _ hs ih => exact ih.step hs
  refine ⟨fun r hr => ⟨(hinv.reqs r (.inr hr)).1, (hinv.reqs r (.inr hr)).2.1⟩, hinv.returned,
    fun hc t ht => ?_⟩
  have hboth : Served t ∧ t.state = .closed := by
    induction ht with
    | refl => exact ⟨hinv, hc⟩
    | tail _ hs ih => exact ⟨ih.1.step hs, ih.1.closed_step ih.2 hs⟩
  exact hboth.2

/-- The first connection is up, its peer has announced itself, and its request runs. -/
theorem remote_admits_first : ∃ s r, Relation.ReflTransGen HmStep (HmServer.init true) s ∧
    s.running = some r ∧ r.conn = s.conn ∧ r.announced = true := by
  have hrun : Relation.ReflTransGen HmStep (HmServer.init true)
      ⟨true, .opened, 1, true, true, [1], [], some ⟨0, 1, true⟩, 1, .idle, .idle⟩ :=
    .head (.quiesce rfl (.inl rfl)) <| .head (.workFlushed rfl (by simp [HmServer.Flushed,
      HmServer.quiesce, HmServer.init])) <| .head (.swap rfl) <| .head (.announce rfl) <|
      .head (.request false rfl) <| .head (.serve false rfl rfl) .refl
  exact ⟨_, _, hrun, rfl, (remote_admits hrun).1 _ rfl⟩

end

end Hammer2
