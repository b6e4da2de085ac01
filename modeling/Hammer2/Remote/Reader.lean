import Mathlib

/-!
# The reader of a connection

The reader takes a frame off the socket, checks it, and gives it to the state machine of the
transactions, whose errors but `EALREADY` its comment calls fatal to the connection. The error goes
back to the reader, whose loop looks at `KDMSG_CLUSTERCTL_KILLRX` alone: a refused frame is dropped,
and the next one is handled (`threadRd_goes_on`). The connection ends at a refused frame when the
reader meets something else to end it in its next turn, and only then (`threadRd_ends_iff`).

What the handlers and the other threads do to the transactions comes with the run (`RxEnv`).

Reference: `kern_dmsg.c:344-488`, `kern_dmsg.c:568-600`, `kern_dmsg.c:733-784`,
`kern_dmsg.c:839-1166`, `kern_dmsg.c:1387-1466`, `dmsg.h:236-275`.
-/

namespace Hammer2

/-! ## Frames and transactions -/

/-- What is read of a frame. -/
structure DmsgFrame where
  magic : Nat
  /-- `cmd & DMSGF_SIZE`. -/
  size : Nat
  auxSize : Nat
  /-- The rest of the header, and the payload, can be read. -/
  headRead : Bool
  auxRead : Bool
  crcOk : Bool
  /-- The command is in the HM2 space. -/
  hm2 : Bool
  create : Bool
  delete : Bool
  reply : Bool
  abort : Bool
  revtrans : Bool
  revcirc : Bool
  msgid : Nat
  circuit : Nat

/-- `kdmsg_state_t`: an open transaction, with the flags of its `rxcmd` and `txcmd` that are looked
at. -/
structure KState where
  msgid : Nat
  rxCreate : Bool
  rxReply : Bool
  rxDelete : Bool
  txDelete : Bool
  deriving DecidableEq

/-- `kdmsg_iocom_t`; `rd` and `wr` are the trees of the transactions that the peer and this side
have opened. -/
structure Iocom where
  proto2 : Bool
  rd : List KState
  wr : List KState
  killrx : Bool
  killtx : Bool
  deriving DecidableEq

/-- What `kdmsg_state_msgrx` returns. -/
inductive MsgrxError
  | ok | einval | ealready
  deriving DecidableEq

namespace Iocom

variable (io : Iocom) (f : DmsgFrame)

/-- The tree of a frame's transaction, and that of its circuit. -/
def tree (rev : Bool) : List KState := if rev then io.wr else io.rd

def setTree (rev : Bool) (l : List KState) : Iocom :=
  if rev then { io with wr := l } else { io with rd := l }

/-- The transaction of a frame; without one it is `state0`. -/
def find : Option KState := (io.tree f.revtrans).find? (·.msgid == f.msgid)

/-- The error of `kdmsg_state_msgrx`. -/
def stateError : MsgrxError :=
  if f.create = false ∧ f.delete = false ∧ f.abort = false then .ok
  else if f.create then
    if f.reply then if (io.find f).isNone then .einval else .ok
    else if (io.find f).isSome = true ∨
        f.circuit ≠ 0 ∧ (io.tree f.revcirc).all (·.msgid != f.circuit) = true then .einval
    else .ok
  else if (io.find f).any (·.rxCreate) then .ok
  else if f.abort then .ealready
  else .einval

end Iocom

/-- A transaction that receives a message with these flags. -/
def KState.receive (create delete reply : Bool) (k : KState) : KState :=
  let k := if create then { k with rxCreate := true, rxReply := reply, rxDelete := false } else k
  if delete then { k with rxDelete := true } else k

namespace Iocom

variable (io : Iocom) (f : DmsgFrame)

/-- The transactions behind a frame that is not refused: a command opens one, and one that is closed
on both sides leaves its tree. -/
def update : Iocom :=
  if f.create = true ∧ f.reply = false then
    { io with rd := ⟨f.msgid, true, false, f.delete, false⟩ :: io.rd }
  else if f.create = false ∧ f.delete = false then io
  else
    match io.find f with
    | none => io
    | some k =>
      let k := k.receive f.create f.delete f.reply
      let io := io.setTree f.revtrans
        ((io.tree f.revtrans).map fun l => if l.msgid = k.msgid then k else l)
      if f.delete = true ∧ k.txDelete = true then
        io.setTree k.rxReply ((io.tree k.rxReply).filter (·.msgid ≠ k.msgid))
      else io

/-- `kdmsg_state_msgrx`. -/
def msgrx : MsgrxError × Iocom :=
  match io.stateError f with
  | .ok => (.ok, io.update f)
  | e => (e, io)

/-- `kdmsg_msg_receive_handling`, with the error it returns. -/
def receiveHandling (handler : Iocom → Nat × Iocom) : Nat × Iocom :=
  match io.msgrx f with
  | (.ok, io) => handler io
  | (.ealready, io) => (0, io)
  | (.einval, io) => (22, io)

/-- The reader's own checks of a frame. -/
def accepts : Bool :=
  f.magic = 0x4832 ∧ 64 ≤ f.size * 64 ∧ f.size * 64 ≤ 2048 ∧ f.headRead = true ∧
    f.auxSize ≤ 1024 * 1024 ∧ (f.auxSize ≠ 0 → f.auxRead = true) ∧
    (io.proto2 = true → f.crcOk = true) ∧ (f.hm2 = true → io.proto2 = true)

/-- The reader's end shuts the link down. -/
def shutdown : Iocom := { io with killrx := true, killtx := true }

/-- `kdmsg_simulate_failure`, with which the writer then ends the transactions: one that the peer
has not closed receives an end, and its opening if that has not come. -/
def simulateFailure : Iocom :=
  let abort := fun k : KState => if k.rxDelete then k else k.receive (!k.rxCreate) true k.rxReply
  { io with rd := io.rd.map abort, wr := io.wr.map abort }

end Iocom

/-! ## The loop -/

/-- What the reader meets: the other threads in front of each turn, and the handler of each
frame. -/
structure RxEnv where
  between : Nat → Iocom → Iocom
  handler : Nat → DmsgFrame → Iocom → Nat × Iocom

/-- The frames that have reached the state machine, each with what it returned, and whether the
reader has ended. -/
structure RxRun where
  rx : List (DmsgFrame × MsgrxError)
  io : Iocom
  ended : Bool

/-- `kdmsg_iocom_thread_rd` from its turn `n` on, with what the reads of the socket give, `none`
being an error. When nothing more comes, the reader waits. -/
def Iocom.threadRd (env : RxEnv) : Nat → List (Option DmsgFrame) → Iocom → RxRun
  | n, [], io =>
    let io := env.between n io
    if io.killrx then ⟨[], io.shutdown, true⟩ else ⟨[], io, false⟩
  | n, none :: _, io => ⟨[], (env.between n io).shutdown, true⟩
  | n, some f :: rest, io =>
    let io := env.between n io
    if io.killrx = false ∧ io.accepts f = true then
      -- the error that the handling returns is not looked at
      let q := threadRd env (n + 1) rest (io.receiveHandling f (env.handler n f)).2
      ⟨(f, (io.msgrx f).1) :: q.rx, q.io, q.ended⟩
    else ⟨[], io.shutdown, true⟩

/-- The turn `n` ends the connection: the reader has been told to stop, cannot read, or has a frame
that its own checks refuse. -/
def Iocom.Stops (env : RxEnv) (n : Nat) (turns : List (Option DmsgFrame)) (io : Iocom) : Prop :=
  (env.between n io).killrx = true ∨
    ∃ t rest, turns = t :: rest ∧ ∀ f, t = some f → (env.between n io).accepts f = false

/-- Each frame that the state machine refuses is followed by a turn that ends the connection. -/
def Iocom.FatalLast (env : RxEnv) : Nat → List (Option DmsgFrame) → Iocom → Prop
  | _, [], _ => True
  | _, none :: _, _ => True
  | n, some f :: rest, io =>
    let io := env.between n io
    io.killrx = false ∧ io.accepts f = true →
      let io' := (io.receiveHandling f (env.handler n f)).2
      ((io.msgrx f).1 = .einval → Iocom.Stops env (n + 1) rest io') ∧ FatalLast env (n + 1) rest io'

/-- A frame that the state machine refuses with an error other than `EALREADY` is the last one that
it gets, and the link is shut down, so that every transaction is ended. -/
def RxRun.EndsOnError (q : RxRun) : Prop :=
  ∀ l f e r, q.rx = l ++ (f, e) :: r → e ≠ .ok → e ≠ .ealready →
    r = [] ∧ q.ended = true ∧ q.io.killrx = true ∧ q.io.killtx = true ∧
      ∀ k, k ∈ q.io.simulateFailure.rd ∨ k ∈ q.io.simulateFailure.wr → k.rxDelete = true

section
variable {env : RxEnv} {n : Nat} {turns : List (Option DmsgFrame)} {io : Iocom}

/-- The writer ends every transaction. -/
theorem simulateFailure_rxDelete (io : Iocom) {k : KState}
    (hk : k ∈ io.simulateFailure.rd ∨ k ∈ io.simulateFailure.wr) : k.rxDelete = true := by
  have habort : ∀ l : KState,
      (if l.rxDelete then l else l.receive (!l.rxCreate) true l.rxReply).rxDelete = true := by
    intro l
    split
    · assumption
    · rfl
  rcases hk with hk | hk <;>
  · obtain ⟨l, -, rfl⟩ := List.mem_map.1 hk
    exact habort l

/-- A reader that has ended has shut both sides down. -/
theorem threadRd_shutdown (h : (io.threadRd env n turns).ended = true) :
    (io.threadRd env n turns).io.killrx = true ∧ (io.threadRd env n turns).io.killtx = true := by
  induction turns generalizing n io with
  | nil =>
    rw [Iocom.threadRd] at h ⊢
    split
    · exact ⟨rfl, rfl⟩
    · next hk => simp [hk] at h
  | cons t rest ih =>
    cases t with
    | none => exact ⟨rfl, rfl⟩
    | some f =>
      rw [Iocom.threadRd] at h ⊢
      dsimp only at h ⊢
      split
      · next hget =>
        rw [if_pos hget] at h
        exact ih h
      · exact ⟨rfl, rfl⟩

/-- The turn ends the connection if no frame gets through and the reader has ended. -/
theorem stops_iff : io.Stops env n turns ↔
    (io.threadRd env n turns).rx = [] ∧ (io.threadRd env n turns).ended = true := by
  unfold Iocom.Stops
  cases turns with
  | nil =>
    rw [Iocom.threadRd]
    cases (env.between n io).killrx <;> simp
  | cons t rest =>
    cases t with
    | none => simp [Iocom.threadRd]
    | some f =>
      rw [Iocom.threadRd]
      cases (env.between n io).killrx <;> cases hacc : (env.between n io).accepts f <;> simp [hacc]

/-- The property at the first frame and at those behind it. -/
theorem endsOnError_cons {f : DmsgFrame} {e : MsgrxError} {q : RxRun}
    (hq : q.ended = true → q.io.killrx = true ∧ q.io.killtx = true) :
    RxRun.EndsOnError ⟨(f, e) :: q.rx, q.io, q.ended⟩ ↔
      (e = .einval → q.rx = [] ∧ q.ended = true) ∧ q.EndsOnError := by
  constructor
  · intro h
    refine ⟨fun he => ?_, fun l g e' r hr => h ((f, e) :: l) g e' r (by simp [hr])⟩
    obtain ⟨hnil, hend, -⟩ := h [] f e q.rx rfl (by simp [he]) (by simp [he])
    exact ⟨hnil, hend⟩
  · rintro ⟨hfirst, hrest⟩ l g e' r hr hok halready
    cases l with
    | cons p l =>
      obtain ⟨-, hr⟩ := List.cons.inj hr
      exact hrest l g e' r hr hok halready
    | nil =>
      obtain ⟨hp, rfl⟩ := List.cons.inj hr
      obtain ⟨-, rfl⟩ := Prod.mk.inj hp
      have he : e = .einval := by
        cases e with
        | einval => rfl
        | ok => exact absurd rfl hok
        | ealready => exact absurd rfl halready
      obtain ⟨hnil, hend⟩ := hfirst he
      exact ⟨hnil, hend, (hq hend).1, (hq hend).2, fun _ => simulateFailure_rxDelete _⟩

/-- A run with no frame has no refused frame. -/
theorem endsOnError_nil {io : Iocom} {ended : Bool} : RxRun.EndsOnError ⟨[], io, ended⟩ := by
  intro l f e r hr
  simp at hr

/-- **A refused frame ends the connection** exactly when the reader's next turn ends it for another
reason. -/
theorem threadRd_ends_iff (env : RxEnv) (n : Nat) (turns : List (Option DmsgFrame)) (io : Iocom) :
    (io.threadRd env n turns).EndsOnError ↔ io.FatalLast env n turns := by
  induction turns generalizing n io with
  | nil =>
    rw [Iocom.threadRd, Iocom.FatalLast]
    refine iff_of_true ?_ trivial
    split <;> exact endsOnError_nil
  | cons t rest ih =>
    cases t with
    | none => exact iff_of_true endsOnError_nil trivial
    | some f =>
      rw [Iocom.threadRd, Iocom.FatalLast]
      dsimp only
      split
      · next hget =>
        rw [endsOnError_cons threadRd_shutdown, ih, stops_iff]
        exact ⟨fun h _ => h, fun h => h hget⟩
      · next hget => exact iff_of_true endsOnError_nil fun h => absurd h hget

end

/-- A frame that closes a transaction that is not there, and one that opens a transaction. -/
def strayDelete : DmsgFrame :=
  ⟨0x4832, 1, 0, true, true, true, false, false, true, false, false, false, false, 7, 0⟩

def openFrame : DmsgFrame := { strayDelete with create := true, delete := false, msgid := 8 }

/-- No handler and no other thread does anything. -/
def quietEnv : RxEnv := ⟨fun _ io => io, fun _ _ io => (0, io)⟩

/-- The frame behind a refused one opens a transaction, and the reader goes on. -/
theorem threadRd_goes_on :
    let q := Iocom.threadRd quietEnv 0 [some strayDelete, some openFrame]
      ⟨false, [], [], false, false⟩
    q.rx.map Prod.snd = [.einval, .ok] ∧ q.io.rd = [⟨8, true, false, false, false⟩] ∧
      q.ended = false ∧ q.io.killrx = false ∧ ¬ q.EndsOnError := by
  refine ⟨rfl, rfl, rfl, rfl, fun h => ?_⟩
  obtain ⟨hnil, -⟩ := h [] strayDelete .einval [(openFrame, .ok)] rfl nofun nofun
  cases hnil

end Hammer2
