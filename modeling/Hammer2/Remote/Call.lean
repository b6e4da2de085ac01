import Hammer2.Lib.Run
import Hammer2.Remote.Frame

/-!
# The vote of a remote element

A request in flight is a call. The reply callback checks each frame of the peer: it has to carry the
call's tag and come in its place, within the window, and a frame that is refused or lost is an error
of the call that no later frame takes back. The element takes the frames until the call has ended,
feeds a proxy for each, and feeds its end: the peer's, if the peer has closed the call, and
otherwise an error that the quorum does not count.

A run is any sequence of messages, turns of the element and the end of the link; what a step meets
besides (memory, the clock, a frontend that has gone) comes with it. A vote is backed by the closing
frame of the peer (`remoteXop_backed`).

Reference: `hammer2_remote.c:1128-1157`, `hammer2_remote.c:1297-1624`, `hammer2_remote.c:1990-2176`.
-/

namespace Hammer2

/-! ## Calls -/

/-- An `int` after arithmetic. -/
def wrap32 (x : Int) : Int := (x + 2 ^ 31) % 2 ^ 32 - 2 ^ 31

/-- A `uint32_t` made of an `int`. -/
def toU32 (x : Int) : Nat := (x % 2 ^ 32).toNat

/-- `struct hammer2_rcall`. -/
structure RCall where
  tag : Nat
  frames : List RFrame
  nrecv : Int
  allowed : Int
  txclosed : Bool
  done : Bool
  eof : Bool
  rkey : Nat
  error : Nat

/-- The call that `hammer2_rcall_start` makes. -/
def RCall.start (tag : Nat) : RCall := ⟨tag, [], 0, xopFifo, false, false, false, 0, 0⟩

/-- A message on the transaction of a call: a feed, with the memory its copy finds, or another
command, which is how kern_dmsg tells of a refusal or the link's loss. -/
inductive HmReply
  | feed (delete : Bool) (m : HmFeed) (frameMem dataMem : Bool)
  | other (delete : Bool)

/-- The feed has no data for its bytes. -/
def HmFeed.noData (m : HmFeed) : Bool :=
  remoteError m.error = 0 ∧ m.bytes ≠ 0 ∧
    (pbufSize < m.bytes ∨ m.aux = none ∨ m.auxSize < m.bytes)

/-- The copy of a feed; there may be no memory for its data. -/
def HmFeed.copy (m : HmFeed) (dataMem : Bool) : RFrame where
  bref := m.bref
  bytes := m.bytes
  error := remoteError m.error
  data := if remoteError m.error = 0 ∧ m.bytes ≠ 0 ∧ m.noData = false ∧ dataMem = true then m.aux
    else none

/-- The copy lacks the data of its bytes. -/
def RFrame.lacksData (f : RFrame) : Bool := f.error = 0 ∧ f.bytes ≠ 0 ∧ f.data = none

/-- The feed is another call's, or out of its place. -/
def RCall.misplaced (c : RCall) (m : HmFeed) : Bool := m.tag ≠ c.tag ∨ m.seq ≠ toU32 c.nrecv

/-- The part of `hammer2_rcall_reply` that takes a feed with a chain, for which a frame could be
allocated. -/
def RCall.take (c : RCall) (m : HmFeed) (dataMem : Bool) : RCall :=
  let bad := m.noData || c.misplaced m
  let nrecv := wrap32 (c.nrecv + 1)
  if (bad || decide (c.allowed < nrecv) || (m.copy dataMem).lacksData) = true then
    { c with nrecv := nrecv, error := errorEio }
  else { c with nrecv := nrecv, frames := c.frames ++ [m.copy dataMem] }

/-- The part of `hammer2_rcall_reply` that closes the call with the peer's error. -/
def RCall.close (c : RCall) (error : Nat) : RCall :=
  { c with
    error := if c.error = 0 then error else c.error
    done := true
    txclosed := true }

/-- `hammer2_rcall_reply`. A message behind the close finds no call, and ends the link. -/
def RCall.reply (c : RCall) (m : HmReply) : RCall :=
  if c.done then c
  else
    match m with
    | .feed false m frameMem dataMem =>
      if frameMem then c.take m dataMem else { c with error := errorEio }
    | .feed true m _ _ =>
      let c := if (decide (m.bytes ≠ 0) || c.misplaced m) = true then { c with error := errorEio }
        else c
      { c with eof := c.eof || m.eof, rkey := m.rkey }.close m.error
    | .other true => c.close errorEnotconn
    | .other false => c

/-- What a wait of the element finds: the deadline has passed before it looks, or behind it. -/
structure NextTime where
  late : Bool
  expired : Bool

/-- A turn of the loop of `hammer2_rcall_next`: `none` waits. The flag says that a continuation has
gone out, which allows another window. -/
def RCall.next (c : RCall) (dead : Bool) (t : NextTime) :
    Option (Except Nat RFrame) × RCall × Bool :=
  if c.done = false ∧ t.late = true then (some (.error errorEtimedout), c, false)
  else
    match c.frames with
    | f :: rest =>
      if c.done = false ∧ c.txclosed = false ∧ dead = false ∧ c.nrecv = c.allowed ∧ rest = [] then
        (some (.ok f), { c with frames := rest, allowed := wrap32 (c.allowed + xopFifo) }, true)
      else (some (.ok f), { c with frames := rest }, false)
    | [] =>
      if c.done then (some (.error errorEof), c, false)
      else if dead then (some (.error errorEnotconn), c, false)
      else if t.expired then (some (.error errorEtimedout), c, false)
      else (none, c, false)

/-- `hammer2_rcall_end`. -/
def RCall.finish (c : RCall) : RCall := if c.done then c else { c with txclosed := true }

/-! ## The element -/

/-- How the element has ended: it is running, it has fed an end with an error, or it has not fed an
end. -/
inductive ElemEnd
  | running | fed (error : Nat) | silent
  deriving DecidableEq

/-- A proxy that was fed. -/
structure FedProxy where
  bref : RemoteBref
  data : Option RemoteData
  error : Nat
  deriving DecidableEq

/-- The element in `hammer2_remote_xop`; `dead` is its connection's, and `rkey` the key at which the
frontend's readdir stops. -/
structure RemoteElem where
  call : RCall
  dead : Bool
  fed : Nat
  maxkey : Nat
  feeds : List FedProxy
  rkey : Nat
  ending : ElemEnd

/-- What a turn of the element meets: the clock, memory for a proxy, the error of its load, and
whether the frontend is there for the proxy and for the end. -/
structure RemoteTurn where
  time : NextTime
  mem : Bool
  loadError : Nat
  active : Bool
  endActive : Bool

/-- The element feeds its end. -/
def RemoteElem.finish (s : RemoteElem) (t : RemoteTurn) (error : Nat) : RemoteElem :=
  { s with
    call := s.call.finish
    ending := if t.endActive then .fed (remoteEnd error) else .silent }

/-- The frame is given to the collect. -/
def RemoteElem.accepts (s : RemoteElem) (req : RemoteReq) (f : RFrame) : Bool :=
  (s.fed : Int) < req.cap ∧ (s.fed = 0 ∨ s.maxkey < f.bref.key) ∧ req.inRange f ∧ req.proxyOk f

/-- The element takes a frame. -/
def RemoteElem.frame (s : RemoteElem) (req : RemoteReq) (t : RemoteTurn) (f : RFrame) :
    RemoteElem :=
  if s.accepts req f = false ∨ t.mem = false then s.finish t errorEio
  else if t.active = false then
    { s with maxkey := f.bref.key, fed := s.fed + 1 }.finish t errorAborted
  else
    { s with
      maxkey := f.bref.key
      fed := s.fed + 1
      feeds := s.feeds ++ [⟨f.bref, f.data, if f.error = 0 then t.loadError else f.error⟩] }

/-- The peer has closed the call, and its frames are taken. A clean close with no end is an answer
only from an operation of one chain, behind that chain. -/
def RemoteElem.closed (s : RemoteElem) (req : RemoteReq) (t : RemoteTurn) : RemoteElem :=
  let error := s.call.error
  let s := if req.kind = .readdir ∧ s.call.eof = true ∧ error = 0 ∧ 0 < s.fed ∧
      req.nmax ≤ s.fed ∧ s.maxkey < s.call.rkey ∧ s.call.rkey < s.rkey then
      { s with rkey := s.call.rkey }
    else s
  let error := if s.call.eof = false ∧ error = 0 ∧ ¬ (req.onechain = true ∧ s.fed = 1) then
    errorEnotconn else error
  if s.call.eof = true ∨ error ≠ 0 then s.finish t error
  else { s with call := s.call.finish, ending := .silent }

/-- A turn of the loop of `hammer2_remote_xop`. -/
def RemoteElem.turn (s : RemoteElem) (req : RemoteReq) (t : RemoteTurn) : RemoteElem :=
  if s.ending ≠ .running then s
  else
    let r := s.call.next s.dead t.time
    let s := { s with call := r.2.1 }
    match r.1 with
    | none => s
    | some (.ok f) => s.frame req t f
    | some (.error e) => if e = errorEof then s.closed req t else s.finish t e

/-- What happens to the element: a message on its transaction, the end of its link, or a turn. -/
inductive RemoteEvent
  | msg (m : HmReply)
  | kill
  | turn (t : RemoteTurn)

def RemoteElem.step (req : RemoteReq) (s : RemoteElem) : RemoteEvent → RemoteElem
  | .msg m => { s with call := s.call.reply m }
  | .kill => { s with dead := true }
  | .turn t => s.turn req t

/-! ## The operation -/

/-- The operation of an XOP, as `hammer2_remote_desc_idx` finds it: it asks the peer, or is the
flush, which asks it nothing, or one that a remote element cannot do. -/
inductive RemoteOp
  | asks (req : RemoteReq)
  | inodeFlush
  | unsupported

/-- The slot of the element: on this host, that of a proxy whose connection has gone, or a
connection's. -/
inductive RemoteSlot
  | here | gone | conn

/-- How `hammer2_rcall_start` ends: with a call, for lack of memory, or because the link has
gone. -/
inductive CallStart
  | sent (tag : Nat)
  | noMemory
  | linkGone

/-- `hammer2_remote_xop` up to its loop: `none` when the element is this host's. -/
def remoteXop (slot : RemoteSlot) (op : RemoteOp) (sent : CallStart) (rkey : Nat) :
    Option RemoteElem :=
  let elem (tag : Nat) (ending : ElemEnd) : RemoteElem :=
    ⟨.start tag, false, 0, 0, [], rkey, ending⟩
  match slot with
  | .here => none
  | .gone => some (elem 0 (.fed errorEnotconn))
  | .conn =>
    match op with
    | .inodeFlush => some (elem 0 (.fed 0))
    | .unsupported => some (elem 0 (.fed (remoteEnd errorEopnotsupp)))
    | .asks _ =>
      match sent with
      | .sent tag => some (elem tag .running)
      | .noMemory => some (elem 0 (.fed (remoteEnd errorEio)))
      | .linkGone => some (elem 0 (.fed (remoteEnd errorEnotconn)))

/-! ## What the peer has sent -/

/-- The feed of a message that has a chain. -/
def RemoteEvent.feed? : RemoteEvent → Option HmFeed
  | .msg (.feed false m _ _) => some m
  | _ => none

/-- The message closes the call. -/
def RemoteEvent.deletes : RemoteEvent → Bool
  | .msg (.feed delete _ _ _) => delete
  | .msg (.other delete) => delete
  | _ => false

/-- The feeds that have come. -/
def feedsOf (evs : List RemoteEvent) : List HmFeed := evs.filterMap RemoteEvent.feed?

/-- The feeds are those of the call, without a gap. -/
def GapFree (tag : Nat) (ms : List HmFeed) : Prop :=
  ∀ n (m : HmFeed), ms[n]? = some m → m.tag = tag ∧ m.seq = n

/-- The peer has closed the call with the error, behind all the feeds it counts. -/
def PeerClosed (tag : Nat) (evs : List RemoteEvent) (error : Nat) (eof : Bool) : Prop :=
  ∃ pre m frameMem dataMem post, evs = pre ++ .msg (.feed true m frameMem dataMem) :: post ∧
    (∀ ev ∈ pre, ev.deletes = false) ∧ GapFree tag (feedsOf pre) ∧ m.tag = tag ∧
    m.seq = (feedsOf pre).length ∧ m.bytes = 0 ∧ m.error = error ∧ m.eof = eof

section
variable {tag : Nat} {evs : List RemoteEvent} {ev : RemoteEvent}
    {c : RCall} {error : Nat} {eof : Bool}

/-- What the peer has closed stays closed. -/
theorem PeerClosed.append (h : PeerClosed tag evs error eof) (ev : RemoteEvent) :
    PeerClosed tag (evs ++ [ev]) error eof := by
  obtain ⟨pre, m, fm, dm, post, rfl, hrest⟩ := h
  exact ⟨pre, m, fm, dm, post ++ [ev], by simp, hrest⟩

/-! ## Counters -/

theorem wrap32_lt (x : Int) : wrap32 x < 2 ^ 31 := by
  unfold wrap32
  omega

theorem wrap32_of_lt {x : Int} (h₀ : 0 ≤ x) (h : x < 2 ^ 31) : wrap32 x = x := by
  unfold wrap32
  omega

theorem wrap32_dvd {x : Int} (h : (16 : Int) ∣ x) : (16 : Int) ∣ wrap32 x := by
  unfold wrap32
  omega

theorem toU32_of_lt {n : Nat} (h : n < 2 ^ 31) : toU32 n = n := by
  unfold toU32
  omega

/-! ## The call -/

/-- What a call knows of the events that have been. -/
structure CallInv (tag : Nat) (evs : List RemoteEvent) (c : RCall) : Prop where
  same : c.tag = tag
  window : (16 : Int) ∣ c.allowed ∧ c.allowed < 2 ^ 31
  fresh : c.done = false → (∀ ev ∈ evs, ev.deletes = false) ∧ c.eof = false ∧
    (c.error = 0 ∨ c.error = errorEio)
  placed : c.done = false → c.error = 0 → GapFree tag (feedsOf evs) ∧
    c.nrecv = (feedsOf evs).length ∧ (feedsOf evs).length ≤ 2 ^ 31 - 16
  closed : c.done = true → c.error = errorEio ∨ c.error = errorEnotconn ∨
    PeerClosed tag evs c.error c.eof

/-- The invariant holds before the first event. -/
theorem CallInv.start (tag : Nat) : CallInv tag [] (.start tag) :=
  ⟨rfl, ⟨⟨1, rfl⟩, by show (16 : Int) < 2 ^ 31; decide⟩,
    fun _ => ⟨fun _ hev => absurd hev List.not_mem_nil, rfl, .inl rfl⟩,
    fun _ _ => ⟨fun _ _ hm => (nomatch hm), rfl, Nat.zero_le _⟩, nofun⟩

theorem feedsOf_append (evs : List RemoteEvent) (ev : RemoteEvent) :
    feedsOf (evs ++ [ev]) = feedsOf evs ++ ev.feed?.toList := by
  unfold feedsOf
  rw [List.filterMap_append]
  cases h : ev.feed? <;> simp [h]

/-- Before the call is done no event has closed it. -/
theorem CallInv.undeleted (h : CallInv tag evs c) (hd : c.done = false) (hev : ev.deletes = false) :
    ∀ e ∈ evs ++ [ev], e.deletes = false := by
  intro e he
  rcases List.mem_append.1 he with he | he
  · exact (h.fresh hd).1 e he
  · rw [List.mem_singleton.1 he]
    exact hev

/-- An event that the call does not see. -/
theorem CallInv.skip (h : CallInv tag evs c) (hfeed : ev.feed? = none ∨ c.done = true)
    (hdel : ev.deletes = false ∨ c.done = true) : CallInv tag (evs ++ [ev]) c where
  same := h.same
  window := h.window
  fresh := fun hd => ⟨h.undeleted hd (hdel.resolve_right (by simp [hd])), (h.fresh hd).2⟩
  placed := fun hd h0 => by
    rw [feedsOf_append, hfeed.resolve_right (by simp [hd]), Option.toList_none, List.append_nil]
    exact h.placed hd h0
  closed := fun hd => (h.closed hd).imp_right (Or.imp_right fun hp => hp.append ev)

/-- A change that leaves the counters and the error of the call. -/
theorem CallInv.of_eq {c' : RCall} (h : CallInv tag evs c) (htag : c'.tag = c.tag)
    (hwindow : (16 : Int) ∣ c'.allowed ∧ c'.allowed < 2 ^ 31) (hnrecv : c'.nrecv = c.nrecv)
    (hdone : c'.done = c.done) (heof : c'.eof = c.eof) (herror : c'.error = c.error) :
    CallInv tag evs c' := by
  refine ⟨htag.trans h.same, hwindow, ?_, ?_, ?_⟩
  · rw [hdone, heof, herror]
    exact h.fresh
  · rw [hdone, hnrecv, herror]
    exact h.placed
  · rw [hdone, heof, herror]
    exact h.closed

/-- Waiting for the next frame keeps the invariant. -/
theorem CallInv.next (h : CallInv tag evs c) (dead : Bool) (t : NextTime) :
    CallInv tag evs (c.next dead t).2.1 := by
  unfold RCall.next
  split
  · exact h
  · cases hf : c.frames with
    | nil =>
      dsimp only
      split_ifs <;> exact h
    | cons f rest =>
      dsimp only
      split
      · refine h.of_eq rfl ⟨wrap32_dvd ?_, wrap32_lt _⟩ rfl rfl rfl rfl
        exact (h.window.1).add (by decide)
      · exact h.of_eq rfl h.window rfl rfl rfl rfl

/-- The end of the call keeps it. -/
theorem CallInv.finish (h : CallInv tag evs c) : CallInv tag evs c.finish := by
  unfold RCall.finish
  split
  · exact h
  · exact h.of_eq rfl h.window rfl rfl rfl rfl

/-- A feed in its place goes on with the sequence. -/
theorem GapFree.append {ms : List HmFeed} {m : HmFeed} (h : GapFree tag ms) (htag : m.tag = tag)
    (hseq : m.seq = ms.length) : GapFree tag (ms ++ [m]) := by
  intro n x hx
  rcases Nat.lt_or_ge n ms.length with hn | hn
  · rw [List.getElem?_append_left hn] at hx
    exact h n x hx
  · rw [List.getElem?_append_right hn] at hx
    obtain ⟨hlt, rfl⟩ : n - ms.length = 0 ∧ m = x := by
      rcases hk : n - ms.length with _ | k
      · rw [hk] at hx
        exact ⟨rfl, Option.some.inj hx⟩
      · rw [hk] at hx
        cases hx
    exact ⟨htag, by omega⟩

/-- A frame in its place has the tag and the next sequence number. -/
theorem RCall.placed_of_not {m : HmFeed} (h : CallInv tag evs c) (hd : c.done = false)
    (h0 : c.error = 0) (hm : c.misplaced m = false) :
    m.tag = tag ∧ m.seq = (feedsOf evs).length := by
  obtain ⟨-, hn, hlt⟩ := h.placed hd h0
  unfold RCall.misplaced at hm
  rw [decide_eq_false_iff_not, not_or, not_not, not_not, hn, toU32_of_lt (by omega)] at hm
  exact ⟨hm.1.trans h.same, hm.2⟩

/-- A feed with a chain. -/
theorem CallInv.take (h : CallInv tag evs c) (hd : c.done = false) (m : HmFeed) (dm : Bool) :
    CallInv tag (evs ++ [.msg (.feed false m true dm)]) (c.take m dm) := by
  obtain ⟨-, heof, herror⟩ := h.fresh hd
  have hdel : ∀ e ∈ evs ++ [.msg (.feed false m true dm)], e.deletes = false :=
    h.undeleted hd rfl
  unfold RCall.take
  dsimp only
  split
  · refine ⟨h.same, h.window, fun _ => ⟨hdel, heof, .inr rfl⟩, fun _ h0 => ?_, fun h' => ?_⟩
    · exact absurd h0 Nat.one_ne_zero
    · cases hd.symm.trans h'
  · next hok =>
    simp only [Bool.or_eq_true, decide_eq_true_eq, not_or, Bool.not_eq_true] at hok
    obtain ⟨⟨⟨-, hplace⟩, hwin⟩, -⟩ := hok
    refine ⟨h.same, h.window, fun _ => ⟨hdel, heof, herror⟩, fun _ h0 => ?_, fun h' => ?_⟩
    · obtain ⟨hgap, hn, hlt⟩ := h.placed hd h0
      obtain ⟨htag, hseq⟩ := RCall.placed_of_not h hd h0 hplace
      obtain ⟨⟨k, hk⟩, hlim⟩ := h.window
      have hwrap : wrap32 (c.nrecv + 1) = c.nrecv + 1 := wrap32_of_lt (by omega) (by omega)
      rw [hwrap] at hwin
      rw [feedsOf_append]
      refine ⟨hgap.append htag hseq, ?_, ?_⟩
      · rw [hwrap, hn]
        simp [RemoteEvent.feed?]
      · rw [List.length_append]
        simp only [RemoteEvent.feed?, Option.toList_some, List.length_singleton]
        omega
    · cases hd.symm.trans h'

/-- The close of a call. -/
theorem CallInv.close (h : CallInv tag evs c) (ev : RemoteEvent) {c' : RCall} (hc : c'.tag = c.tag)
    (hw : c'.allowed = c.allowed) (herror : c'.error ≠ 0 → c'.error = errorEio)
    (hend : c'.error = 0 → error = errorEnotconn ∨ PeerClosed tag (evs ++ [ev]) error c'.eof) :
    CallInv tag (evs ++ [ev]) (c'.close error) := by
  refine ⟨hc.trans h.same, hw ▸ h.window, nofun, nofun, fun _ => ?_⟩
  unfold RCall.close
  dsimp only
  split
  · next h0 => exact .inr (hend h0)
  · next h0 => exact .inl (herror h0)

/-- **The reply callback.** -/
theorem CallInv.reply (h : CallInv tag evs c) (m : HmReply) :
    CallInv tag (evs ++ [.msg m]) (c.reply m) := by
  unfold RCall.reply
  split
  · next hd => exact h.skip (.inr hd) (.inr hd)
  · next hd =>
    have hd : c.done = false := by simpa using hd
    obtain ⟨-, heof, herror⟩ := h.fresh hd
    have hEio : c.error ≠ 0 → c.error = errorEio := fun h0 => herror.resolve_left h0
    match m with
    | .feed false m true dm => exact h.take hd m dm
    | .feed false m false dm =>
      refine ⟨h.same, h.window, fun _ => ⟨h.undeleted hd rfl, heof, .inr rfl⟩, fun _ h0 => ?_,
        fun h' => ?_⟩
      · exact absurd h0 Nat.one_ne_zero
      · cases hd.symm.trans h'
    | .feed true m fm dm =>
      dsimp only
      split
      · exact h.close _ rfl rfl (fun _ => rfl) fun h0 => absurd h0 Nat.one_ne_zero
      · next hok =>
        simp only [Bool.or_eq_true, decide_eq_true_eq, not_or, not_not, Bool.not_eq_true] at hok
        refine h.close _ rfl rfl hEio fun h0 => .inr ?_
        obtain ⟨htag, hseq⟩ := RCall.placed_of_not h hd h0 hok.2
        refine ⟨evs, m, fm, dm, [], rfl, (h.fresh hd).1, (h.placed hd h0).1, htag,
          hseq, hok.1, rfl, ?_⟩
        simp [heof]
    | .other true => exact h.close _ rfl rfl hEio fun _ => .inl rfl
    | .other false => exact h.skip (.inl rfl) (.inl rfl)

/-- A call that the peer has closed with an answer. -/
theorem CallInv.answered (h : CallInv tag evs c) (hd : c.done = true)
    (he : c.error = 0 ∨ c.error = errorEnoent) : PeerClosed tag evs c.error c.eof := by
  rcases h.closed hd with hc | hc | hc
  · rcases he with he | he <;> cases he.symm.trans hc
  · rcases he with he | he <;> cases he.symm.trans hc
  · exact hc

/-! ## The element -/

/-- The proxies fed are ascending, within the limit, and what was asked for. -/
structure FeedsOk (req : RemoteReq) (s : RemoteElem) : Prop where
  ascending : (s.feeds.map (·.bref.key)).Pairwise (· < ·)
  below : ∀ p ∈ s.feeds, p.bref.key ≤ s.maxkey
  count : s.feeds.length ≤ s.fed
  limit : s.fed ≤ req.cap.toNat
  asked : ∀ p ∈ s.feeds, req.Asks p.bref

/-- An end that counts is the peer's. -/
def VoteOk (tag : Nat) (evs : List RemoteEvent) (ending : ElemEnd) : Prop :=
  ∀ e, ending = .fed e → disconnected e = true ∨
    (e = 0 ∨ e = errorEnoent) ∧ ∃ eof, PeerClosed tag evs e eof ∧ (e = 0 → eof = true)

structure ElemInv (req : RemoteReq) (tag : Nat) (evs : List RemoteEvent) (s : RemoteElem) :
    Prop where
  call : CallInv tag evs s.call
  feeds : FeedsOk req s
  vote : VoteOk tag evs s.ending

/-- How `hammer2_rcall_next` ends without a frame. -/
theorem RCall.next_error {dead : Bool} {t : NextTime} {e : Nat}
    (h : (c.next dead t).1 = some (.error e)) :
    (c.next dead t).2.1 = c ∧ (e = errorEof ∧ c.done = true ∧ c.frames = [] ∨
      e = errorEtimedout ∨ e = errorEnotconn) := by
  unfold RCall.next at h ⊢
  split at h
  · next hlate =>
    rw [if_pos hlate]
    obtain rfl : errorEtimedout = e := by simpa using h
    exact ⟨rfl, .inr (.inl rfl)⟩
  · next hlate =>
    rw [if_neg hlate]
    cases hf : c.frames with
    | nil =>
      rw [hf] at h
      dsimp only at h ⊢
      split_ifs at h ⊢ with hd hdead hexp
      · obtain rfl : errorEof = e := by simpa using h
        exact ⟨rfl, .inl ⟨rfl, hd, rfl⟩⟩
      · obtain rfl : errorEnotconn = e := by simpa using h
        exact ⟨rfl, .inr (.inr rfl)⟩
      · obtain rfl : errorEtimedout = e := by simpa using h
        exact ⟨rfl, .inr (.inl rfl)⟩
    | cons f rest =>
      rw [hf] at h
      dsimp only at h
      split at h <;> cases h

variable {req : RemoteReq} {s : RemoteElem} {t : RemoteTurn}

theorem FeedsOk.of_eq {s' : RemoteElem} (h : FeedsOk req s) (hfeeds : s'.feeds = s.feeds)
    (hmax : s'.maxkey = s.maxkey) (hfed : s'.fed = s.fed) : FeedsOk req s' := by
  refine ⟨?_, ?_, ?_, ?_, ?_⟩
  · rw [hfeeds]
    exact h.ascending
  · rw [hfeeds, hmax]
    exact h.below
  · rw [hfeeds, hfed]
    exact h.count
  · rw [hfed]
    exact h.limit
  · rw [hfeeds]
    exact h.asked

/-- An end that is no answer. -/
theorem ElemInv.finish (h : ElemInv req tag evs s) {e : Nat} (h0 : e ≠ 0) (he : e ≠ errorEnoent) :
    ElemInv req tag evs (s.finish t e) := by
  refine ⟨h.call.finish, h.feeds.of_eq rfl rfl rfl, fun e' he' => .inl ?_⟩
  unfold RemoteElem.finish at he'
  dsimp only at he'
  split at he'
  · obtain rfl := ElemEnd.fed.inj he'
    rcases Bool.eq_false_or_eq_true (disconnected (remoteEnd e)) with hd | hd
    · exact hd
    · rcases (remoteEnd_counted hd).2 with rfl | rfl
      · exact absurd rfl h0
      · exact absurd rfl he
  · cases he'

/-- A frame that is accepted keeps the feeds in order. -/
theorem RemoteElem.frame_feeds (h : FeedsOk req s) {f : RFrame} (ha : s.accepts req f = true)
    (error : Nat) : FeedsOk req { s with
      maxkey := f.bref.key, fed := s.fed + 1, feeds := s.feeds ++ [⟨f.bref, f.data, error⟩] } := by
  obtain ⟨hcap, hkey, hrange, -⟩ := of_decide_eq_true ha
  have hbelow : ∀ p ∈ s.feeds, p.bref.key < f.bref.key := by
    intro p hp
    refine lt_of_le_of_lt (h.below p hp) (hkey.resolve_left fun h0 => ?_)
    have hcount := h.count
    rw [h0, Nat.le_zero, List.length_eq_zero_iff] at hcount
    rw [hcount] at hp
    cases hp
  refine ⟨?_, ?_, ?_, ?_, ?_⟩
  · rw [List.map_append, List.pairwise_append]
    refine ⟨h.ascending, List.pairwise_singleton .., fun a ha b hb => ?_⟩
    obtain ⟨p, hp, rfl⟩ := List.mem_map.1 ha
    obtain rfl := List.mem_singleton.1 hb
    exact hbelow p hp
  · intro p hp
    rcases List.mem_append.1 hp with hp | hp
    · exact (hbelow p hp).le
    · rw [List.mem_singleton.1 hp]
  · rw [List.length_append]
    exact Nat.succ_le_succ h.count
  · dsimp only
    omega
  · intro p hp
    rcases List.mem_append.1 hp with hp | hp
    · exact h.asked p hp
    · rw [List.mem_singleton.1 hp]
      exact RemoteReq.asks_of_inRange hrange

/-- A frame keeps the invariant of the element. -/
theorem ElemInv.frame (h : ElemInv req tag evs s) (hr : s.ending = .running) (f : RFrame) :
    ElemInv req tag evs (s.frame req t f) := by
  unfold RemoteElem.frame
  split
  · exact h.finish (e := errorEio) (by decide) (by decide)
  · next hrefused =>
    rw [not_or, Bool.not_eq_false, Bool.not_eq_false] at hrefused
    split
    · have hfeeds := RemoteElem.frame_feeds h.feeds hrefused.1 0
      have hcounted : ElemInv req tag evs { s with maxkey := f.bref.key, fed := s.fed + 1 } := by
        refine ⟨h.call, ⟨h.feeds.ascending, fun p hp => ?_, Nat.le_succ_of_le h.feeds.count,
          hfeeds.limit, h.feeds.asked⟩, h.vote⟩
        exact hfeeds.below p (List.mem_append_left _ hp)
      exact hcounted.finish (e := errorAborted) (by decide) (by decide)
    · refine ⟨h.call, RemoteElem.frame_feeds h.feeds hrefused.1 _, fun e he => ?_⟩
      cases hr.symm.trans he

theorem ElemInv.of_rkey (h : ElemInv req tag evs s) (rkey : Nat) :
    ElemInv req tag evs { s with rkey := rkey } :=
  ⟨h.call, h.feeds.of_eq rfl rfl rfl, h.vote⟩

/-- The end of a call that the peer has closed is the peer's. -/
theorem ElemInv.closed (h : ElemInv req tag evs s) (hd : s.call.done = true) :
    ElemInv req tag evs (s.closed req t) := by
  unfold RemoteElem.closed
  dsimp only
  generalize hs' : (if req.kind = .readdir ∧ s.call.eof = true ∧ s.call.error = 0 ∧ 0 < s.fed ∧
    req.nmax ≤ s.fed ∧ s.maxkey < s.call.rkey ∧ s.call.rkey < s.rkey then
      { s with rkey := s.call.rkey } else s) = s'
  obtain ⟨h', hcall⟩ : ElemInv req tag evs s' ∧ s'.call = s.call := by
    rw [← hs']
    split
    · exact ⟨h.of_rkey _, rfl⟩
    · exact ⟨h, rfl⟩
  rw [hcall]
  split_ifs with hshort hend hend
  · exact h'.finish (e := errorEnotconn) (by decide) (by decide)
  · exact absurd (.inr (by decide)) hend
  · refine ⟨h'.call.finish, h'.feeds.of_eq rfl rfl rfl, fun e he => ?_⟩
    unfold RemoteElem.finish at he
    dsimp only at he
    split at he
    · obtain rfl := ElemEnd.fed.inj he
      rcases Bool.eq_false_or_eq_true (disconnected (remoteEnd s.call.error)) with hdis | hdis
      · exact .inl hdis
      · obtain ⟨heq, hcount⟩ := remoteEnd_counted hdis
        rw [heq]
        refine .inr ⟨hcount, s.call.eof, h.call.answered hd hcount, fun h0 => ?_⟩
        exact hend.resolve_right fun hne => hne h0
    · cases he
  · exact ⟨h.call.finish, h'.feeds.of_eq rfl rfl rfl, nofun⟩

/-- **A turn of the element.** -/
theorem ElemInv.turn (h : ElemInv req tag evs s) : ElemInv req tag evs (s.turn req t) := by
  unfold RemoteElem.turn
  split
  · exact h
  · next hr =>
    have hr : s.ending = .running := not_not.1 hr
    have hnext : ElemInv req tag evs { s with call := (s.call.next s.dead t.time).2.1 } :=
      ⟨h.call.next _ _, h.feeds.of_eq rfl rfl rfl, h.vote⟩
    dsimp only
    cases hres : (s.call.next s.dead t.time).1 with
    | none => exact hnext
    | some r =>
      cases r with
      | ok f => exact hnext.frame hr f
      | error e =>
        obtain ⟨hcall, hend⟩ := RCall.next_error hres
        dsimp only
        split
        · next heof =>
          rcases hend with ⟨-, hd, -⟩ | rfl | rfl
          · exact hnext.closed (by rw [hcall]; exact hd)
          · cases heof
          · cases heof
        · next hne =>
          rcases hend with ⟨rfl, -⟩ | rfl | rfl
          · exact absurd rfl hne
          · exact hnext.finish (by decide) (by decide)
          · exact hnext.finish (by decide) (by decide)

/-- What a step adds to the past. -/
theorem VoteOk.append {ending : ElemEnd} (h : VoteOk tag evs ending) (ev : RemoteEvent) :
    VoteOk tag (evs ++ [ev]) ending := by
  intro e he
  refine (h e he).imp_right fun ⟨hcount, eof, hp, h0⟩ => ?_
  exact ⟨hcount, eof, hp.append ev, h0⟩

/-- **A step.** -/
theorem ElemInv.step (h : ElemInv req tag evs s) (ev : RemoteEvent) :
    ElemInv req tag (evs ++ [ev]) (s.step req ev) := by
  cases ev with
  | msg m => exact ⟨h.call.reply m, h.feeds.of_eq rfl rfl rfl, h.vote.append _⟩
  | kill =>
    exact ⟨h.call.skip (.inl rfl) (.inl rfl), h.feeds.of_eq rfl rfl rfl, h.vote.append _⟩
  | turn t =>
    have h' : ElemInv req tag (evs ++ [.turn t]) s :=
      ⟨h.call.skip (.inl rfl) (.inl rfl), h.feeds, h.vote.append _⟩
    exact h'.turn

/-- A run of events keeps the invariant of the element. -/
theorem ElemInv.run (h : ElemInv req tag [] s) (evs : List RemoteEvent) :
    ElemInv req tag evs (evs.foldl (RemoteElem.step req) s) := by
  induction evs using List.reverseRecOn with
  | nil => exact h
  | append_singleton evs ev ih =>
    rw [List.foldl_append]
    exact ih.step ev

/-- What backs the element: an end that counts has been closed by the peer with that error, and with
its end if it is clean; another end is one that the quorum does not count; and the proxies fed are
what was asked for, ascending, and within the limit. -/
structure Backed (req : RemoteReq) (tag : Nat) (evs : List RemoteEvent) (s : RemoteElem) :
    Prop where
  vote : ∀ e, s.ending = .fed e → e = 0 ∨ e = errorEnoent →
    ∃ eof, PeerClosed tag evs e eof ∧ (e = 0 → eof = true)
  other : ∀ e, s.ending = .fed e → e ≠ 0 → e ≠ errorEnoent → disconnected e = true
  ascending : (s.feeds.map (·.bref.key)).Pairwise (· < ·)
  limit : s.feeds.length ≤ req.cap.toNat
  asked : ∀ p ∈ s.feeds, req.Asks p.bref

/-- **The vote of a remote element is backed by the peer**, whatever messages come, in whatever
order, and however the element's turns and the link's end fall between them. -/
theorem remoteXop_backed {slot : RemoteSlot} {sent : CallStart} {rkey : Nat} {s₀ : RemoteElem}
    (h₀ : remoteXop slot (.asks req) sent rkey = some s₀) (evs : List RemoteEvent) :
    Backed req s₀.call.tag evs (evs.foldl (RemoteElem.step req) s₀) := by
  have hstart : ∀ tag ending, VoteOk tag [] ending →
      ElemInv req tag [] ⟨.start tag, false, 0, 0, [], rkey, ending⟩ := fun tag ending hv =>
    ⟨.start tag, ⟨.nil, nofun, Nat.le_refl _, Nat.zero_le _, nofun⟩, hv⟩
  have hlost : VoteOk 0 [] (.fed errorEnotconn) := by
    intro e he
    obtain rfl := ElemEnd.fed.inj he
    exact .inl (by decide)
  have hinv : ElemInv req s₀.call.tag [] s₀ := by
    unfold remoteXop at h₀
    cases slot with
    | here => cases h₀
    | gone =>
      obtain rfl := Option.some.inj h₀
      exact hstart 0 _ hlost
    | conn =>
      cases sent with
      | sent tag =>
        obtain rfl := Option.some.inj h₀
        exact hstart tag _ nofun
      | noMemory =>
        obtain rfl := Option.some.inj h₀
        exact hstart 0 _ hlost
      | linkGone =>
        obtain rfl := Option.some.inj h₀
        exact hstart 0 _ hlost
  have h := hinv.run evs
  refine ⟨fun e he hcount => ?_, fun e he h0 hne => ?_, h.feeds.ascending,
    h.feeds.count.trans h.feeds.limit, h.feeds.asked⟩
  · rcases h.vote e he with hdis | ⟨-, hp⟩
    · rcases hcount with rfl | rfl <;> cases hdis
    · exact hp
  · exact (h.vote e he).resolve_right fun h' => h'.1.elim h0 hne

end

/-- A readdir from the start of a directory that stops at the key 10, of at most 5 entries. -/
def readdirTen : RemoteReq := ⟨.readdir, 0, 10, false, false, 5, 1, true⟩

/-- A feed of an entry at the key, and the close behind it. -/
def entryFeed (key : Nat) : HmFeed :=
  ⟨⟨.dirent, 0x30, 0, key, 0, 3, 7⟩, 0, 0, false, 0, 0, 1, none, 0⟩

def entryClose : HmFeed := ⟨⟨.empty, 0, 0, 0, 0, 0, 0⟩, 0, 0, true, 1, keyMax, 1, none, 0⟩

/-- A turn that meets nothing. -/
def quietTurn : RemoteTurn := ⟨⟨false, false⟩, true, 0, true, true⟩

/-- The element of a readdir that the peer answers with one entry. -/
def readdirRun (key : Nat) : RemoteElem :=
  [.msg (.feed false (entryFeed key) true true), .msg (.feed true entryClose true true),
    .turn quietTurn, .turn quietTurn].foldl (RemoteElem.step readdirTen)
      ⟨.start 1, false, 0, 0, [], keyMax, .running⟩

/-- A readdir that the peer answers with one entry and its end. -/
theorem remoteXop_backed_readdir : (readdirRun 3).ending = .fed 0 ∧
    Backed readdirTen 1 [.msg (.feed false (entryFeed 3) true true),
      .msg (.feed true entryClose true true), .turn quietTurn, .turn quietTurn] (readdirRun 3) :=
  ⟨by decide, remoteXop_backed (show remoteXop .conn (.asks readdirTen)
    (.sent 1) keyMax = some _ from rfl) _⟩

/-- **The end of a readdir's range is not enforced**: an entry behind it is fed, and the element
ends with a vote. -/
theorem remoteXop_past_end : (readdirRun 20).ending = .fed 0 ∧
    (readdirRun 20).feeds.map (·.bref.key) = [20] ∧ readdirTen.keyEnd < 20 := by
  decide

end Hammer2
