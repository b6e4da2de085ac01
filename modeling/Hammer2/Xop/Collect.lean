import Hammer2.Chain.Modify

/-!
# Collecting the answer of a cluster operation

A frontend operation runs on every element of the cluster and collects one answer from what the
elements feed. `collectEnd` is `hammer2_xop_collect` for the operations that feed an error and no
chain: the masters that answered are counted against the quorum, the first error among them is the
answer, and the end of the scan (`ENOENT`) stands for success. `callError` is what the frontend
calls make of it.

Reference: `hammer2_admin.c:657-820`, `hammer2_cluster.c:141-375`, `hammer2.h:305-334`,
`hammer2.h:1645-1734`.
-/

namespace Hammer2

/-! ## Error words -/

/-- `HAMMER2_ERROR_ENOENT`: also the end of a scan. -/
def errorEnoent : Nat := 0x40

/-- `HAMMER2_ERROR_ENOTEMPTY`. -/
def errorEnotempty : Nat := 0x80

/-- `HAMMER2_ERROR_EAGAIN`. -/
def errorEagain : Nat := 0x100

/-- `HAMMER2_ERROR_ENOTDIR`. -/
def errorEnotdir : Nat := 0x200

/-- `HAMMER2_ERROR_EISDIR`. -/
def errorEisdir : Nat := 0x400

/-- `HAMMER2_ERROR_EINPROGRESS`. -/
def errorEinprogress : Nat := 0x800

/-- `HAMMER2_ERROR_ABORTED`. -/
def errorAborted : Nat := 0x1000

/-- `HAMMER2_ERROR_EINVAL`. -/
def errorEinval : Nat := 0x4000

/-- `HAMMER2_ERROR_EEXIST`. -/
def errorEexist : Nat := 0x8000

/-- `HAMMER2_ERROR_ETIMEDOUT`. -/
def errorEtimedout : Nat := 0x40000

/-- `HAMMER2_ERROR_ENOTCONN`. -/
def errorEnotconn : Nat := 0x80000

/-- `HAMMER2_ERROR_EOPNOTSUPP`. -/
def errorEopnotsupp : Nat := 0x10000000

/-- `hammer2_errno_to_error`, on the numbers Linux gives its errors. -/
def errnoToError : Nat → Nat
  | 0 => 0
  | 2 => errorEnoent
  | 4 => errorAborted
  | 5 => errorEio
  | 11 => errorEagain
  | 17 => errorEexist
  | 20 => errorEnotdir
  | 21 => errorEisdir
  | 22 => errorEinval
  | 28 => errorEnospc
  | 33 => errorCheck
  | 39 => errorEnotempty
  | 95 => errorEopnotsupp
  | 107 => errorEnotconn
  | 110 => errorEtimedout
  | 115 => errorEinprogress
  | _ => errorEinval

/-- No error is translated into success. -/
theorem errnoToError_eq_zero_iff {e : Nat} : errnoToError e = 0 ↔ e = 0 := by
  constructor
  · intro h
    unfold errnoToError at h
    split at h
    · rfl
    all_goals exact absurd h (by decide)
  · rintro rfl
    rfl

/-- `HAMMER2_ERROR_BADBREF`. -/
def errorBadbref : Nat := 0x10

/-- `HAMMER2_ERROR_EDEADLK`. -/
def errorEdeadlk : Nat := 0x10000

/-- `HAMMER2_ERROR_ESRCH`. -/
def errorEsrch : Nat := 0x20000

/-- The bits of an error word in the order in which they are looked at, with what they become. -/
def errnoTable : List (Nat × Nat) :=
  [(errorEio, 5), (errorCheck, 33), (errorBadbref, 5), (errorEnospc, 28), (errorEnoent, 2),
    (errorEnotempty, 39), (errorEagain, 11), (errorEnotdir, 20), (errorEisdir, 21),
    (errorEinprogress, 115), (errorEtimedout, 110), (errorAborted, 4), (errorEinval, 22),
    (errorEexist, 17), (errorEdeadlk, 35), (errorEsrch, 3), (errorEnotconn, 107),
    (errorEopnotsupp, 95)]

/-- `hammer2_error_to_errno`. -/
def errorToErrno (error : Nat) : Nat :=
  if error = 0 then 0
  else ((errnoTable.find? fun p => error &&& p.1 ≠ 0).map Prod.snd).getD 33

/-- An error stays an error. -/
theorem errorToErrno_eq_zero_iff {error : Nat} : errorToErrno error = 0 ↔ error = 0 := by
  refine ⟨fun h => ?_, fun h => if_pos h⟩
  by_contra hne
  rw [errorToErrno, if_neg hne] at h
  cases hf : errnoTable.find? fun p => error &&& p.1 ≠ 0 with
  | none =>
    rw [hf] at h
    exact absurd h (by decide)
  | some p =>
    have hall : ∀ p ∈ errnoTable, p.2 ≠ 0 := by decide
    rw [hf] at h
    exact hall p (List.mem_of_find?_eq_some hf) h

/-! ## The elements of a cluster -/

/-- `HAMMER2_PFSTYPE_*`, as far as the quorum tells them apart. -/
inductive PfsType
  | master
  | suproot
  | slave
  | soft
  deriving DecidableEq, Repr

/-- An element of the cluster, with what the operation fed there; `none` when it was not run. -/
structure Element (α : Type*) where
  kind : PfsType
  fed : Option α
  deriving DecidableEq

/-- The same elements with another view of what they fed. -/
def Element.map {α β : Type*} (f : α → β) (e : Element α) : Element β := ⟨e.kind, e.fed.map f⟩

/-- The element counts towards the quorum. -/
def PfsType.isMaster : PfsType → Bool
  | .master => true
  | .suproot => true
  | .slave => false
  | .soft => false

/-- The error says that the element could not be reached. -/
def disconnected (error : Nat) : Bool := error &&& (errorEtimedout ||| errorEnotconn) != 0

/-- The error a reachable master fed. -/
def Element.answer (e : Element Nat) : Option Nat :=
  if e.kind.isMaster then e.fed.filter fun error => !disconnected error else none

/-- The errors of the masters that answered. -/
def answers (es : List (Element Nat)) : List Nat := es.filterMap Element.answer

/-- The masters the operation was not run on. -/
def unanswered (es : List (Element Nat)) : Nat :=
  es.countP fun e => e.kind.isMaster && e.fed.isNone

/-- The masters that could not be reached. -/
def unreachable (es : List (Element Nat)) : Nat :=
  es.countP fun e => e.kind.isMaster && e.fed.any disconnected

/-- `cluster->error` after the first pass: that of the super-root. -/
def suprootError (es : List (Element Nat)) : Nat :=
  es.foldl (fun acc e => if e.kind = .suproot then e.fed.getD 0 else acc) 0

/-- `cluster->error` after the second pass: the first one met. -/
def clusterError (es : List (Element Nat)) : Nat :=
  (answers es).foldl (fun acc error => if acc = 0 then error else acc) (suprootError es)

/-- `nquorum`. -/
def quorum (nmasters : Nat) : Nat := nmasters / 2 + 1

/-- `hammer2_xop_collect` when no element feeds a chain. Too few answers that are not explained by
elements to come or out of reach are taken for the end of the scan. -/
def collectEnd (nmasters : Nat) (es : List (Element Nat)) : Nat :=
  if (answers es).length < quorum nmasters then
    if quorum nmasters ≤ (answers es).length + unanswered es then errorEinprogress
    else if 0 < unreachable es ∨ es.countP (·.kind.isMaster) < nmasters then errorEnotconn
    else errorEnoent
  else if clusterError es = 0 then errorEnoent
  else clusterError es

/-- The result of a frontend call: the answer, with `ENOENT` read as success. -/
def callError (nmasters : Nat) (es : List (Element Nat)) : Nat :=
  if collectEnd nmasters es = errorEnoent then 0 else collectEnd nmasters es

/-- The call has an error to return. -/
def Carried (nmasters : Nat) (es : List (Element Nat)) : Prop :=
  if (answers es).length < quorum nmasters then
    quorum nmasters ≤ (answers es).length + unanswered es ∨ 0 < unreachable es ∨
      es.countP (·.kind.isMaster) < nmasters
  else clusterError es ≠ 0 ∧ clusterError es ≠ errorEnoent

/-- A call reports an error that its cluster carries. -/
theorem callError_ne_zero_iff {nmasters : Nat} {es : List (Element Nat)} :
    callError nmasters es ≠ 0 ↔ Carried nmasters es := by
  unfold callError collectEnd Carried
  split
  · split
    · next h => simp [h, errorEinprogress, errorEnoent]
    · next h =>
      split
      · next h' => simp [h', errorEnotconn, errorEnoent]
      · next h' =>
        rw [not_or] at h'
        simp [h, h'.1, h'.2]
  · by_cases h0 : clusterError es = 0
    · simp [h0]
    · rw [if_neg h0]
      by_cases hn : clusterError es = errorEnoent
      · simp [hn]
      · simp [h0, hn]

end Hammer2
