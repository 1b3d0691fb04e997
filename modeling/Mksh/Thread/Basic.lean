import Mathlib.Data.Finset.Basic
import Mksh.Lib.CString
import Mksh.Lib.Ensures
import Mksh.Lib.Intrusive

/-!
# Threads

The scheduler: a master keeps tasks, called *threads*, in six lists, one for
each type, and hands out the next one to run (`threadFetch`). Threads wait for a
descriptor (`.read`, `.write`), for a time (`.timer`) or for nothing (`.event`);
one whose descriptor is ready is in the list of these (`.ready`). The records of
the threads that have been handed out or cancelled are kept for reuse
(`.unused`).

A record is given by its address, and the lists are linked through the records.
The functions are processes on the state of the master, which print something at
most. A failing assertion ends the process, and so does reading what is not
there. The answers of the system, i.e., the clock and what `select` returns, are
arguments.

`F` is the type of the functions to be run, and `A` that of their arguments.
-/

namespace Mksh

open CString Process Intrusive

/-! ## Times -/

/-- `struct timeval`. -/
structure Timeval where
  tvSec : ℤ
  tvUsec : ℤ
  deriving DecidableEq

/-- Struct timeval's tv_usec one second value. -/
def timerSecondMicro : ℤ := 1000000

/-- The first loop of `timevalAdjust`. -/
def timevalCarry (a : Timeval) : Timeval :=
  if a.tvUsec ≥ timerSecondMicro then
    timevalCarry ⟨a.tvSec + 1, a.tvUsec - timerSecondMicro⟩
  else a
  termination_by a.tvUsec.toNat
  decreasing_by
    have hmicro : timerSecondMicro = 1000000 := rfl
    omega

/-- The second loop of `timevalAdjust`. -/
def timevalBorrow (a : Timeval) : Timeval :=
  if a.tvUsec < 0 then timevalBorrow ⟨a.tvSec - 1, a.tvUsec + timerSecondMicro⟩ else a
  termination_by (-a.tvUsec).toNat
  decreasing_by
    have hmicro : timerSecondMicro = 1000000 := rfl
    omega

/-- The microseconds are brought into their range, and the seconds into theirs. -/
def timevalAdjust (a : Timeval) : Timeval :=
  let a := timevalBorrow (timevalCarry a)
  let a := if a.tvSec < 0 then ⟨0, 10⟩ else a
  if a.tvSec > timerSecondMicro then { a with tvSec := timerSecondMicro } else a

/-- The time from `b` to `a`, adjusted. -/
def timevalSubtract (a b : Timeval) : Timeval :=
  timevalAdjust ⟨a.tvSec - b.tvSec, a.tvUsec - b.tvUsec⟩

/-- The difference, a `long`, is truncated to an `int`. -/
def timevalCmp (a b : Timeval) : ℤ :=
  (if a.tvSec = b.tvSec then a.tvUsec - b.tvUsec else a.tvSec - b.tvSec).bmod (2 ^ 32)

/-! ## Data -/

/-- Thread types. -/
inductive ThreadType
  | read
  | write
  | timer
  | event
  | ready
  | unused
  deriving DecidableEq

/-- The second argument of an event, the descriptor of a thread that reads or
    writes, or the time of a timer. -/
inductive ThreadU
  | val (val : ℤ)
  | fd (fd : ℕ)
  | sands (sands : Timeval)
  deriving DecidableEq

/-- What a thread is to do. -/
structure Task (F A : Type) where
  func : F
  arg : A
  u : ThreadU
  deriving DecidableEq

/-- Thread itself, but for its links. -/
structure Thread (F A : Type) extends Task F A where
  type : ThreadType
  deriving DecidableEq

/-- The descriptors that a thread may wait for. -/
inductive FdKind
  | read
  | write
  deriving DecidableEq

/-- The type of the threads that wait so. -/
def FdKind.type : FdKind → ThreadType
  | .read => .read
  | .write => .write

/-- What the log calls it. -/
def FdKind.text : FdKind → CString
  | .read => "read".toList
  | .write => "write".toList

/-- The number of descriptors in a set. -/
def fdSetsize : ℕ := 1024

/-- Master of the threads: the headers of the six lists, each under the type of
    its threads, the sets of descriptors, and the records, with the address that
    the next one will get. -/
structure Master (F A : Type) where
  list : ThreadType → Header ℕ
  fdset : FdKind → Finset ℕ
  exceptfd : Finset ℕ
  alloc : ℕ
  links : Heap ℕ
  thread : ℕ → Option (Thread F A)
  fresh : ℕ

/-- The functions of the scheduler, which log their messages. -/
abbrev Sched (F A α : Type) := Process (Master F A) CString α

variable {F A : Type}

/-- Allocate new thread master. -/
def threadMasterCreate : Master F A where
  list _ := .empty
  fdset _ := ∅
  exceptfd := ∅
  alloc := 0
  links _ := ⟨none, none⟩
  thread _ := none
  fresh := 0

namespace Master

/-- An operation on the links and the header of a list. -/
def onList (t : ThreadType) (f : Heap ℕ → Header ℕ → Heap ℕ × Header ℕ) (m : Master F A) :
    Master F A :=
  { m with links := (f m.links (m.list t)).1,
           list := Function.update m.list t (f m.links (m.list t)).2 }

/-- Another content for a record. -/
def setThread (a : ℕ) (thread : Thread F A) (m : Master F A) : Master F A :=
  { m with thread := Function.update m.thread a (some thread) }

/-- Another set of descriptors that are waited for. -/
def setFdset (kind : FdKind) (fds : Finset ℕ) (m : Master F A) : Master F A :=
  { m with fdset := Function.update m.fdset kind fds }

/-- A new record, all of which is cleared. -/
def calloc (m : Master F A) : Master F A :=
  { m with links := Function.update m.links m.fresh ⟨none, none⟩,
           alloc := m.alloc + 1,
           fresh := m.fresh + 1 }

end Master

/-! ## Lists -/

/-- Add a new thread to the list. -/
def threadListAdd (t : ThreadType) (a : ℕ) : Sched F A Unit := modify (Master.onList t (add a))

/-- Add a new thread just before the point. -/
def threadListAddBefore (t : ThreadType) (point a : ℕ) : Sched F A Unit :=
  modify (Master.onList t (addBefore point a))

/-- Delete a thread from the list. -/
def threadListDelete (t : ThreadType) (a : ℕ) : Sched F A Unit :=
  modify (Master.onList t (delete a))

/-- The record at an address. -/
def threadAt (a : ℕ) : Sched F A (Thread F A) := do
  match (← get).thread a with
  | none => halt
  | some thread => return thread

/-- Assigning to a record. -/
def setThread (a : ℕ) (thread : Thread F A) : Sched F A Unit :=
  modify (Master.setThread a thread)

/-- Move thread to unuse list. -/
def threadAddUnuse (a : ℕ) : Sched F A Unit := do
  let links := (← get).links a
  let thread ← threadAt a
  if links.next = none ∧ links.prev = none ∧ thread.type = .unused then threadListAdd .unused a
  else halt

/-- Delete top of the list and return it. -/
def threadTrimHead (t : ThreadType) : Sched F A (Option ℕ) := do
  match ((← get).list t).head with
  | none => return none
  | some a =>
    threadListDelete t a
    return some a

/-- A new record. -/
def threadCalloc : Sched F A ℕ := do
  let a := (← get).fresh
  modify Master.calloc
  return a

/-- Get new thread. The union of a record that is used again is as it was. -/
def threadGet (type : ThreadType) (func : F) (arg : A) : Sched F A ℕ := do
  let unused ← threadTrimHead .unused
  let a ← match unused with
    | some a => pure a
    | none => threadCalloc
  -- Only `type`, `func` and `arg` are assigned: the union keeps what the last user left in it.
  let u := (((← get).thread a).map fun thread => thread.u).getD (.val 0)
  setThread a ⟨⟨func, arg, u⟩, type⟩
  return a

/-- Writing to the union of a record. -/
def setU (a : ℕ) (u : ThreadU) : Sched F A Unit := do
  let thread ← threadAt a
  setThread a { thread with u }

/-- Assigning to `thread->type`. -/
def setType (a : ℕ) (type : ThreadType) : Sched F A Unit := do
  let thread ← threadAt a
  setThread a { thread with type }

/-! ## Adding threads -/

/-- Add new read or write thread. -/
def threadAddFd (kind : FdKind) (func : F) (arg : A) (fd : ℕ) : Sched F A (Option ℕ) := do
  let fds := (← get).fdset kind
  if fd ∈ fds then
    -- The list and the record are not touched.
    emit ("There is already ".toList ++ kind.text ++ " fd [".toList ++ (toString fd).toList ++
      "]".toList)
    return none
  else
    let a ← threadGet kind.type func arg
    modify (Master.setFdset kind (insert fd fds))
    setU a (.fd fd)
    threadListAdd kind.type a
    return some a

/-- Add new read thread. -/
def threadAddRead (func : F) (arg : A) (fd : ℕ) : Sched F A (Option ℕ) :=
  threadAddFd .read func arg fd

/-- Add new write thread. -/
def threadAddWrite (func : F) (arg : A) (fd : ℕ) : Sched F A (Option ℕ) :=
  threadAddFd .write func arg fd

/-- The time of a timer. -/
def sandsAt (m : Master F A) (a : ℕ) : Option Timeval :=
  match m.thread a with
  | some ⟨⟨_, _, .sands sands⟩, _⟩ => some sands
  | _ => none

/-- The loop over the timers, from one on, up to the first one at which it breaks.
    `none` if it does not come to an end, or comes to something else. -/
def timerLoop (m : Master F A) (breaks : Timeval → Bool) : ℕ → Option ℕ → Option (Option ℕ)
  | _, none => some none
  | 0, some _ => none
  | n + 1, some tt =>
    match sandsAt m tt with
    | none => none
    | some sands =>
      if breaks sands then some (some tt) else timerLoop m breaks n (m.links tt).next

/-- The first timer at which the loop breaks. -/
def findTimer (breaks : Timeval → Bool) : Sched F A (Option ℕ) := do
  let m ← get
  match timerLoop m breaks m.fresh (m.list .timer).head with
  | none => halt
  | some tt => return tt

/-- Add timer event thread. -/
def threadAddTimer (func : F) (arg : A) (timer : ℤ) (timerNow : Timeval) : Sched F A ℕ := do
  let a ← threadGet .timer func arg
  let sands := { timerNow with tvSec := timerNow.tvSec + timer }
  setU a (.sands sands)
  -- Sort by timeval.
  match ← findTimer fun tt => timevalCmp sands tt ≤ 0 with
  | some tt => threadListAddBefore .timer tt a
  | none => threadListAdd .timer a
  return a

/-- Add simple event thread. -/
def threadAddEvent (func : F) (arg : A) (val : ℤ) : Sched F A ℕ := do
  let a ← threadGet .event func arg
  setU a (.val val)
  threadListAdd .event a
  return a

/-! ## Cancelling -/

/-- The descriptor that a thread waits for. -/
def fdAt (a : ℕ) : Sched F A ℕ := do
  match (← threadAt a).u with
  | .fd fd => return fd
  | _ => halt

/-- Clearing a descriptor that has to be in the set. -/
def fdClr (kind : FdKind) (fd : ℕ) : Sched F A Unit := do
  let fds := (← get).fdset kind
  if fd ∈ fds then modify (Master.setFdset kind (fds.erase fd)) else halt

/-- Deleting a thread from the list of its type. -/
def threadCancelType (a : ℕ) : ThreadType → Sched F A Unit
  | .read => do
    fdClr .read (← fdAt a)
    threadListDelete .read a
  | .write => do
    fdClr .write (← fdAt a)
    threadListDelete .write a
  | .timer => threadListDelete .timer a
  | .event => threadListDelete .event a
  | .ready => threadListDelete .ready a
  -- `THREAD_UNUSED` is none of the cases of the switch: the record stays on its list.
  | .unused => pure ()

/-- Cancel thread from scheduler. -/
def threadCancel (a : ℕ) : Sched F A Unit := do
  threadCancelType a (← threadAt a).type
  setType a .unused
  threadAddUnuse a

section CancelEvent

variable [DecidableEq A]

/-- The loop over the events, from one on. -/
def cancelEventLoop (arg : A) : ℕ → Option ℕ → Sched F A Unit
  | _, none => pure ()
  | 0, some _ => halt
  | n + 1, some t => do
    -- The next one is read first, since the record may leave the list.
    let next := ((← get).links t).next
    if (← threadAt t).arg = arg then do
      threadListDelete .event t
      setType t .unused
      threadAddUnuse t
    cancelEventLoop arg n next

/-- Delete all events which has argument value arg. -/
def threadCancelEvent (arg : A) : Sched F A Unit := do
  let m ← get
  cancelEventLoop arg m.fresh (m.list .event).head

end CancelEvent

/-! ## Fetching -/

/-- What `select` answers. -/
inductive Select
  | timeout
  | interrupted
  | error (message : CString)
  | ready (fds : FdKind → Finset ℕ)

/-- The answers of the system in a round of `threadFetch`: the clock at the top,
    the clock when the time to wait is calculated, and what `select` answers,
    given the sets of descriptors and the time to wait. -/
structure Round where
  timerNow : Timeval
  waitNow : Timeval
  select : (FdKind → Finset ℕ) → Finset ℕ → Option Timeval → Select

/-- The time up to the first timer. -/
def threadTimerWait (timerNow : Timeval) : Sched F A (Option Timeval) := do
  let m ← get
  match (m.list .timer).head with
  | none => return none
  | some a =>
    match sandsAt m a with
    | none => halt
    | some sands =>
      -- Only the seconds are tested, as in the source.
      let timerMin := timevalSubtract sands timerNow
      return some (if timerMin.tvSec < 0 then ⟨0, 10⟩ else timerMin)

/-- A copy of the thread, the record of which is not used any more. -/
def threadRun (a : ℕ) : Sched F A (Thread F A) := do
  let fetch ← threadAt a
  setType a .unused
  threadAddUnuse a
  return fetch

/-- The loop over the threads that wait for a descriptor, from one on. -/
def processFdLoop (kind : FdKind) (fdset : Finset ℕ) (ready : ℕ) : ℕ → Option ℕ → Sched F A ℕ
  | _, none => pure ready
  | 0, some _ => halt
  | n + 1, some a => do
    -- The next one is read first, since the record may leave the list.
    let next := ((← get).links a).next
    let fd ← fdAt a
    if fd ∈ fdset then
      fdClr kind fd
      threadListDelete kind.type a
      threadListAdd .ready a
      setType a .ready
      processFdLoop kind fdset (ready + 1) n next
    else processFdLoop kind fdset ready n next

/-- The threads of the list whose descriptors are ready become ready; the result is their
    number. -/
def threadProcessFd (kind : FdKind) (fdset : Finset ℕ) : Sched F A ℕ := do
  let m ← get
  processFdLoop kind fdset 0 m.fresh (m.list kind.type).head

/-- The first timer that is due, deleted from the list. -/
def threadTrimTimer (timerNow : Timeval) : Sched F A (Option ℕ) := do
  match ← findTimer fun sands => timevalCmp timerNow sands ≥ 0 with
  | none => return none
  | some a =>
    threadListDelete .timer a
    return some a

/-- Running a thread, if there is one, or else going on. -/
def runOr {α : Type} (first : Sched F A (Option ℕ)) (otherwise : Sched F A (Option α))
    (ret : Thread F A → α) : Sched F A (Option α) := do
  match ← first with
  | some a => return some (ret (← threadRun a))
  | none => otherwise

/-- The end of a round: waiting for a descriptor. -/
def threadSelect (r : Round) : Sched F A (Option (Option (Thread F A))) := do
  let m ← get
  let timerWait ← threadTimerWait r.waitNow
  match r.select m.fdset m.exceptfd timerWait with
  -- `num == 0`, and `EINTR`: the loop of `thread_fetch` goes on.
  | .timeout => return none
  | .interrupted => return none
  | .error message =>
    emit ("select() error: ".toList ++ message)
    return some none
  | .ready fds =>
    -- Normal priority read thead.
    let _ ← threadProcessFd .read (fds .read)
    -- Write thead.
    let _ ← threadProcessFd .write (fds .write)
    runOr (threadTrimHead .ready) (return none) some

/-- A round of `threadFetch`: `none` if it goes on, and else what it returns, a
    thread or `NULL`. -/
def threadFetchRound (r : Round) : Sched F A (Option (Option (Thread F A))) :=
  -- Normal event is the highest priority.
  runOr (threadTrimHead .event)
    -- Execute timer.
    (runOr (threadTrimTimer r.timerNow)
      -- If there are any ready threads, process top of them.
      (runOr (threadTrimHead .ready) (threadSelect r) some) some) some

/-- Fetch next ready thread, given the answers of the system: `none` if it has not
    returned yet. -/
def threadFetch : List Round → Sched F A (Option (Option (Thread F A)))
  | [] => return none
  | r :: rounds => do
    match ← threadFetchRound r with
    | some ret => return some ret
    | none => threadFetch rounds

end Mksh
