import Mathlib.Algebra.BigOperators.Ring.Finset
import Mksh.Thread.Queue

/-!
# Runs of the scheduler

A run starts with a new master, and calls the functions of the scheduler in any
order (`Run`): threads are added, cancelled while they are registered, and fetched,
whatever the clock and `select` answer. In every state that is reached, the lists,
the sets of descriptors and the counts agree, and no call fails
(`run_wellFormed`). Each thread that has been accepted has been fetched, has been
cancelled or is in a list, just one of them (`run_tasks`).
-/

namespace Mksh

open CString Process Intrusive Queues

variable {F A : Type}

/-! ## Calls -/

/-- A call, with the answers of the system to it. -/
inductive Op (F A : Type)
  | addRead (func : F) (arg : A) (fd : ℕ)
  | addWrite (func : F) (arg : A) (fd : ℕ)
  | addTimer (func : F) (arg : A) (timer : ℤ) (timerNow : Timeval)
  | addEvent (func : F) (arg : A) (val : ℤ)
  | cancel (a : ℕ)
  | cancelEvent (arg : A)
  | fetch (rounds : List Round)

/-- What a call returns. -/
inductive Ret (F A : Type)
  | added (a : Option ℕ)
  | cancelled
  | fetched (ret : Option (Option (Thread F A)))

/-- What the call does. -/
def Op.perform [DecidableEq A] : Op F A → Sched F A (Ret F A)
  | .addRead func arg fd => do return .added (← threadAddRead func arg fd)
  | .addWrite func arg fd => do return .added (← threadAddWrite func arg fd)
  | .addTimer func arg timer timerNow => do
    return .added (some (← threadAddTimer func arg timer timerNow))
  | .addEvent func arg val => do return .added (some (← threadAddEvent func arg val))
  | .cancel a => do
    threadCancel a
    return .cancelled
  | .cancelEvent arg => do
    threadCancelEvent arg
    return .cancelled
  | .fetch rounds => do return .fetched (← threadFetch rounds)

/-- The descriptor fits in a set, and the thread to be cancelled is registered. -/
def Op.Valid (m : Master F A) : Op F A → Prop
  | .addRead _ _ fd => fd < fdSetsize
  | .addWrite _ _ fd => fd < fdSetsize
  | .cancel a => ∃ thread, m.thread a = some thread ∧ thread.type ≠ .unused
  | _ => True

/-- A call that has returned. -/
structure Call (F A : Type) where
  before : Master F A
  op : Op F A
  ret : Ret F A

/-- What becomes of threads in a call. -/
def Call.acts [DecidableEq A] (c : Call F A) : List (Act F A) :=
  match c.op, c.ret with
  | .addRead func arg fd, .added (some _) => [.accept ⟨⟨func, arg, .fd fd⟩, .read⟩]
  | .addWrite func arg fd, .added (some _) => [.accept ⟨⟨func, arg, .fd fd⟩, .write⟩]
  | .addTimer func arg timer timerNow, .added (some _) =>
    [.accept ⟨⟨func, arg, .sands ⟨timerNow.tvSec + timer, timerNow.tvUsec⟩⟩, .timer⟩]
  | .addEvent func arg val, .added (some _) => [.accept ⟨⟨func, arg, .val val⟩, .event⟩]
  | .cancel a, _ => ((c.before.thread a).map .cancel).toList
  | .cancelEvent arg, _ =>
    ((c.before.queue .event).filter fun e => e.2.arg = arg).map fun e => .cancel ⟨e.2, .event⟩
  | .fetch _, .fetched ret => fetched ret
  | _, _ => []

variable [DecidableEq A]

/-- The calls made since the master was created, and the state after them. -/
inductive Run : List (Call F A) → Master F A → Prop
  | create : Run [] threadMasterCreate
  | call {calls m op ret m'} : Run calls m → op.Valid m → op.perform.result m = some (ret, m') →
      Run (calls ++ [⟨m, op, ret⟩]) m'

variable {m m' : Master F A} {q q' : Queues F A} {calls : List (Call F A)}
  {acts acts' : List (Act F A)}

/-- A call returns, and moves the queues by what becomes of threads in it. -/
theorem Scheduled.perform (h : Scheduled m q) {op : Op F A} (hop : op.Valid m) :
    Achieves op.perform (fun ret m' => ∃ q', Scheduled m' q' ∧
      Steps q (Call.acts ⟨m, op, ret⟩) q') m := by
  cases op with
  | addRead func arg fd =>
    rw [Op.perform, achieves_bind]
    refine (h.threadAddFd .read func arg fd).mono ?_
    rintro (_ | a) m' ⟨q', h', hsteps⟩
    · exact achieves_pure.2 ⟨q', h', hsteps⟩
    · exact achieves_pure.2 ⟨q', h', hsteps⟩
  | addWrite func arg fd =>
    rw [Op.perform, achieves_bind]
    refine (h.threadAddFd .write func arg fd).mono ?_
    rintro (_ | a) m' ⟨q', h', hsteps⟩
    · exact achieves_pure.2 ⟨q', h', hsteps⟩
    · exact achieves_pure.2 ⟨q', h', hsteps⟩
  | addTimer func arg timer timerNow =>
    rw [Op.perform, achieves_bind]
    exact (h.threadAddTimer func arg timer timerNow).mono fun _ _ h' => achieves_pure.2 h'
  | addEvent func arg val =>
    rw [Op.perform, achieves_bind]
    exact (h.threadAddEvent func arg val).mono fun _ _ h' => achieves_pure.2 h'
  | cancel a =>
    obtain ⟨thread, ha, htype⟩ := hop
    -- The thread is in some queue, and of the type of that.
    obtain ⟨t, l₁, task, l₂, hq⟩ := h.rep.exists_of_thread ha
    have hthread := h.rep.thread (e := (a, task)) (t := t) (by simp [hq])
    obtain rfl := Option.some.inj (ha.symm.trans hthread)
    rw [Op.perform, achieves_bind]
    refine (h.threadCancel htype hq).mono fun _ _ h' => achieves_pure.2 ?_
    simp only [Call.acts, ha]
    exact h'
  | cancelEvent arg =>
    rw [Op.perform, achieves_bind]
    refine (h.threadCancelEvent arg).mono fun _ _ h' => achieves_pure.2 ?_
    simp only [Call.acts, h.rep.queue_eq]
    exact h'
  | fetch rounds =>
    rw [Op.perform, achieves_bind]
    exact (h.threadFetch rounds).mono fun _ _ h' => achieves_pure.2 h'

/-- The queues that are reached in a run. -/
theorem Run.scheduled (h : Run calls m) :
    Scheduled m m.queue ∧ Steps (fun _ => []) (calls.flatMap Call.acts) m.queue := by
  suffices h : ∃ q, Scheduled m q ∧ Steps (fun _ => []) (calls.flatMap Call.acts) q by
    obtain ⟨q, h, hsteps⟩ := h
    rw [h.rep.queue_eq]
    exact ⟨h, hsteps⟩
  induction h with
  | create => exact ⟨_, scheduled_create, .refl⟩
  | @call calls m op ret m' _ hop hr ih =>
    obtain ⟨q, h, hsteps⟩ := ih
    obtain ⟨q', h', hsteps'⟩ := (h.perform hop).ensures ret m' hr
    refine ⟨q', h', ?_⟩
    rw [List.flatMap_append, List.flatMap_singleton]
    exact hsteps.trans hsteps'

/-! ## Consistency -/

/-- The lists are well-formed, each record is in just one of them, which is that of
    its type, the sets of descriptors are those that the threads wait for, and the
    counts agree. -/
structure WellFormed (m : Master F A) : Prop where
  isList (t : ThreadType) : IsList m.links (m.list t) (m.addresses t)
  existsUnique {a : ℕ} {thread : Thread F A} : m.thread a = some thread → ∃! t, a ∈ m.addresses t
  type {a : ℕ} {t : ThreadType} : a ∈ m.addresses t → ∃ task, m.thread a = some ⟨task, t⟩
  waits (kind : FdKind) : Waits (m.fdset kind) (m.queue kind.type)
  alloc : (m.alloc : ℤ) = ∑ t, (m.list t).count

omit [DecidableEq A] in
theorem Scheduled.wellFormed (h : Scheduled m q) : WellFormed m where
  isList t := by
    rw [h.rep.addresses_eq]
    exact h.rep.isList t
  existsUnique {a thread} ha := by
    obtain ⟨t, l₁, task, l₂, hq⟩ := h.rep.exists_of_thread ha
    rw [h.rep.addresses_eq]
    refine ⟨t, Rep.mem_addresses (e := (a, task)) (by simp [hq]), fun t' ht' => ?_⟩
    by_contra hne
    exact h.rep.areLists.disjoint hne a ht' (Rep.mem_addresses (e := (a, task)) (by simp [hq]))
  type {a t} ha := by
    rw [h.rep.addresses_eq] at ha
    obtain ⟨e, he, rfl⟩ := List.mem_map.1 ha
    exact ⟨e.2, h.rep.thread he⟩
  waits kind := by
    rw [h.rep.queue_eq]
    exact h.typed.waits kind
  alloc := by
    -- Every record that was allocated is in exactly one list.
    have hcard := congrArg Multiset.card h.rep.held
    have hcount (t : ThreadType) : (m.list t).count = ((q.addresses t).length : ℤ) :=
      (h.rep.isList t).count
    rw [Multiset.card_add, Multiset.card_sum, Multiset.card_range] at hcard
    simp only [Multiset.coe_card, Option.toList_none, List.length_nil, add_zero] at hcard
    rw [h.rep.alloc, ← hcard, Nat.cast_sum]
    exact Finset.sum_congr rfl fun t _ => (hcount t).symm

/-- A round in which all the descriptors are ready. -/
def readyRound (timerNow : Timeval) : Round := ⟨timerNow, timerNow, fun fdset _ _ => .ready fdset⟩

/-- A thread that waits for a descriptor and two events are added, the first event is cancelled,
    and the second one fetched. The thread that waits is the next one. -/
theorem exists_run_fetch : ∃ (calls : List (Call Unit ℕ)) (m : Master Unit ℕ), Run calls m ∧
    calls.flatMap Call.acts =
      [.accept ⟨⟨(), 7, .fd 3⟩, .read⟩, .accept ⟨⟨(), 8, .val 1⟩, .event⟩,
        .accept ⟨⟨(), 9, .val 1⟩, .event⟩, .cancel ⟨⟨(), 8, .val 1⟩, .event⟩,
        .fetch ⟨⟨(), 9, .val 1⟩, .event⟩] ∧
    m.queue .read = [(0, ⟨(), 7, .fd 3⟩)] ∧ m.queue .event = [] ∧
    ∃ m', (threadFetch [readyRound ⟨0, 0⟩]).result m =
      some (some (some ⟨⟨(), 7, .fd 3⟩, .ready⟩), m') := by
  have hread : Run (F := Unit) [⟨threadMasterCreate, .addRead () 7 3, .added (some 0)⟩] _ :=
    .call .create (show 3 < fdSetsize by decide) rfl
  have hadd := hread.call (show Op.Valid _ (.addEvent () 8 1) from trivial) rfl
  have hadd' := hadd.call (show Op.Valid _ (.addEvent () 9 1) from trivial) rfl
  have hcancel := hadd'.call (show Op.Valid _ (.cancel 1) from ⟨_, rfl, nofun⟩) rfl
  have hfetch := hcancel.call (show Op.Valid _ (.fetch [readyRound ⟨0, 0⟩]) from trivial) rfl
  exact ⟨_, _, hfetch, rfl, rfl, rfl, _, rfl⟩

namespace Act

/-- The thread that is accepted. -/
def accepted : Act F A → Option (Thread F A)
  | .accept thread => some thread
  | _ => none

/-- The thread that is cancelled. -/
def cancelled : Act F A → Option (Thread F A)
  | .cancel thread => some thread
  | _ => none

/-- The thread that is fetched. -/
def fetched : Act F A → Option (Thread F A)
  | .fetch thread => some thread
  | _ => none

end Act

/-- The tasks of threads. -/
def tasks (threads : List (Thread F A)) : Multiset (Task F A) := threads.map Thread.toTask

/-- The tasks of the events among threads, in order. -/
def events (threads : List (Thread F A)) : List (Task F A) :=
  (threads.filter fun thread => thread.type = .event).map Thread.toTask

/-- The tasks in the lists, but for those that are not used any more. -/
def Queues.waiting (q : Queues F A) : Multiset (Task F A) :=
  ∑ t ∈ {.read, .write, .timer, .event, .ready}, ((q t).map Prod.snd : Multiset (Task F A))

section Accounts

variable {t : ThreadType} {l : List (ℕ × Task F A)}

omit [DecidableEq A] in
@[simp]
theorem tasks_append {threads threads' : List (Thread F A)} :
    tasks (threads ++ threads') = tasks threads + tasks threads' := by
  simp [tasks]

omit [DecidableEq A] in
@[simp]
theorem events_append {threads threads' : List (Thread F A)} :
    events (threads ++ threads') = events threads ++ events threads' := by
  simp [events]

omit [DecidableEq A] in
theorem waiting_update (ht : t ≠ .unused) (l : List (ℕ × Task F A)) :
    waiting (Function.update q t l) + (q t).map Prod.snd = waiting q + l.map Prod.snd := by
  refine sum_update (fun l => (l.map Prod.snd : Multiset (Task F A))) ?_ l
  cases t with
  | unused => exact absurd rfl ht
  | _ => decide

omit [DecidableEq A] in
theorem waiting_update_unused (l : List (ℕ × Task F A)) :
    waiting (Function.update q .unused l) = waiting q := by
  refine Finset.sum_congr rfl fun t ht => ?_
  have hne : t ≠ .unused := by
    rintro rfl
    revert ht
    decide
  rw [Function.update_of_ne hne]

omit [DecidableEq A] in
/-- A thread is put into a list. -/
theorem waiting_insert {l₁ l₂ : List (ℕ × Task F A)} {e : ℕ × Task F A} (ht : t ≠ .unused)
    (hq : q t = l₁ ++ l₂) :
    waiting (Function.update q t (l₁ ++ e :: l₂)) = waiting q + {e.2} := by
  have hupdate := waiting_update (q := q) ht (l₁ ++ e :: l₂)
  have hlist : ((l₁ ++ e :: l₂).map Prod.snd : Multiset (Task F A)) =
      {e.2} + (q t).map Prod.snd := by
    rw [hq, Multiset.singleton_add, Multiset.cons_coe]
    simp only [List.map_append, List.map_cons]
    exact Multiset.coe_eq_coe.2 List.perm_middle
  rw [hlist, ← add_assoc] at hupdate
  exact add_right_cancel hupdate

omit [DecidableEq A] in
/-- A thread is taken out of a list. -/
theorem waiting_remove {l₁ l₂ : List (ℕ × Task F A)} {e : ℕ × Task F A} (ht : t ≠ .unused)
    (hq : q t = l₁ ++ e :: l₂) :
    waiting q = waiting (Function.update q t (l₁ ++ l₂)) + {e.2} := by
  have hinsert := waiting_insert (q := Function.update q t (l₁ ++ l₂)) (e := e) ht
    (Function.update_self ..)
  rwa [Function.update_idem, ← hq, Function.update_eq_self] at hinsert

omit [DecidableEq A] in
/-- A step loses no task, and makes none up. -/
theorem Queues.Step.tasks (h : Step q acts q') :
    tasks (acts.filterMap Act.fetched) + tasks (acts.filterMap Act.cancelled) + waiting q' =
      tasks (acts.filterMap Act.accepted) + waiting q := by
  cases h with
  | recycle l => simp [Mksh.tasks, waiting_update_unused]
  | push a task htimer hready hunused =>
    rw [waiting_insert hunused (List.append_nil _).symm]
    simp [Mksh.tasks, List.filterMap_cons, Act.accepted, Act.fetched, Act.cancelled, add_comm]
  | timer a func arg hq _ _ =>
    rw [waiting_insert (by decide) hq]
    simp [Mksh.tasks, List.filterMap_cons, Act.accepted, Act.fetched, Act.cancelled, add_comm]
  | cancel hunused hq =>
    rw [waiting_remove hunused hq]
    simp [Mksh.tasks, List.filterMap_cons, Act.accepted, Act.fetched, Act.cancelled, add_comm]
  | fetch hunused _ hq =>
    rw [waiting_remove hunused hq]
    simp [Mksh.tasks, List.filterMap_cons, Act.accepted, Act.fetched, Act.cancelled, add_comm]
  | @ready l₁ l₂ e kind hq =>
    have hready : Function.update q kind.type (l₁ ++ l₂) .ready = q .ready ++ [] := by
      rw [Function.update_of_ne (type_ne_ready kind).symm, List.append_nil]
    rw [waiting_insert (by decide) hready, ← waiting_remove (type_ne_unused kind) hq]
    rfl

omit [DecidableEq A] in
theorem Queues.Steps.tasks (h : Steps q acts q') :
    tasks (acts.filterMap Act.fetched) + tasks (acts.filterMap Act.cancelled) + waiting q' =
      tasks (acts.filterMap Act.accepted) + waiting q := by
  induction h with
  | refl => simp [Mksh.tasks]
  | @cons q q₁ q₂ acts acts' hstep _ ih =>
    simp only [List.filterMap_append, tasks_append]
    calc _ = Mksh.tasks (acts.filterMap Act.fetched) + Mksh.tasks (acts.filterMap Act.cancelled) +
          (Mksh.tasks (acts'.filterMap Act.fetched) + Mksh.tasks (acts'.filterMap Act.cancelled) +
            waiting q₂) := by ac_rfl
      _ = Mksh.tasks (acts.filterMap Act.fetched) + Mksh.tasks (acts.filterMap Act.cancelled) +
          waiting q₁ + Mksh.tasks (acts'.filterMap Act.accepted) := by rw [ih]; ac_rfl
      _ = _ := by rw [hstep.tasks]; ac_rfl

/-! ### Events -/

omit [DecidableEq A] in
/-- Events come to the end of their list, and are fetched from its top. -/
theorem Queues.Step.events (h : Step q acts q') :
    (events (acts.filterMap Act.fetched) ++ (q' .event).map Prod.snd).Sublist
      ((q .event).map Prod.snd ++ events (acts.filterMap Act.accepted)) := by
  cases h with
  | recycle l => simp [Mksh.events]
  | @push t a task htimer hready hunused =>
    -- An event is added at the end, or the step is about another queue.
    rcases eq_or_ne t .event with rfl | ht
    · simp [Mksh.events, List.filterMap_cons, Act.accepted, Act.fetched]
    · rw [Function.update_of_ne ht.symm]
      simp [Mksh.events, List.filterMap_cons, Act.accepted, Act.fetched, ht]
  | timer a func arg hq _ _ =>
    simp [Mksh.events, List.filterMap_cons, Act.accepted, Act.fetched]
  | @cancel t l₁ l₂ e hunused hq =>
    rcases eq_or_ne t .event with rfl | ht
    · rw [hq]
      simp [Mksh.events, List.filterMap_cons, Act.accepted, Act.fetched]
    · rw [Function.update_of_ne ht.symm]
      simp [Mksh.events, List.filterMap_cons, Act.accepted, Act.fetched]
  | @fetch t l₁ l₂ e hunused hevent hq =>
    rcases eq_or_ne t .event with rfl | ht
    · obtain rfl := hevent rfl
      rw [hq]
      simp [Mksh.events, List.filterMap_cons, Act.accepted, Act.fetched]
    · rw [Function.update_of_ne ht.symm]
      simp [Mksh.events, List.filterMap_cons, Act.accepted, Act.fetched, ht]
  | ready kind hq =>
    rw [Function.update_of_ne (by decide), Function.update_of_ne (type_ne_event kind).symm]
    simp [Mksh.events]

omit [DecidableEq A] in
theorem Queues.Steps.events (h : Steps q acts q') :
    (events (acts.filterMap Act.fetched) ++ (q' .event).map Prod.snd).Sublist
      ((q .event).map Prod.snd ++ events (acts.filterMap Act.accepted)) := by
  induction h with
  | refl => simp [Mksh.events]
  | @cons q q₁ q₂ acts acts' hstep _ ih =>
    simp only [List.filterMap_append, events_append]
    rw [List.append_assoc, ← List.append_assoc _ _ (Mksh.events (acts'.filterMap Act.accepted))]
    refine (ih.append_left _).trans ?_
    rw [← List.append_assoc]
    exact hstep.events.append_right _

end Accounts

/-- Whatever is accepted is fetched, cancelled or still in a list, as it was
    registered. Events are fetched in the order in which they were added, and a
    thread that is ready is only fetched in a round that starts without events,
    and when no timer is due by its clock. -/
theorem run_tasks (h : Run calls m) :
    tasks ((calls.flatMap Call.acts).filterMap Act.fetched) +
        tasks ((calls.flatMap Call.acts).filterMap Act.cancelled) + waiting m.queue =
      tasks ((calls.flatMap Call.acts).filterMap Act.accepted) ∧
    (events ((calls.flatMap Call.acts).filterMap Act.fetched) ++
        (m.queue .event).map Prod.snd).Sublist
      (events ((calls.flatMap Call.acts).filterMap Act.accepted)) ∧
    ∀ (rounds : List Round) (thread : Thread F A) (m' : Master F A),
      (threadFetch rounds).result m = some (some (some thread), m') → thread.type = .ready →
      ∃ pre r post m₁, rounds = pre ++ r :: post ∧
        (threadFetch pre).result m = some (none, m₁) ∧
        (threadFetchRound r).result m₁ = some (some (some thread), m') ∧
        m₁.queue .event = [] ∧ m'.queue .event = [] ∧
        (∀ e ∈ m₁.queue .timer, ¬ Due r.timerNow e) ∧ m'.queue .timer = m₁.queue .timer := by
  obtain ⟨hs, hsteps⟩ := h.scheduled
  refine ⟨?_, hsteps.events, fun rounds thread m' hr hready => ?_⟩
  · rw [hsteps.tasks]
    simp [waiting]
  · -- The thread is fetched in one of the rounds; until then nothing was.
    obtain ⟨pre, r, post, m₁, rfl, hpre, hround⟩ := threadFetch_eq_some hr
    obtain ⟨q₁, hs₁, -⟩ := (hs.threadFetch pre).ensures _ _ hpre
    obtain ⟨q', hs', -, hnext⟩ := (hs₁.threadFetchRound r).ensures _ _ hround
    refine ⟨pre, r, post, m₁, rfl, hpre, hround, ?_⟩
    rw [hs₁.rep.queue_eq, hs'.rep.queue_eq]
    have hnext := hnext thread rfl
    rw [Next, hready] at hnext
    exact hnext

/-- Of three threads that were accepted, one has been cancelled, one fetched, and one is in a list.
    The latter is ready in the next round. -/
theorem run_tasks_fetch : ∃ m : Master Unit ℕ,
    tasks [⟨⟨(), 9, .val 1⟩, .event⟩] + tasks [⟨⟨(), 8, .val 1⟩, .event⟩] + waiting m.queue =
      tasks [⟨⟨(), 7, .fd 3⟩, .read⟩, ⟨⟨(), 8, .val 1⟩, .event⟩, ⟨⟨(), 9, .val 1⟩, .event⟩] ∧
    (events [⟨⟨(), 9, .val 1⟩, .event⟩] ++ (m.queue .event).map Prod.snd).Sublist
      [⟨(), 8, .val 1⟩, ⟨(), 9, .val 1⟩] ∧
    ∃ m', (threadFetchRound (readyRound ⟨0, 0⟩)).result m =
      some (some (some ⟨⟨(), 7, .fd 3⟩, .ready⟩), m') ∧ m.queue .event = [] := by
  obtain ⟨calls, m, hrun, hacts, -, -, m', hr⟩ := exists_run_fetch
  obtain ⟨htasks, hevents, hready⟩ := run_tasks hrun
  rw [hacts] at htasks hevents
  refine ⟨m, htasks, hevents, m', ?_⟩
  obtain ⟨pre, r, post, m₁, hrounds, hpre, hround, hnone, -⟩ := hready _ _ _ hr rfl
  -- There is one round.
  obtain ⟨rfl, rfl, rfl⟩ : pre = [] ∧ r = readyRound ⟨0, 0⟩ ∧ post = [] := by
    rcases pre with _ | ⟨r', pre⟩
    · obtain ⟨rfl, rfl⟩ := List.cons.inj hrounds
      exact ⟨rfl, rfl, rfl⟩
    · obtain ⟨-, hnil⟩ := List.cons.inj hrounds
      exact absurd hnil (by simp)
  cases hpre
  exact ⟨hround, hnone⟩

end Mksh
