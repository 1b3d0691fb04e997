import Mksh.Thread.Run

/-!
# The records of threads

The record of a thread that has been fetched or cancelled is used again, and one is
allocated only when there are no such records (`Allocates`). So in every run, just as
many records have been allocated as there have been threads at a time (`run_alloc`).
-/

namespace Mksh

open CString Process Intrusive Queues

variable {F A : Type} {m m' : Master F A} {q : Queues F A}

/-! ## Frames -/

/-- Nothing is allocated. -/
def SameAlloc (m m' : Master F A) : Prop := m'.alloc = m.alloc

instance : IsPreorder (Master F A) SameAlloc where
  refl _ := rfl
  trans _ _ _ h h' := h'.trans h

/-- Nor does the list of the unused records change. -/
def SameUnused (m m' : Master F A) : Prop :=
  m'.alloc = m.alloc ∧ m'.list .unused = m.list .unused

instance : IsPreorder (Master F A) SameUnused where
  refl _ := ⟨rfl, rfl⟩
  trans _ _ _ h h' := ⟨h'.1.trans h.1, h'.2.trans h.2⟩

section Frames

variable {R : Master F A → Master F A → Prop} [IsPreorder (Master F A) R]

theorem moves_threadAt (a : ℕ) : Moves R (threadAt (F := F) (A := A) a) := by
  refine moves_get.bind fun m => ?_
  cases m.thread a with
  | none => exact moves_halt
  | some thread => exact moves_pure thread

theorem moves_findTimer (breaks : Timeval → Bool) :
    Moves R (findTimer (F := F) (A := A) breaks) := by
  refine moves_get.bind fun m => ?_
  rcases timerLoop m breaks m.fresh (m.list .timer).head with _ | tt
  · exact moves_halt
  · exact moves_pure tt

theorem moves_fdAt (a : ℕ) : Moves R (fdAt (F := F) (A := A) a) := by
  refine (moves_threadAt a).bind fun thread => ?_
  cases thread.u with
  | fd fd => exact moves_pure fd
  | _ => exact moves_halt

end Frames

theorem sameAlloc_setType (a : ℕ) (type : ThreadType) :
    Moves SameAlloc (setType (F := F) (A := A) a type) :=
  (moves_threadAt a).bind fun _ => moves_modify fun _ => rfl

theorem sameAlloc_threadListAdd (t : ThreadType) (a : ℕ) :
    Moves SameAlloc (threadListAdd (F := F) (A := A) t a) := moves_modify fun _ => rfl

theorem sameAlloc_threadListDelete (t : ThreadType) (a : ℕ) :
    Moves SameAlloc (threadListDelete (F := F) (A := A) t a) := moves_modify fun _ => rfl

theorem sameAlloc_threadAddUnuse (a : ℕ) :
    Moves SameAlloc (threadAddUnuse (F := F) (A := A) a) :=
  moves_get.bind fun _ => (moves_threadAt a).bind fun _ =>
    (sameAlloc_threadListAdd .unused a).ite moves_halt

theorem sameAlloc_fdClr (kind : FdKind) (fd : ℕ) :
    Moves SameAlloc (fdClr (F := F) (A := A) kind fd) := by
  refine moves_get.bind fun m => ?_
  dsimp only
  exact Moves.ite (moves_modify fun _ => rfl) moves_halt

theorem sameAlloc_threadCancelType (a : ℕ) (t : ThreadType) :
    Moves SameAlloc (threadCancelType (F := F) (A := A) a t) := by
  have hfd (kind : FdKind) : Moves SameAlloc (do
      fdClr (F := F) (A := A) kind (← fdAt a)
      threadListDelete kind.type a) :=
    (moves_fdAt a).bind fun fd => (sameAlloc_fdClr kind fd).bind fun _ =>
      sameAlloc_threadListDelete kind.type a
  cases t with
  | read => exact hfd .read
  | write => exact hfd .write
  | unused => exact moves_pure ()
  | _ => exact sameAlloc_threadListDelete _ a

theorem sameAlloc_threadCancel (a : ℕ) : Moves SameAlloc (threadCancel (F := F) (A := A) a) :=
  (moves_threadAt a).bind fun thread => (sameAlloc_threadCancelType a thread.type).bind fun _ =>
    (sameAlloc_setType a .unused).bind fun _ => sameAlloc_threadAddUnuse a

theorem sameAlloc_cancelEventLoop [DecidableEq A] (arg : A) (n : ℕ) (t : Option ℕ) :
    Moves SameAlloc (cancelEventLoop (F := F) arg n t) := by
  induction n generalizing t with
  | zero =>
    cases t with
    | none => exact moves_pure ()
    | some t => exact moves_halt
  | succ n ih =>
    cases t with
    | none => exact moves_pure ()
    | some t =>
      refine moves_get.bind fun m => (moves_threadAt t).bind fun thread => ?_
      dsimp only
      split_ifs
      · refine (sameAlloc_threadListDelete .event t).bind fun _ => ?_
        refine (sameAlloc_setType t .unused).bind fun _ => ?_
        exact (sameAlloc_threadAddUnuse t).bind fun _ => ih _
      · exact ih _

theorem sameAlloc_threadRun (a : ℕ) : Moves SameAlloc (threadRun (F := F) (A := A) a) :=
  (moves_threadAt a).bind fun thread => (sameAlloc_setType a .unused).bind fun _ =>
    (sameAlloc_threadAddUnuse a).bind fun _ => moves_pure thread

theorem sameAlloc_threadTrimHead (t : ThreadType) :
    Moves SameAlloc (threadTrimHead (F := F) (A := A) t) := by
  refine moves_get.bind fun m => ?_
  cases (m.list t).head with
  | none => exact moves_pure none
  | some a => exact (sameAlloc_threadListDelete t a).bind fun _ => moves_pure (some a)

theorem sameAlloc_threadTrimTimer (timerNow : Timeval) :
    Moves SameAlloc (threadTrimTimer (F := F) (A := A) timerNow) := by
  refine (moves_findTimer _).bind fun a => ?_
  cases a with
  | none => exact moves_pure none
  | some a => exact (sameAlloc_threadListDelete .timer a).bind fun _ => moves_pure (some a)

theorem sameAlloc_processFdLoop (kind : FdKind) (fdset : Finset ℕ) (ready n : ℕ)
    (a : Option ℕ) : Moves SameAlloc (processFdLoop (F := F) (A := A) kind fdset ready n a) := by
  induction n generalizing ready a with
  | zero =>
    cases a with
    | none => exact moves_pure ready
    | some a => exact moves_halt
  | succ n ih =>
    cases a with
    | none => exact moves_pure ready
    | some a =>
      refine moves_get.bind fun m => (moves_fdAt a).bind fun fd => Moves.ite ?_ (ih ready _)
      refine (sameAlloc_fdClr kind fd).bind fun _ => ?_
      refine (sameAlloc_threadListDelete kind.type a).bind fun _ => ?_
      refine (sameAlloc_threadListAdd .ready a).bind fun _ => ?_
      exact (sameAlloc_setType a .ready).bind fun _ => ih (ready + 1) _

theorem sameAlloc_threadProcessFd (kind : FdKind) (fdset : Finset ℕ) :
    Moves SameAlloc (threadProcessFd (F := F) (A := A) kind fdset) :=
  moves_get.bind fun m => sameAlloc_processFdLoop kind fdset 0 m.fresh _

theorem sameAlloc_runOr {α : Type} {first : Sched F A (Option ℕ)}
    {otherwise : Sched F A (Option α)} {ret : Thread F A → α} (hfirst : Moves SameAlloc first)
    (hotherwise : Moves SameAlloc otherwise) :
    Moves SameAlloc (runOr first otherwise ret) := by
  refine hfirst.bind fun a => ?_
  cases a with
  | none => exact hotherwise
  | some a => exact (sameAlloc_threadRun a).bind fun thread => moves_pure (some (ret thread))

theorem sameAlloc_threadTimerWait (timerNow : Timeval) :
    Moves SameAlloc (threadTimerWait (F := F) (A := A) timerNow) := by
  refine moves_get.bind fun m => ?_
  rcases (m.list .timer).head with _ | a
  · exact moves_pure none
  · dsimp only
    rcases sandsAt m a with _ | sands
    · exact moves_halt
    · exact moves_pure _

theorem sameAlloc_threadSelect (r : Round) :
    Moves SameAlloc (threadSelect (F := F) (A := A) r) := by
  refine moves_get.bind fun m => (sameAlloc_threadTimerWait r.waitNow).bind fun timerWait => ?_
  rcases r.select m.fdset m.exceptfd timerWait with _ | _ | message | fds
  · exact moves_pure none
  · exact moves_pure none
  · exact (moves_emit _).bind fun _ => moves_pure (some none)
  · refine (sameAlloc_threadProcessFd .read (fds .read)).bind fun _ => ?_
    refine (sameAlloc_threadProcessFd .write (fds .write)).bind fun _ => ?_
    exact sameAlloc_runOr (sameAlloc_threadTrimHead .ready) (moves_pure none)

theorem sameAlloc_threadFetch (rounds : List Round) :
    Moves SameAlloc (threadFetch (F := F) (A := A) rounds) := by
  induction rounds with
  | nil => exact moves_pure none
  | cons r rounds ih =>
    refine Moves.bind ?_ fun ret => ?_
    · refine sameAlloc_runOr (sameAlloc_threadTrimHead .event) ?_
      refine sameAlloc_runOr (sameAlloc_threadTrimTimer r.timerNow) ?_
      exact sameAlloc_runOr (sameAlloc_threadTrimHead .ready) (sameAlloc_threadSelect r)
    · cases ret with
      | none => exact ih
      | some ret => exact moves_pure (some ret)

/-! ## Adding threads -/

/-- A record is allocated only if there are no unused ones. -/
structure Allocates (m m' : Master F A) : Prop where
  le : m.alloc ≤ m'.alloc
  eq_or : m'.alloc = m.alloc ∨ (m'.list .unused).head = none

theorem SameAlloc.allocates (h : SameAlloc m m') : Allocates m m' := ⟨h.ge, .inl h⟩

theorem Allocates.trans {m'' : Master F A} (h : Allocates m m') (h' : SameUnused m' m'') :
    Allocates m m'' := by
  refine ⟨h.le.trans h'.1.ge, ?_⟩
  rw [h'.1, h'.2]
  exact h.eq_or

theorem threadGet_allocates (type : ThreadType) (func : F) (arg : A) :
    Ensures (threadGet type func arg) (fun _ => Allocates m) m := by
  rw [threadGet, ensures_bind, threadTrimHead, ensures_bind, ensures_get]
  rcases hhead : (m.list .unused).head with _ | a
  · simp only [ensures_pure, ensures_bind, threadCalloc, ensures_get, ensures_modify, setThread]
    exact ⟨Nat.le_succ _, .inr hhead⟩
  · simp only [ensures_pure, ensures_bind, ensures_get, ensures_modify, setThread,
      threadListDelete]
    exact ⟨le_rfl, .inl rfl⟩

theorem sameUnused_setU (a : ℕ) (u : ThreadU) :
    Moves SameUnused (setU (F := F) (A := A) a u) :=
  (moves_threadAt a).bind fun _ => moves_modify fun _ => ⟨rfl, rfl⟩

theorem sameUnused_onList {t : ThreadType} (ht : t ≠ .unused)
    (f : Heap ℕ → Header ℕ → Heap ℕ × Header ℕ) :
    Moves SameUnused (modify (Master.onList t f) : Sched F A Unit) :=
  moves_modify fun _ => ⟨rfl, Function.update_of_ne ht.symm _ _⟩

/-- A record that is allocated, or used again, and put into a list. -/
theorem Ensures.allocates {α : Type} {type : ThreadType} {func : F} {arg : A}
    {rest : ℕ → Sched F A α} (hrest : ∀ a, Moves SameUnused (rest a)) :
    Ensures (threadGet type func arg >>= rest) (fun _ => Allocates m) m :=
  ensures_bind.2 ((threadGet_allocates type func arg).mono fun a m' h =>
    (hrest a m').mono fun _ _ h' => h.trans h')

theorem threadAddFd_allocates (kind : FdKind) (func : F) (arg : A) (fd : ℕ) :
    Ensures (threadAddFd kind func arg fd) (fun _ => Allocates m) m := by
  rw [threadAddFd, ensures_bind, ensures_get]
  dsimp only
  split_ifs with hfd
  · simp only [ensures_bind, ensures_emit, ensures_pure]
    exact SameAlloc.allocates rfl
  · refine Ensures.allocates fun a => ?_
    refine Moves.bind (moves_modify fun _ => ⟨rfl, rfl⟩) fun _ => ?_
    refine (sameUnused_setU a _).bind fun _ => ?_
    exact (sameUnused_onList (type_ne_unused kind) _).bind fun _ => moves_pure (some a)

theorem threadAddTimer_allocates (func : F) (arg : A) (timer : ℤ) (timerNow : Timeval) :
    Ensures (threadAddTimer func arg timer timerNow) (fun _ => Allocates m) m := by
  refine Ensures.allocates fun a => (sameUnused_setU a _).bind fun _ => ?_
  refine (moves_findTimer _).bind fun tt => ?_
  cases tt with
  | none => exact (sameUnused_onList (by decide) _).bind fun _ => moves_pure a
  | some tt => exact (sameUnused_onList (by decide) _).bind fun _ => moves_pure a

theorem threadAddEvent_allocates (func : F) (arg : A) (val : ℤ) :
    Ensures (threadAddEvent func arg val) (fun _ => Allocates m) m :=
  Ensures.allocates fun a => (sameUnused_setU a _).bind fun _ =>
    (sameUnused_onList (by decide) _).bind fun _ => moves_pure a

/-! ## Runs -/

theorem perform_allocates [DecidableEq A] (op : Op F A) :
    Ensures op.perform (fun _ => Allocates m) m := by
  have hpure {α : Type} {p : Sched F A α} {f : α → Ret F A}
      (h : Ensures p (fun _ => Allocates m) m) :
      Ensures (p >>= fun a => pure (f a)) (fun _ => Allocates m) m :=
    ensures_bind.2 (h.mono fun _ _ h => ensures_pure.2 h)
  have hsame {α : Type} {p : Sched F A α} (h : Moves SameAlloc p) :
      Ensures p (fun _ => Allocates m) m := (h m).mono fun _ _ h => h.allocates
  cases op with
  | addRead func arg fd => exact hpure (threadAddFd_allocates .read func arg fd)
  | addWrite func arg fd => exact hpure (threadAddFd_allocates .write func arg fd)
  | addTimer func arg timer timerNow =>
    exact hpure (threadAddTimer_allocates func arg timer timerNow)
  | addEvent func arg val => exact hpure (threadAddEvent_allocates func arg val)
  | cancel a => exact hpure (f := fun _ => .cancelled) (hsame (sameAlloc_threadCancel a))
  | cancelEvent arg =>
    refine hpure (f := fun _ => .cancelled) (hsame ?_)
    exact moves_get.bind fun m => sameAlloc_cancelEventLoop arg m.fresh _
  | fetch rounds => exact hpure (hsame (sameAlloc_threadFetch rounds))

/-- The number of threads that are registered. -/
def Master.registered (m : Master F A) : ℕ := (waiting m.queue).card

/-- The other records are unused. -/
theorem Rep.alloc_eq (h : Rep m q none) : m.alloc = m.registered + (q .unused).length := by
  have hcard := congrArg Multiset.card h.held
  rw [Multiset.card_add, Multiset.card_sum, Multiset.card_range] at hcard
  have huniv : (Finset.univ : Finset ThreadType) =
      insert .unused {.read, .write, .timer, .event, .ready} := by decide
  rw [Master.registered, h.queue_eq, waiting, Multiset.card_sum, h.alloc, ← hcard, huniv,
    Finset.sum_insert (by decide)]
  simp [Queues.addresses, add_comm]

variable [DecidableEq A] {calls : List (Call F A)}

/-- As many records have been allocated as there have been threads at a time. -/
theorem run_alloc (h : Run calls m) :
    (m.registered ≤ m.alloc ∧ ∀ c ∈ calls, c.before.registered ≤ m.alloc) ∧
      (m.alloc = m.registered ∨ ∃ c ∈ calls, m.alloc = c.before.registered) := by
  have hreg {m : Master F A} {calls : List (Call F A)} (h : Run calls m) :
      m.registered ≤ m.alloc := h.scheduled.1.rep.alloc_eq ▸ Nat.le_add_right _ _
  induction h with
  | create => exact ⟨⟨hreg .create, by simp⟩, .inl rfl⟩
  | @call calls m op ret m' hrun hop hr ih =>
    have hrun' := hrun.call hop hr
    obtain ⟨⟨hle, hcalls⟩, hpeak⟩ := ih
    have halloc := perform_allocates op ret m' hr
    refine ⟨⟨hreg hrun', fun c hc => ?_⟩, ?_⟩
    · rcases List.mem_append.1 hc with hc | hc
      · exact (hcalls c hc).trans halloc.le
      · obtain rfl := List.mem_singleton.1 hc
        exact hle.trans halloc.le
    · rcases halloc.eq_or with heq | hhead
      · -- Nothing is allocated.
        rw [heq]
        rcases hpeak with hpeak | ⟨c, hc, hpeak⟩
        · exact .inr ⟨_, List.mem_append_right calls (List.mem_singleton_self _), hpeak⟩
        · exact .inr ⟨c, List.mem_append_left _ hc, hpeak⟩
      · -- There are no unused records now.
        have hrep := hrun'.scheduled.1.rep
        have hnil : m'.queue .unused = [] := by
          rw [(hrep.isList .unused).head, List.head?_eq_none_iff] at hhead
          exact List.map_eq_nil_iff.1 hhead
        refine .inl ?_
        rw [hrep.alloc_eq, hnil, List.length_nil, Nat.add_zero]

/-- A record is used for two threads, one after the other. -/
theorem run_alloc_cancel : ∃ (m : Master Unit ℕ) (calls : List (Call Unit ℕ)),
    calls.map (fun c => c.op) = [.addEvent () 7 1, .cancel 0, .addEvent () 8 1] ∧ m.alloc = 1 ∧
      (m.registered ≤ m.alloc ∧ ∀ c ∈ calls, c.before.registered ≤ m.alloc) ∧
      (m.alloc = m.registered ∨ ∃ c ∈ calls, m.alloc = c.before.registered) := by
  have hadd : Run (F := Unit) [⟨threadMasterCreate, .addEvent () 7 1, .added (some 0)⟩] _ :=
    .call .create trivial rfl
  have hcancel := hadd.call (show Op.Valid _ (.cancel 0) from ⟨_, rfl, nofun⟩) rfl
  have hagain := hcancel.call (show Op.Valid _ (.addEvent () 8 1) from trivial) rfl
  exact ⟨_, _, rfl, rfl, run_alloc hagain⟩

end Mksh
