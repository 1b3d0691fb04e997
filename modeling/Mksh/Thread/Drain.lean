import Mksh.Thread.Run

/-!
# Draining

`threadFetch` goes on waiting exactly as long as there is nothing to run, and leaves
everything as it is meanwhile (`run_waits`). So no thread is forgotten: once the clock is past
all the timers and all the descriptors are ready, as many calls as there are threads run all of
them (`run_drains`).
-/

namespace Mksh

open CString Process Intrusive Queues

variable {F A : Type} {m m' : Master F A} {q q' : Queues F A} {l₁ l₂ : List (ℕ × Task F A)}
  {fds : Finset ℕ} {kind : FdKind} {r : Round} {rounds : List Round}
  {acts : List (Act F A)}

/-! ## Steps -/

/-- A change in which nothing becomes of threads only adds to those that are ready. -/
theorem Queues.Steps.ready_prefix (h : Steps q acts q') (hacts : acts = []) :
    q .ready <+: q' .ready := by
  induction h with
  | refl => exact List.prefix_rfl
  | cons hstep _ ih =>
    obtain ⟨rfl, rfl⟩ := List.append_eq_nil_iff.1 hacts
    refine List.IsPrefix.trans ?_ (ih rfl)
    cases hstep with
    | recycle l => rw [Function.update_of_ne (by decide)]
    | ready kind hq =>
      rw [Function.update_self]
      exact List.prefix_append _ _

/-- A change in which no thread is accepted adds no timers. -/
theorem Queues.Steps.timer_subset (h : Steps q acts q') (hacts : acts.filterMap Act.accepted = []) :
    q' .timer ⊆ q .timer := by
  have hremove {q : Queues F A} {t : ThreadType} {l₁ l₂ : List (ℕ × Task F A)} {e : ℕ × Task F A}
      (hq : q t = l₁ ++ e :: l₂) : Function.update q t (l₁ ++ l₂) .timer ⊆ q .timer := by
    rcases eq_or_ne t .timer with rfl | ht
    · rw [Function.update_self, hq]
      exact (List.Sublist.append_left (List.sublist_cons_self e l₂) l₁).subset
    · rw [Function.update_of_ne ht.symm]
      exact List.Subset.refl _
  induction h with
  | refl => exact List.Subset.refl _
  | cons hstep _ ih =>
    rw [List.filterMap_append, List.append_eq_nil_iff] at hacts
    refine List.Subset.trans (ih hacts.2) ?_
    cases hstep with
    | recycle l => rw [Function.update_of_ne (by decide)]; exact List.Subset.refl _
    | push => cases hacts.1
    | timer => cases hacts.1
    | cancel hunused hq => exact hremove hq
    | fetch hunused hevent hq => exact hremove hq
    | ready kind hq =>
      rw [Function.update_of_ne (by decide)]
      exact hremove hq

/-! ## Descriptors that are ready -/

/-- Some thread waits for a descriptor in the set. -/
def Hits (fds : Finset ℕ) (l : List (ℕ × Task F A)) : Prop := ∃ e ∈ l, ∃ fd ∈ fds, e.2.u = .fd fd

theorem hits_cons {e : ℕ × Task F A} {l : List (ℕ × Task F A)} {fd : ℕ} (hu : e.2.u = .fd fd) :
    Hits fds (e :: l) ↔ fd ∈ fds ∨ Hits fds l := by
  rw [Hits, List.exists_mem_cons_iff]
  refine or_congr_left ⟨?_, fun hfd => ⟨fd, hfd, hu⟩⟩
  rintro ⟨fd', hfd', hu'⟩
  obtain rfl := ThreadU.fd.inj (hu.symm.trans hu')
  exact hfd'

/-- The threads of a kind wait for the descriptors of its set. -/
theorem Queues.Typed.hits_iff {fdset : FdKind → Finset ℕ} (h : Typed fdset q) :
    Hits fds (q kind.type) ↔ ¬Disjoint fds (fdset kind) := by
  obtain ⟨fdl, hmap, -, hmem⟩ := h.waits kind
  rw [Finset.not_disjoint_iff]
  constructor
  · rintro ⟨e, he, fd, hfd, hu⟩
    have hfdl : ThreadU.fd fd ∈ fdl.map ThreadU.fd :=
      hmap ▸ List.mem_map.2 ⟨e, he, hu⟩
    obtain ⟨fd', hfd', heq⟩ := List.mem_map.1 hfdl
    obtain rfl := ThreadU.fd.inj heq
    exact ⟨fd', hfd, (hmem fd').2 hfd'⟩
  · rintro ⟨fd, hfd, hset⟩
    have hu : ThreadU.fd fd ∈ (q kind.type).map fun e => e.2.u :=
      hmap ▸ List.mem_map.2 ⟨fd, (hmem fd).1 hset, rfl⟩
    obtain ⟨e, he, hu⟩ := List.mem_map.1 hu
    exact ⟨e, he, fd, hfd, hu⟩

namespace Scheduled

/-- The loop makes some thread ready if one waits for a descriptor in the set, and else changes
    nothing. -/
theorem processFdLoop_hits {ready n : ℕ} (h : Scheduled m q) (hq : q kind.type = l₁ ++ l₂)
    (hn : l₂.length ≤ n) :
    Achieves (Mksh.processFdLoop kind fds ready n (l₂.map Prod.fst).head?) (fun _ m' =>
      (Hits fds l₂ → ∃ q', Scheduled m' q' ∧ Steps q [] q' ∧ q' .ready ≠ []) ∧
        (¬Hits fds l₂ → m' = m)) m := by
  induction l₂ generalizing l₁ n ready with
  | nil =>
    simp only [List.map_nil, List.head?_nil, Mksh.processFdLoop, achieves_pure]
    refine ⟨?_, fun _ => trivial⟩
    rintro ⟨e, he, -⟩
    exact absurd he List.not_mem_nil
  | cons e l₂ ih =>
    rcases n with _ | n
    · exact absurd hn (Nat.not_succ_le_zero _)
    have hn := Nat.le_of_succ_le_succ hn
    have hthread := h.rep.thread (e := e) (t := kind.type) (by simp [hq])
    have hwaits := h.typed.waits kind
    rw [hq] at hwaits
    obtain ⟨fd, hfd, hu, hwaits⟩ := hwaits.erase
    simp only [List.map_cons, List.head?_cons, Mksh.processFdLoop, achieves_bind, achieves_get,
      achieves_fdAt hthread hu, h.next_eq hq, achieves_ite, hits_cons hu]
    -- From the first descriptor that is ready on, the ready list only grows.
    by_cases hmem : fd ∈ fds
    · simp only [hmem, if_true, true_or, forall_true_left, not_true, false_implies, and_true]
      rw [achieves_fdClr hfd, achieves_threadListDelete, achieves_threadListAdd,
        achieves_setType (m := Master.onList _ _ (Master.onList _ _ (m.setFdset _ _))) hthread]
      have hrep := ((h.rep.setFdset kind ((m.fdset kind).erase fd)).delete hq)
      have hrep' := (hrep.setThread hrep.out_lt ⟨e.2, .ready⟩).add Master.setThread_thread_self
      rw [Function.update_of_ne (type_ne_ready kind).symm] at hrep'
      have htyped := (h.typed.update_kind kind hwaits).update_of_ne type_ne_ready (by decide)
        (q .ready ++ [e])
      refine (processFdLoop ⟨hrep', htyped⟩ (show _ = l₁ ++ l₂ from ?_) hn).mono ?_
      · rw [Function.update_of_ne (type_ne_ready kind), Function.update_self]
      · rintro _ m' ⟨q', h', hsteps, -⟩
        refine ⟨q', h', (Step.ready kind hq).steps.trans hsteps, ?_⟩
        have hprefix := hsteps.ready_prefix rfl
        rw [Function.update_self] at hprefix
        exact hprefix.ne_nil (by simp)
    · simp only [hmem, if_false, false_or]
      exact ih (hq.trans (List.append_cons l₁ e l₂)) hn

theorem threadProcessFd_hits (h : Scheduled m q) :
    Achieves (Mksh.threadProcessFd kind fds) (fun _ m' =>
      (¬Disjoint fds (m.fdset kind) →
        ∃ q', Scheduled m' q' ∧ Steps q [] q' ∧ q' .ready ≠ []) ∧
      (Disjoint fds (m.fdset kind) → m' = m)) m := by
  rw [Mksh.threadProcessFd, achieves_bind, achieves_get, h.head_eq]
  refine (h.processFdLoop_hits (List.nil_append _).symm (h.rep.length_le kind.type)).mono ?_
  rintro _ m' ⟨hhits, hno⟩
  rw [h.typed.hits_iff] at hhits hno
  exact ⟨hhits, fun hd => hno (not_not.2 hd)⟩

end Scheduled

/-! ## Waiting -/

/-- The answer gives nothing to run. -/
def Select.Quiet (fdset : FdKind → Finset ℕ) : Select → Prop
  | timeout => True
  | interrupted => True
  | error _ => False
  | ready fds => ∀ kind, Disjoint (fds kind) (fdset kind)

/-- There is nothing to run in a round. -/
structure NothingDue (r : Round) (m : Master F A) : Prop where
  event : m.queue .event = []
  timer : ∀ e ∈ m.queue .timer, ¬Due r.timerNow e
  ready : m.queue .ready = []
  select : ∀ timerWait, (threadTimerWait r.waitNow).result m = some (timerWait, m) →
    (r.select m.fdset m.exceptfd timerWait).Quiet m.fdset

/-- In the round, `select` answers with an error. -/
def Round.Fails (r : Round) : Prop :=
  ∃ fdset exceptfd timerWait message, r.select fdset exceptfd timerWait = .error message

/-- A round goes on exactly if there is nothing to run, and then leaves everything as it is. -/
structure Polls (r : Round) (m : Master F A) (ret : Option (Option (Thread F A)))
    (m' : Master F A) : Prop where
  none_iff : ret = none ↔ NothingDue r m
  eq : ret = none → m' = m
  fails : ret = some none → r.Fails

theorem polls_none (h : NothingDue r m) : Polls r m none m :=
  ⟨iff_of_true rfl h, fun _ => rfl, fun heq => absurd heq.symm (Option.some_ne_none _)⟩

theorem polls_some (h : ¬NothingDue r m) (thread : Thread F A) (m' : Master F A) :
    Polls r m (some (some thread)) m' :=
  ⟨iff_of_false (Option.some_ne_none _) h, fun heq => absurd heq (Option.some_ne_none _),
    fun heq => absurd (Option.some.inj heq) (Option.some_ne_none _)⟩

namespace Scheduled

/-- A round in which there is a thread ready in the end runs one. -/
theorem polls_of_ready (h : Scheduled m' q') (hready : q' .ready ≠ []) (hidle : ¬NothingDue r m) :
    Achieves (runOr (threadTrimHead .ready) (return none) some) (Polls r m) m' := by
  refine h.achieves_runOr_head type_ne_ready (by decide) (fun hnil => absurd hnil hready) ?_
  exact fun e l l' m'' _ _ => polls_some hidle _ m''

theorem polls_threadSelect (h : Scheduled m q) (hevent : q .event = [])
    (htimer : ∀ e ∈ q .timer, ¬Due r.timerNow e) (hready : q .ready = []) :
    Achieves (Mksh.threadSelect r) (Polls r m) m := by
  obtain ⟨timerWait, m₁, hwait, heq⟩ := h.threadTimerWait r.waitNow
  subst heq
  have hidle : NothingDue r m₁ ↔ (r.select m₁.fdset m₁.exceptfd timerWait).Quiet m₁.fdset := by
    refine ⟨fun hi => hi.select timerWait hwait, fun hquiet => ?_⟩
    rw [← h.rep.queue_eq] at hevent htimer hready
    refine ⟨hevent, htimer, hready, fun timerWait' hwait' => ?_⟩
    obtain ⟨rfl, -⟩ := Prod.mk.inj (Option.some.inj (hwait.symm.trans hwait'))
    exact hquiet
  rw [Mksh.threadSelect, achieves_bind, achieves_get, achieves_bind]
  refine ⟨timerWait, m₁, hwait, ?_⟩
  -- Nothing to do, an error, or descriptors, which have to be some that are waited for.
  rcases hselect : r.select m₁.fdset m₁.exceptfd timerWait with _ | _ | message | fds
  · rw [hselect] at hidle ⊢
    exact achieves_pure.2 (polls_none (hidle.2 trivial))
  · rw [hselect] at hidle ⊢
    exact achieves_pure.2 (polls_none (hidle.2 trivial))
  · rw [hselect] at hidle ⊢
    simp only [achieves_bind, achieves_emit, achieves_pure]
    exact ⟨iff_of_false (Option.some_ne_none _) hidle.1,
      fun heq => absurd heq (Option.some_ne_none _), fun _ => ⟨_, _, _, _, hselect⟩⟩
  rw [hselect] at hidle ⊢
  change NothingDue r m₁ ↔ ∀ kind, Disjoint (fds kind) (m₁.fdset kind) at hidle
  dsimp only
  rw [achieves_bind]
  by_cases hread : Disjoint (fds .read) (m₁.fdset .read)
  swap
  · have hno : ¬NothingDue r m₁ := fun hi => hread (hidle.1 hi .read)
    refine h.threadProcessFd_hits.mono fun _ m₂ hm₂ => ?_
    obtain ⟨q₂, h₂, -, hready₂⟩ := hm₂.1 hread
    rw [achieves_bind]
    refine (h₂.threadProcessFd .write (fds .write)).mono ?_
    rintro _ m₃ ⟨q₃, h₃, hsteps₃, -⟩
    exact h₃.polls_of_ready ((hsteps₃.ready_prefix rfl).ne_nil hready₂) hno
  refine h.threadProcessFd_hits.mono fun _ m₂ hm₂ => ?_
  obtain rfl := hm₂.2 hread
  rw [achieves_bind]
  refine h.threadProcessFd_hits.mono fun _ m₃ hm₃ => ?_
  -- Nothing has become ready for reading, so that the lists are as before.
  by_cases hwrite : Disjoint (fds .write) (m₂.fdset .write)
  · obtain rfl := hm₃.2 hwrite
    have hi : NothingDue r m₃ := hidle.2 fun kind => by cases kind; exacts [hread, hwrite]
    refine h.achieves_runOr_head type_ne_ready (by decide) (fun _ => ?_) fun e l l' m' hq _ => ?_
    · exact achieves_pure.2 (polls_none hi)
    · rw [hready] at hq
      cases hq
  · obtain ⟨q₃, h₃, -, hready₃⟩ := hm₃.1 hwrite
    exact h₃.polls_of_ready hready₃ fun hi => hwrite (hidle.1 hi .write)

theorem polls_threadFetchRound (h : Scheduled m q) (r : Round) :
    Achieves (Mksh.threadFetchRound r) (Polls r m) m := by
  rw [Mksh.threadFetchRound]
  refine h.achieves_runOr_head type_ne_event (by decide) (fun hevent => ?_) ?_
  · refine h.achieves_runOr_timer (fun hdue => ?_) ?_
    · refine h.achieves_runOr_head type_ne_ready (by decide) (fun hready => ?_) ?_
      · exact h.polls_threadSelect hevent hdue hready
      · intro e l l' m' hq _
        refine polls_some (fun hi => ?_) _ m'
        have hready := hi.ready
        rw [h.rep.queue_eq, hq] at hready
        cases hready
    · intro e l₁ l₂ l' m' hq _ hdue _
      refine polls_some (fun hi => hi.timer e ?_ hdue) _ m'
      rw [h.rep.queue_eq, hq]
      exact List.mem_append_right _ List.mem_cons_self
  · intro e l l' m' hq _
    refine polls_some (fun hi => ?_) _ m'
    have hevent := hi.event
    rw [h.rep.queue_eq, hq] at hevent
    cases hevent

/-- `threadFetch` goes on as long as there is nothing to run. -/
theorem polls_threadFetch (h : Scheduled m q) (rounds : List Round) :
    Achieves (Mksh.threadFetch rounds) (fun ret m' => (ret = none ↔ ∀ r ∈ rounds, NothingDue r m) ∧
      (ret = none → m' = m) ∧ (ret = some none → ∃ r ∈ rounds, r.Fails)) m := by
  induction rounds with
  | nil =>
    refine achieves_pure.2 ⟨iff_of_true rfl ?_, fun _ => rfl, fun heq => ?_⟩
    · exact fun r hr => absurd hr List.not_mem_nil
    · exact absurd heq.symm (Option.some_ne_none _)
  | cons r rounds ih =>
    rw [Mksh.threadFetch, achieves_bind]
    refine (h.polls_threadFetchRound r).mono fun ret m' hpoll => ?_
    rw [List.forall_mem_cons]
    rcases ret with _ | ret
    · obtain rfl := hpoll.eq rfl
      refine ih.mono fun ret' m'' hrest => ?_
      refine ⟨hrest.1.trans (and_iff_right (hpoll.none_iff.1 rfl)).symm, hrest.2.1, fun hret => ?_⟩
      obtain ⟨r', hr', hfails⟩ := hrest.2.2 hret
      exact ⟨r', List.mem_cons_of_mem r hr', hfails⟩
    · refine achieves_pure.2 ⟨iff_of_false (Option.some_ne_none _) fun hi => ?_, fun hret => ?_,
        fun hret => ⟨r, List.mem_cons_self, hpoll.fails hret⟩⟩
      · exact absurd (hpoll.none_iff.2 hi.1) (Option.some_ne_none _)
      · exact absurd hret (Option.some_ne_none _)

end Scheduled

/-! ## Runs -/

/-- In the round, the clock is past all the timers, and all the descriptors are ready. -/
structure Late (r : Round) (m : Master F A) : Prop where
  timer : ∀ e ∈ m.queue .timer, Due r.timerNow e
  select (fdset : FdKind → Finset ℕ) (exceptfd : Finset ℕ) (timerWait : Option Timeval) :
    r.select fdset exceptfd timerWait = .ready fdset

/-- There is something to run then, if there is a thread at all. -/
theorem Late.waiting_eq_zero (h : Late r m) (hs : Scheduled m q) (hidle : NothingDue r m) :
    waiting q = 0 := by
  obtain ⟨timerWait, m₁, hwait, heq⟩ := hs.threadTimerWait r.waitNow
  subst heq
  have hquiet := hidle.select timerWait hwait
  rw [h.select] at hquiet
  have hkind (kind : FdKind) : q kind.type = [] := by
    have hno : ¬Hits (m₁.fdset kind) (q kind.type) := by
      rw [hs.typed.hits_iff]
      exact not_not.2 (hquiet kind)
    refine List.eq_nil_iff_forall_not_mem.2 fun e he => hno ⟨e, he, ?_⟩
    obtain ⟨fdl, hmap, -, hmem⟩ := hs.typed.waits kind
    have hu : e.2.u ∈ fdl.map ThreadU.fd := hmap ▸ List.mem_map_of_mem he
    obtain ⟨fd, hfd, hu⟩ := List.mem_map.1 hu
    exact ⟨fd, (hmem fd).2 hfd, hu.symm⟩
  have hevent := hidle.event
  have hready := hidle.ready
  have htimer : m₁.queue .timer = [] :=
    List.eq_nil_iff_forall_not_mem.2 fun e he => hidle.timer e he (h.timer e he)
  rw [hs.rep.queue_eq] at hevent hready htimer
  have hread : q .read = [] := hkind .read
  have hwrite : q .write = [] := hkind .write
  simp [waiting, hread, hwrite, hevent, hready, htimer]

variable [DecidableEq A] {calls : List (Call F A)}

/-- In every state that is reached, `threadFetch` goes on waiting exactly as long as there is
    nothing to run, and changes nothing meanwhile; it returns `NULL` only on an error of
    `select`. -/
theorem run_waits (h : Run calls m) (rounds : List Round) :
    ∃ ret m', (threadFetch rounds).result m = some (ret, m') ∧
      (ret = none ↔ ∀ r ∈ rounds, NothingDue r m) ∧ (ret = none → m' = m) ∧
      (ret = some none → ∃ r ∈ rounds, r.Fails) :=
  h.scheduled.1.polls_threadFetch rounds

/-- A round in which no descriptor is ready. -/
def quietRound (timerNow : Timeval) : Round := ⟨timerNow, timerNow, fun _ _ _ => .timeout⟩

/-- With a thread that waits for a descriptor, and a timer that is due at 12 seconds,
    `threadFetch` goes on waiting as long as the clock is before that, and no descriptor is
    ready. -/
theorem run_waits_addTimer : ∃ m : Master Unit ℕ,
    m.queue .read = [(0, ⟨(), 7, .fd 3⟩)] ∧ m.queue .timer = [(1, ⟨(), 8, .sands ⟨12, 0⟩⟩)] ∧
    (threadFetch [quietRound ⟨10, 0⟩, quietRound ⟨11, 0⟩]).result m = some (none, m) := by
  have hread : Run (F := Unit) [⟨threadMasterCreate, .addRead () 7 3, .added (some 0)⟩] _ :=
    .call .create (show 3 < fdSetsize by decide) rfl
  have hadd := hread.call (show Op.Valid _ (.addTimer () 8 2 ⟨10, 0⟩) from trivial) rfl
  obtain ⟨ret, m', hr, hnone, hsame, -⟩ :=
    run_waits hadd [quietRound ⟨10, 0⟩, quietRound ⟨11, 0⟩]
  have hret : ret = none := by
    refine hnone.2 (List.forall_mem_cons.2 ⟨⟨rfl, ?_, rfl, fun _ _ => trivial⟩,
      List.forall_mem_singleton.2 ⟨rfl, ?_, rfl, fun _ _ => trivial⟩⟩)
    all_goals
      -- The timer is not due yet.
      intro e he
      change e ∈ [(1, (⟨(), 8, .sands ⟨12, 0⟩⟩ : Task Unit ℕ))] at he
      obtain rfl := List.mem_singleton.1 he
      rintro ⟨_, ⟨⟩, hle⟩
      exact absurd hle (by decide)
  subst hret
  obtain rfl := hsame rfl
  exact ⟨_, rfl, rfl, hr⟩

/-- The first of the calls that drain the scheduler runs a thread. -/
theorem Run.exists_drained (h : Run calls m) (hwaiting : waiting m.queue ≠ 0)
    (herror : ∀ r ∈ rounds, ¬r.Fails) (hlate : ∃ r ∈ rounds, Late r m) :
    ∃ thread m', Run (calls ++ [⟨m, .fetch rounds, .fetched (some (some thread))⟩]) m' ∧
      tasks [thread] + waiting m'.queue = waiting m.queue ∧
      m'.queue .timer ⊆ m.queue .timer := by
  obtain ⟨hs, -⟩ := h.scheduled
  obtain ⟨ret, m', hr, hnone, -, hfails⟩ := hs.polls_threadFetch rounds
  -- The rounds do not end without a thread, since one of them is late, and none fails.
  have hthread : ∃ thread, ret = some (some thread) := by
    rcases ret with _ | _ | thread
    · obtain ⟨r, hr, hlate⟩ := hlate
      exact absurd (hlate.waiting_eq_zero hs (hnone.1 rfl r hr)) hwaiting
    · obtain ⟨r, hr, hfails⟩ := hfails rfl
      exact absurd hfails (herror r hr)
    · exact ⟨thread, rfl⟩
  obtain ⟨thread, rfl⟩ := hthread
  obtain ⟨q', hs', hsteps⟩ := (hs.threadFetch rounds).ensures _ _ hr
  rw [← hs'.rep.queue_eq] at hsteps
  have hperform : (Op.fetch rounds : Op F A).perform.result m =
      some (.fetched (some (some thread)), m') := by
    rw [Op.perform, result_bind_of_some hr]
    rfl
  refine ⟨thread, m', h.call trivial hperform, ?_, hsteps.timer_subset rfl⟩
  have htasks := hsteps.tasks
  simpa [fetched, tasks, List.filterMap_cons, Act.fetched, Act.cancelled, Act.accepted] using htasks

/-- From every state that is reached, as many calls as there are threads, each of which comes to
    a late round, and to no error, run all of them, and leave none. -/
theorem run_drains (h : Run calls m) {fetches : List (List Round)}
    (hlength : fetches.length = (waiting m.queue).card)
    (herror : ∀ rounds ∈ fetches, ∀ r ∈ rounds, ¬r.Fails)
    (hlate : ∀ rounds ∈ fetches, ∃ r ∈ rounds, Late r m) :
    ∃ calls' m', calls'.map Call.op = fetches.map Op.fetch ∧ Run (calls ++ calls') m' ∧
      tasks ((calls'.flatMap Call.acts).filterMap Act.fetched) = waiting m.queue ∧
      waiting m'.queue = 0 := by
  induction fetches generalizing calls m with
  | nil =>
    have hzero : waiting m.queue = 0 := Multiset.card_eq_zero.1 hlength.symm
    refine ⟨[], m, rfl, ?_, ?_, hzero⟩
    · rwa [List.append_nil]
    · rw [hzero]
      rfl
  | cons rounds fetches ih =>
    rw [List.forall_mem_cons] at herror hlate
    have hne : waiting m.queue ≠ 0 := by
      intro hzero
      rw [hzero] at hlength
      exact absurd hlength (Nat.succ_ne_zero _)
    obtain ⟨thread, m₁, hrun, htasks, htimer⟩ := h.exists_drained hne herror.1 hlate.1
    have hcard : fetches.length = (waiting m₁.queue).card := by
      have hcards := congrArg Multiset.card htasks
      rw [Multiset.card_add, ← hlength, List.length_cons] at hcards
      simp only [tasks, List.map_cons, List.map_nil, Multiset.coe_card, List.length_cons,
        List.length_nil] at hcards
      omega
    -- What is left are timers from before, so that the rounds are still late.
    have hlate₁ : ∀ rounds ∈ fetches, ∃ r ∈ rounds, Late r m₁ := by
      intro rounds hrounds
      obtain ⟨r, hr, hlate⟩ := hlate.2 rounds hrounds
      exact ⟨r, hr, fun e he => hlate.timer e (htimer he), hlate.select⟩
    obtain ⟨calls', m', hops, hrun', hfetched, hzero⟩ := ih hrun hcard herror.2 hlate₁
    refine ⟨⟨m, .fetch rounds, .fetched (some (some thread))⟩ :: calls', m', ?_, ?_, ?_, hzero⟩
    · rw [List.map_cons, List.map_cons, hops]
    · rw [List.append_cons]
      exact hrun'
    · rw [List.flatMap_cons, List.filterMap_append, tasks_append, hfetched]
      exact htasks

/-- A thread that waits for a descriptor, and a timer, are run. -/
theorem run_drains_addTimer : ∃ (m m' : Master Unit ℕ) (calls calls' : List (Call Unit ℕ)),
    (waiting m.queue).card = 2 ∧ Run (calls ++ calls') m' ∧
      tasks ((calls'.flatMap Call.acts).filterMap Act.fetched) = waiting m.queue ∧
      waiting m'.queue = 0 := by
  have hread : Run (F := Unit) [⟨threadMasterCreate, .addRead () 7 3, .added (some 0)⟩] _ :=
    .call .create (show 3 < fdSetsize by decide) rfl
  have hadd := hread.call (show Op.Valid _ (.addTimer () 8 2 ⟨10, 0⟩) from trivial) rfl
  have hlength : [[readyRound ⟨12, 0⟩], [readyRound ⟨12, 0⟩]].length = 2 := rfl
  have hrounds {rounds : List Round} (h : rounds ∈ [[readyRound ⟨12, 0⟩], [readyRound ⟨12, 0⟩]]) :
      rounds = [readyRound ⟨12, 0⟩] := by
    simpa using h
  have herror : ¬(readyRound ⟨12, 0⟩).Fails := by
    rintro ⟨_, _, _, _, ⟨⟩⟩
  obtain ⟨calls', m', -, hrun, hfetched, hzero⟩ := run_drains hadd hlength
    (fun rounds h r hr => by
      rw [hrounds h, List.mem_singleton] at hr
      exact hr ▸ herror)
    (fun rounds h => by
      refine ⟨readyRound ⟨12, 0⟩, by rw [hrounds h]; exact List.mem_singleton_self _, ?_,
        fun _ _ _ => rfl⟩
      intro e he
      change e ∈ [(1, (⟨(), 8, .sands ⟨12, 0⟩⟩ : Task Unit ℕ))] at he
      rw [List.mem_singleton.1 he]
      exact ⟨⟨12, 0⟩, rfl, by decide⟩)
  exact ⟨_, m', _, calls', rfl, hrun, hfetched, hzero⟩

end Mksh
