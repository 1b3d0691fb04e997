import Mksh.Thread.Compare

/-!
# Timers

As long as times fit in 31 bits, `timevalCmp` compares them (`Timeval.Normal.comparable`).
Then the list of timers is in order in every state that is reached, and the first one that is
due, for whatever time it is, expires before all others (`run_timers`).
-/

namespace Mksh

open CString Process Intrusive Queues

variable {F A : Type}

/-! ## Times in range -/

namespace Timeval

/-- The seconds fit in 31 bits, and the microseconds are less than a second. -/
structure Normal (a : Timeval) : Prop where
  sec_nonneg : 0 ≤ a.tvSec
  sec_lt : a.tvSec < 2 ^ 31
  usec_nonneg : 0 ≤ a.tvUsec
  usec_lt : a.tvUsec < timerSecondMicro

variable {a b : Timeval}

theorem Normal.proper (h : a.Normal) : a.Proper := ⟨h.usec_nonneg, h.usec_lt⟩

theorem Normal.comparable (ha : a.Normal) (hb : b.Normal) : a.Comparable b := by
  obtain ⟨ha₁, ha₂, -, -⟩ := ha
  obtain ⟨hb₁, hb₂, -, -⟩ := hb
  exact keepsSign_of_lt (by omega) (by omega)

end Timeval

/-! ## The order of timers -/

namespace Queues

/-- The timers have times in range, and are in order. -/
structure Timers (q : Queues F A) : Prop where
  normal {e : ℕ × Task F A} : e ∈ q .timer → ∃ sands, e.2.u = .sands sands ∧ sands.Normal
  inOrder : (q .timer).Pairwise InOrder

variable {q q' : Queues F A} {acts : List (Act F A)}

/-- The times of the timers that are accepted are in range. -/
def Timely (acts : List (Act F A)) : Prop :=
  ∀ thread ∈ acts.filterMap Act.accepted, ∀ sands, thread.u = .sands sands → sands.Normal

theorem timers_empty : Timers (fun _ => [] : Queues F A) :=
  ⟨fun he => absurd he List.not_mem_nil, .nil⟩

/-- Times in range are compared with times in range. -/
theorem compares_normal : Compares {a | a.Normal} {a | a.Normal} :=
  ⟨subset_rfl, fun _ hb => Timeval.Normal.proper hb, fun _ ha _ hb => ha.comparable hb⟩

theorem Timers.timersIn (h : Timers q) : TimersIn {a | a.Normal} q := ⟨h.normal, h.inOrder⟩

theorem Steps.timers (h : Steps q acts q') (hacts : Timely acts) (hq : Timers q) : Timers q' := by
  have hq' := h.timersIn compares_normal hacts hq.timersIn
  exact ⟨hq'.mem, hq'.inOrder⟩

end Queues

/-! ## Runs -/

/-- The clock readings of a call, and the time of the timer added, are in range. -/
def Op.Timely : Op F A → Prop
  | .addTimer _ _ timer timerNow =>
    timerNow.Normal ∧ Timeval.Normal ⟨timerNow.tvSec + timer, timerNow.tvUsec⟩
  | .fetch rounds => ∀ r ∈ rounds, r.timerNow.Normal ∧ r.waitNow.Normal
  | _ => True

variable [DecidableEq A] {m : Master F A} {calls : List (Call F A)}

theorem Call.timely {c : Call F A} (h : c.op.Timely) : Timely c.acts := by
  refine timesIn_acts fun func arg timer timerNow hop => ?_
  rw [hop] at h
  exact h.2

theorem Run.timers (h : Run calls m) (ht : ∀ c ∈ calls, c.op.Timely) : Timers m.queue := by
  refine h.scheduled.2.timers ?_ timers_empty
  intro thread hthread
  obtain ⟨act, hact, heq⟩ := List.mem_filterMap.1 hthread
  obtain ⟨c, hc, hact⟩ := List.mem_flatMap.1 hact
  exact Call.timely (ht c hc) thread (List.mem_filterMap.2 ⟨act, hact, heq⟩)

/-- The timers are in order of their times, and one that is fetched is due by the
    clock of its round, and not after any that is left. -/
theorem run_timers (h : Run calls m) (ht : ∀ c ∈ calls, c.op.Timely) :
    (∀ e ∈ m.queue .timer, ∃ sands, e.2.u = .sands sands) ∧ (m.queue .timer).Pairwise InOrder ∧
    ∀ (rounds : List Round) (thread : Thread F A) (m' : Master F A),
      (Op.fetch rounds : Op F A).Timely →
      (threadFetch rounds).result m = some (some (some thread), m') → thread.type = .timer →
      ∃ sands pre r post m₁, thread.u = .sands sands ∧ rounds = pre ++ r :: post ∧
        (threadFetch pre).result m = some (none, m₁) ∧
        (threadFetchRound r).result m₁ = some (some (some thread), m') ∧
        sands.key ≤ r.timerNow.key ∧
        ∀ e ∈ m'.queue .timer, ∀ sands', e.2.u = .sands sands' → sands.key ≤ sands'.key := by
  obtain ⟨hs, -⟩ := h.scheduled
  have htimers := h.timers ht
  refine ⟨fun e he => hs.typed.timer he, htimers.inOrder, ?_⟩
  intro rounds thread m' hrounds hr htype
  refine threadFetch_timer hs htimers.timersIn (fun _ => Timeval.Normal.proper) ?_ hr htype
  intro r hr
  exact ⟨(hrounds r hr).1.proper, fun _ hb => (hrounds r hr).1.comparable hb⟩

/-- Of two timers, the second one expires first. -/
theorem run_timers_addTimer : ∃ m : Master Unit ℕ,
    m.queue .timer = [(1, ⟨(), 8, .sands ⟨12, 0⟩⟩), (0, ⟨(), 7, .sands ⟨15, 0⟩⟩)] ∧
    (m.queue .timer).Pairwise InOrder := by
  have hrun : ∃ m m' : Master Unit ℕ,
      Run ([⟨threadMasterCreate, .addTimer () 7 10 ⟨5, 0⟩, .added (some 0)⟩] ++
        [⟨m, .addTimer () 8 2 ⟨10, 0⟩, .added (some 1)⟩]) m' ∧
      m'.queue .timer = [(1, ⟨(), 8, .sands ⟨12, 0⟩⟩), (0, ⟨(), 7, .sands ⟨15, 0⟩⟩)] :=
    ⟨_, _, .call (.call .create trivial rfl) trivial rfl, rfl⟩
  obtain ⟨m, m', hrun, hm'⟩ := hrun
  refine ⟨m', hm', (run_timers hrun fun c hc => ?_).2.1⟩
  rcases List.mem_append.1 hc with hc | hc
  · obtain rfl := List.mem_singleton.1 hc
    exact ⟨⟨by decide, by decide, by decide, by decide⟩, by decide, by decide, by decide, by decide⟩
  · obtain rfl := List.mem_singleton.1 hc
    exact ⟨⟨by decide, by decide, by decide, by decide⟩, by decide, by decide, by decide, by decide⟩

end Mksh
