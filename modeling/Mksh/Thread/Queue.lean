import Mksh.Thread.Lists

/-!
# The queues of threads

What the scheduler is for, without records and links: threads are put into queues,
and taken out of them when they are cancelled or fetched (`Queues.Step`). Each
function on the master moves the queues that it represents along such steps
(`Scheduled.threadAddFd`, ..., `Scheduled.threadFetchRound`), and none of them
fails.

Beside the queues, the master has the sets of the descriptors that its threads
wait for (`Queues.Typed`).
-/

namespace Mksh

open CString Process Intrusive

variable {F A : Type}

/-! ## Steps -/

/-- What becomes of a thread. -/
inductive Act (F A : Type)
  | accept (thread : Thread F A)
  | cancel (thread : Thread F A)
  | fetch (thread : Thread F A)

namespace Queues

/-- A timer expires before another one, or with it. -/
def Before (sands : Timeval) (e : ℕ × Task F A) : Prop :=
  ∃ tt, e.2.u = .sands tt ∧ timevalCmp sands tt ≤ 0

/-- A timer has expired. -/
def Due (timerNow : Timeval) (e : ℕ × Task F A) : Prop :=
  ∃ sands, e.2.u = .sands sands ∧ timevalCmp timerNow sands ≥ 0

/-- One change of the queues, and what becomes of threads. -/
inductive Step : Queues F A → List (Act F A) → Queues F A → Prop
  | recycle {q} (l : List (ℕ × Task F A)) : Step q [] (Function.update q .unused l)
  | push {q} {t : ThreadType} (a : ℕ) (task : Task F A) (htimer : t ≠ .timer) (hready : t ≠ .ready)
      (hunused : t ≠ .unused) :
      Step q [.accept ⟨task, t⟩] (Function.update q t (q t ++ [(a, task)]))
  | timer {q} {l₁ l₂ : List (ℕ × Task F A)} {sands : Timeval} (a : ℕ) (func : F) (arg : A)
      (hq : q .timer = l₁ ++ l₂) (hbefore : ∀ e ∈ l₁, ¬ Before sands e)
      (hafter : ∀ e ∈ l₂.head?, Before sands e) :
      Step q [.accept ⟨⟨func, arg, .sands sands⟩, .timer⟩]
        (Function.update q .timer (l₁ ++ (a, ⟨func, arg, .sands sands⟩) :: l₂))
  | cancel {q} {t : ThreadType} {l₁ l₂ : List (ℕ × Task F A)} {e : ℕ × Task F A}
      (hunused : t ≠ .unused) (hq : q t = l₁ ++ e :: l₂) :
      Step q [.cancel ⟨e.2, t⟩] (Function.update q t (l₁ ++ l₂))
  | fetch {q} {t : ThreadType} {l₁ l₂ : List (ℕ × Task F A)} {e : ℕ × Task F A}
      (hunused : t ≠ .unused) (hevent : t = .event → l₁ = []) (hq : q t = l₁ ++ e :: l₂) :
      Step q [.fetch ⟨e.2, t⟩] (Function.update q t (l₁ ++ l₂))
  | ready {q} {l₁ l₂ : List (ℕ × Task F A)} {e : ℕ × Task F A} (kind : FdKind)
      (hq : q kind.type = l₁ ++ e :: l₂) :
      Step q [] (Function.update (Function.update q kind.type (l₁ ++ l₂)) .ready (q .ready ++ [e]))

/-- Changes one after the other. -/
inductive Steps : Queues F A → List (Act F A) → Queues F A → Prop
  | refl {q} : Steps q [] q
  | cons {q q' q'' acts acts'} : Step q acts q' → Steps q' acts' q'' → Steps q (acts ++ acts') q''

theorem Steps.trans {q q' q'' : Queues F A} {acts acts' : List (Act F A)} (h : Steps q acts q')
    (h' : Steps q' acts' q'') : Steps q (acts ++ acts') q'' := by
  induction h with
  | refl => exact h'
  | cons hs _ ih =>
    rw [List.append_assoc]
    exact .cons hs (ih h')

theorem Step.steps {q q' : Queues F A} {acts : List (Act F A)} (h : Step q acts q') :
    Steps q acts q' := by
  have hs := Steps.cons h .refl
  rwa [List.append_nil] at hs

/-- Fetching the first thread of a list. -/
theorem Step.top {q : Queues F A} {t : ThreadType} {e : ℕ × Task F A} {l : List (ℕ × Task F A)}
    (hunused : t ≠ .unused) (hq : q t = e :: l) :
    Step q [.fetch ⟨e.2, t⟩] (Function.update q t l) :=
  .fetch hunused (fun _ => rfl) (hq.trans (List.nil_append _).symm)

/-! ## Descriptors -/

/-- The threads wait for the descriptors in the set, each for another one. -/
def Waits (fds : Finset ℕ) (l : List (ℕ × Task F A)) : Prop :=
  ∃ fdl : List ℕ, l.map (fun e => e.2.u) = fdl.map .fd ∧ fdl.Nodup ∧ ∀ fd, fd ∈ fds ↔ fd ∈ fdl

section Waits

variable {fds : Finset ℕ} {l l₁ l₂ : List (ℕ × Task F A)} {e : ℕ × Task F A} {fd : ℕ}

theorem Waits.insert (h : Waits fds l) (hfd : fd ∉ fds) (he : e.2.u = .fd fd) :
    Waits (insert fd fds) (l ++ [e]) := by
  obtain ⟨fdl, hl, hnodup, hmem⟩ := h
  refine ⟨fdl ++ [fd], ?_, ?_, fun fd' => ?_⟩
  · rw [List.map_append, List.map_append, hl, List.map_singleton, List.map_singleton, he]
  · refine List.nodup_append.2 ⟨hnodup, List.nodup_singleton fd, fun x hx y hy => ?_⟩
    rw [List.mem_singleton.1 hy]
    exact fun hx' => hfd ((hmem fd).2 (hx' ▸ hx))
  · rw [Finset.mem_insert, hmem, List.mem_append, List.mem_singleton, or_comm]

theorem Waits.erase (h : Waits fds (l₁ ++ e :: l₂)) :
    ∃ fd ∈ fds, e.2.u = .fd fd ∧ Waits (fds.erase fd) (l₁ ++ l₂) := by
  obtain ⟨fdl, hl, hnodup, hmem⟩ := h
  rw [List.map_append, List.map_cons] at hl
  obtain ⟨fdl₁, fdl', rfl, hl₁, hl'⟩ := List.map_eq_append_iff.1 hl.symm
  obtain ⟨fd, fdl₂, rfl, hfd, hl₂⟩ := List.map_eq_cons_iff.1 hl'
  obtain ⟨hnot, hnodup⟩ := List.nodup_cons.1 (List.nodup_middle.1 hnodup)
  refine ⟨fd, (hmem fd).2 (by simp), hfd.symm, fdl₁ ++ fdl₂, ?_, hnodup, fun fd' => ?_⟩
  · rw [List.map_append, List.map_append, hl₁, hl₂]
  · rw [Finset.mem_erase, hmem]
    simp only [List.mem_append, List.mem_cons] at hnot ⊢
    constructor
    · tauto
    · rintro h
      exact ⟨fun heq => hnot (heq ▸ h), by tauto⟩

end Waits

/-- The sets of descriptors are those that the threads wait for, and timers have
    a time. -/
structure Typed (fdset : FdKind → Finset ℕ) (q : Queues F A) : Prop where
  waits (kind : FdKind) : Waits (fdset kind) (q kind.type)
  timer {e : ℕ × Task F A} : e ∈ q .timer → ∃ sands, e.2.u = .sands sands

section Typed

variable {fdset : FdKind → Finset ℕ} {q : Queues F A} {t : ThreadType} {l : List (ℕ × Task F A)}

theorem typed_empty : Typed (fun _ => ∅) (fun _ => [] : Queues F A) where
  waits _ := ⟨[], rfl, .nil, fun _ => iff_of_false (Finset.notMem_empty _) List.not_mem_nil⟩
  timer he := absurd he List.not_mem_nil

theorem Typed.update_of_ne (h : Typed fdset q) (hkind : ∀ kind : FdKind, kind.type ≠ t)
    (htimer : .timer ≠ t) (l : List (ℕ × Task F A)) : Typed fdset (Function.update q t l) where
  waits kind := by
    rw [Function.update_of_ne (hkind kind)]
    exact h.waits kind
  timer he := by
    rw [Function.update_of_ne htimer] at he
    exact h.timer he

theorem type_ne_timer (kind : FdKind) : kind.type ≠ .timer := by cases kind <;> decide

theorem type_ne_event (kind : FdKind) : kind.type ≠ .event := by cases kind <;> decide

theorem type_ne_ready (kind : FdKind) : kind.type ≠ .ready := by cases kind <;> decide

theorem type_ne_unused (kind : FdKind) : kind.type ≠ .unused := by cases kind <;> decide

theorem type_injective : Function.Injective FdKind.type := by
  intro kind kind'
  cases kind <;> cases kind' <;> decide

theorem Typed.update_timer (h : Typed fdset q) (hl : ∀ e ∈ l, ∃ sands, e.2.u = .sands sands) :
    Typed fdset (Function.update q .timer l) where
  waits kind := by
    rw [Function.update_of_ne (type_ne_timer kind)]
    exact h.waits kind
  timer he := by
    rw [Function.update_self] at he
    exact hl _ he

theorem Typed.update_kind (h : Typed fdset q) (kind : FdKind) {fds : Finset ℕ}
    (hw : Waits fds l) :
    Typed (Function.update fdset kind fds) (Function.update q kind.type l) where
  waits kind' := by
    rcases eq_or_ne kind' kind with rfl | hne
    · rw [Function.update_self, Function.update_self]
      exact hw
    · rw [Function.update_of_ne hne, Function.update_of_ne (type_injective.ne hne)]
      exact h.waits kind'
  timer he := by
    rw [Function.update_of_ne (type_ne_timer kind).symm] at he
    exact h.timer he

end Typed

end Queues

open Queues

/-! ## The functions of the scheduler -/

/-- The master represents the queues, and its sets of descriptors are right. -/
structure Scheduled (m : Master F A) (q : Queues F A) : Prop where
  rep : Rep m q none
  typed : Typed m.fdset q

theorem scheduled_create : Scheduled (threadMasterCreate : Master F A) fun _ => [] :=
  ⟨rep_create, typed_empty⟩

variable {m m' : Master F A} {q : Queues F A} {a : ℕ} {t : ThreadType} {task : Task F A}
  {e : ℕ × Task F A} {l l₁ l₂ : List (ℕ × Task F A)} {func : F} {arg : A} {kind : FdKind} {fd : ℕ}

namespace Scheduled

theorem typed_unused (h : Typed m.fdset q) (l : List (ℕ × Task F A)) :
    Typed m.fdset (Function.update q .unused l) :=
  h.update_of_ne type_ne_unused (by decide) l

/-! ### Adding -/

theorem threadAddFd (h : Scheduled m q) (kind : FdKind) (func : F) (arg : A) (fd : ℕ) :
    Achieves (threadAddFd kind func arg fd) (fun ret m' => ∃ q', Scheduled m' q' ∧
      Steps q (ret.toList.map fun _ => .accept ⟨⟨func, arg, .fd fd⟩, kind.type⟩) q') m := by
  rw [Mksh.threadAddFd, achieves_bind, achieves_get, achieves_ite]
  split_ifs with hfd
  · simp only [achieves_bind, achieves_emit, achieves_pure]
    exact ⟨q, h, .refl⟩
  · rw [achieves_bind]
    refine h.rep.achieves_threadGet fun a m' l u hrep ha hfdset => ?_
    have hrep' := (hrep.setFdset kind (insert fd (m.fdset kind))).setThread hrep.out_lt
      ⟨⟨func, arg, .fd fd⟩, kind.type⟩
    have htyped := typed_unused h.typed l
    simp only [achieves_bind, achieves_modify, achieves_threadListAdd, achieves_pure,
      achieves_setU (m := m'.setFdset _ _) ha]
    refine ⟨_, ⟨hrep'.add Master.setThread_thread_self, ?_⟩, (Step.recycle l).steps.trans
      (Step.push a _ (type_ne_timer kind) (type_ne_ready kind) (type_ne_unused kind)).steps⟩
    simp only [Master.onList_fdset, Master.setThread_fdset, Master.setFdset_fdset, hfdset]
    exact htyped.update_kind kind ((htyped.waits kind).insert hfd rfl)

theorem threadAddEvent (h : Scheduled m q) (func : F) (arg : A) (val : ℤ) :
    Achieves (threadAddEvent func arg val) (fun _ m' => ∃ q', Scheduled m' q' ∧
      Steps q [.accept ⟨⟨func, arg, .val val⟩, .event⟩] q') m := by
  rw [Mksh.threadAddEvent, achieves_bind]
  refine h.rep.achieves_threadGet fun a m' l u hrep ha hfdset => ?_
  have hrep' := hrep.setThread hrep.out_lt ⟨⟨func, arg, .val val⟩, .event⟩
  simp only [achieves_bind, achieves_threadListAdd, achieves_pure, achieves_setU ha]
  refine ⟨_, ⟨hrep'.add Master.setThread_thread_self, ?_⟩, (Step.recycle l).steps.trans
    (Step.push a _ (by decide) (by decide) (by decide)).steps⟩
  simp only [Master.onList_fdset, Master.setThread_fdset, hfdset]
  exact (typed_unused h.typed l).update_of_ne type_ne_event (by decide) _

end Scheduled

/-- A loop over the timers stops at the first one at which it breaks. -/
theorem timerLoop_eq (breaks : Timeval → Bool) {prev : Option ℕ} {n : ℕ}
    (hc : Chain m.links prev (l.map Prod.fst) none)
    (hl : ∀ e ∈ l, m.thread e.1 = some ⟨e.2, .timer⟩ ∧ ∃ sands, e.2.u = .sands sands)
    (hn : l.length ≤ n) :
    ∃ l₁ l₂, l = l₁ ++ l₂ ∧ (∀ e ∈ l₁, ¬ ∃ tt, e.2.u = .sands tt ∧ breaks tt) ∧
      (∀ e ∈ l₂.head?, ∃ tt, e.2.u = .sands tt ∧ breaks tt) ∧
      timerLoop m breaks n (l.map Prod.fst).head? = some (l₂.head?.map Prod.fst) := by
  induction l generalizing prev n with
  | nil =>
    refine ⟨[], [], rfl, by simp, by simp, ?_⟩
    rw [List.map_nil, List.head?_nil, timerLoop]
    rfl
  | cons e l ih =>
    rcases n with _ | n
    · exact absurd hn (Nat.not_succ_le_zero _)
    obtain ⟨⟨hthread, sands, hu⟩, hl⟩ := List.forall_mem_cons.1 hl
    have hsands : sandsAt m e.1 = some sands := by
      rcases e with ⟨a, func, arg, u⟩
      cases hu
      simp only [sandsAt, hthread]
    rw [List.map_cons, List.head?_cons, timerLoop, hsands]
    by_cases hbreaks : breaks sands
    · refine ⟨[], e :: l, rfl, by simp, ?_, by simp [hbreaks]⟩
      rintro _ ⟨⟩
      exact ⟨sands, hu, hbreaks⟩
    · obtain ⟨l₁, l₂, rfl, h₁, h₂, hloop⟩ := ih hc.2 hl (Nat.le_of_succ_le_succ hn)
      refine ⟨e :: l₁, l₂, rfl, List.forall_mem_cons.2 ⟨?_, h₁⟩, h₂, ?_⟩
      · rintro ⟨tt, htt, hb⟩
        cases hu.symm.trans htt
        exact hbreaks hb
      · have hnext : (m.links e.1).next = ((l₁ ++ l₂).map Prod.fst).head? := by
          rw [hc.1, Option.or_none]
        simp only [hbreaks, Bool.false_eq_true, if_false, hnext, hloop]

theorem Rep.achieves_findTimer {out : Option ℕ} {breaks : Timeval → Bool}
    {Q : Option ℕ → Master F A → Prop} (h : Rep m q out)
    (ht : ∀ e ∈ q .timer, ∃ sands, e.2.u = .sands sands)
    (hQ : ∀ l₁ l₂, q .timer = l₁ ++ l₂ → (∀ e ∈ l₁, ¬ ∃ tt, e.2.u = .sands tt ∧ breaks tt) →
      (∀ e ∈ l₂.head?, ∃ tt, e.2.u = .sands tt ∧ breaks tt) → Q (l₂.head?.map Prod.fst) m) :
    Achieves (findTimer breaks) Q m := by
  obtain ⟨l₁, l₂, hq, h₁, h₂, hloop⟩ := timerLoop_eq breaks (h.isList .timer).chain
    (fun e he => ⟨h.thread he, ht e he⟩) (h.length_le .timer)
  rw [findTimer, achieves_bind, achieves_get, (h.isList .timer).head, Queues.addresses, hloop]
  exact achieves_pure.2 (hQ l₁ l₂ hq h₁ h₂)

namespace Scheduled

theorem threadAddTimer (h : Scheduled m q) (func : F) (arg : A) (timer : ℤ) (timerNow : Timeval) :
    Achieves (threadAddTimer func arg timer timerNow) (fun _ m' => ∃ q', Scheduled m' q' ∧
      Steps q [.accept ⟨⟨func, arg, .sands ⟨timerNow.tvSec + timer, timerNow.tvUsec⟩⟩, .timer⟩]
        q') m := by
  rw [Mksh.threadAddTimer, achieves_bind]
  refine h.rep.achieves_threadGet fun a m' l u hrep ha hfdset => ?_
  set sands : Timeval := ⟨timerNow.tvSec + timer, timerNow.tvUsec⟩
  have hrep' := hrep.setThread hrep.out_lt ⟨⟨func, arg, .sands sands⟩, .timer⟩
  have htyped := typed_unused h.typed l
  rw [achieves_bind, achieves_setU ha, achieves_bind]
  refine hrep'.achieves_findTimer (fun e he => htyped.timer he) fun l₁ l₂ hq h₁ h₂ => ?_
  simp only [decide_eq_true_eq] at h₁ h₂
  have hstep := (Step.recycle l).steps.trans (Step.timer a func arg hq h₁ h₂).steps
  have htyped' : Typed m.fdset (Function.update (Function.update q .unused l) .timer
      (l₁ ++ (a, ⟨func, arg, .sands sands⟩) :: l₂)) := by
    refine htyped.update_timer fun e he => ?_
    have hmem : e = (a, ⟨func, arg, .sands sands⟩) ∨ e ∈ Function.update q .unused l .timer := by
      rw [hq]
      simp only [List.mem_append, List.mem_cons] at he ⊢
      tauto
    rcases hmem with rfl | hmem
    · exact ⟨sands, rfl⟩
    · exact htyped.timer hmem
  rw [← hfdset] at htyped'
  -- No timer is later, or the new one is put before the first that is.
  rcases l₂ with _ | ⟨e, l₂⟩
  · simp only [List.head?_nil, Option.map_none, achieves_bind, achieves_threadListAdd,
      achieves_pure]
    have hadd := hrep'.add Master.setThread_thread_self
    rw [List.append_nil] at hq
    rw [hq] at hadd
    exact ⟨_, ⟨hadd, htyped'⟩, hstep⟩
  · simp only [List.head?_cons, Option.map_some, achieves_bind, achieves_threadListAddBefore,
      achieves_pure]
    exact ⟨_, ⟨hrep'.addBefore Master.setThread_thread_self hq, htyped'⟩, hstep⟩

/-! ### Cancelling -/

/-- The descriptor of a thread that waits for one. -/
theorem achieves_fdAt {Q : ℕ → Master F A → Prop} {thread : Thread F A}
    (ha : m.thread a = some thread) (hu : thread.u = .fd fd) :
    Achieves (fdAt a) Q m ↔ Q fd m := by
  rw [fdAt, achieves_bind, achieves_threadAt ha, hu, achieves_pure]

theorem achieves_fdClr {Q : Unit → Master F A → Prop} (hfd : fd ∈ m.fdset kind) :
    Achieves (fdClr kind fd) Q m ↔ Q () (m.setFdset kind ((m.fdset kind).erase fd)) := by
  simp only [fdClr, achieves_bind, achieves_get, achieves_ite, if_pos hfd, achieves_modify]

theorem achieves_cancelFd {Q : Unit → Master F A → Prop} (kind : FdKind) (h : Scheduled m q)
    (hq : q kind.type = l₁ ++ e :: l₂)
    (hQ : ∀ m', Rep m' (Function.update q kind.type (l₁ ++ l₂)) (some e.1) →
      m'.thread = m.thread → Typed m'.fdset (Function.update q kind.type (l₁ ++ l₂)) → Q () m') :
    Achieves (do
      fdClr kind (← fdAt e.1)
      threadListDelete kind.type e.1) Q m := by
  have hthread := h.rep.thread (e := e) (t := kind.type) (by simp [hq])
  have hwaits := h.typed.waits kind
  rw [hq] at hwaits
  obtain ⟨fd, hfd, hu, hwaits⟩ := hwaits.erase
  rw [achieves_bind, achieves_fdAt hthread hu, achieves_bind, achieves_fdClr hfd,
    achieves_threadListDelete]
  exact hQ _ ((h.rep.setFdset _ _).delete hq) rfl (h.typed.update_kind kind hwaits)

/-- The record of a thread in a list comes out of it. -/
theorem achieves_threadCancelType {Q : Unit → Master F A → Prop} (h : Scheduled m q)
    (ht : t ≠ .unused) (hq : q t = l₁ ++ e :: l₂)
    (hQ : ∀ m', Rep m' (Function.update q t (l₁ ++ l₂)) (some e.1) → m'.thread = m.thread →
      Typed m'.fdset (Function.update q t (l₁ ++ l₂)) → Q () m') :
    Achieves (threadCancelType e.1 t) Q m := by
  have hsub : ∀ b ∈ l₁ ++ l₂, b ∈ q t := by
    intro b hb
    rw [hq]
    simp only [List.mem_append, List.mem_cons] at hb ⊢
    tauto
  have hQ' := hQ _ (h.rep.delete hq) rfl
  cases t with
  | read => exact achieves_cancelFd .read h hq hQ
  | write => exact achieves_cancelFd .write h hq hQ
  | timer =>
    exact achieves_threadListDelete.2 (hQ' (h.typed.update_timer fun b hb =>
      h.typed.timer (hsub b hb)))
  | event =>
    exact achieves_threadListDelete.2 (hQ' (h.typed.update_of_ne type_ne_event (by decide) _))
  | ready =>
    exact achieves_threadListDelete.2 (hQ' (h.typed.update_of_ne type_ne_ready (by decide) _))
  | unused => exact absurd rfl ht

theorem threadCancel (h : Scheduled m q) (ht : t ≠ .unused) (hq : q t = l₁ ++ e :: l₂) :
    Achieves (threadCancel e.1) (fun _ m' => ∃ q', Scheduled m' q' ∧
      Steps q [.cancel ⟨e.2, t⟩] q') m := by
  have hthread := h.rep.thread (e := e) (t := t) (by simp [hq])
  rw [Mksh.threadCancel, achieves_bind, achieves_threadAt hthread, achieves_bind]
  refine h.achieves_threadCancelType ht hq fun m' hrep heq htyped => ?_
  rw [achieves_bind]
  refine hrep.achieves_retire (heq ▸ hthread) fun m'' hrep' hfdset => ?_
  exact ⟨_, ⟨hrep', hfdset ▸ typed_unused htyped _⟩,
    (Step.cancel ht hq).steps.trans (Step.recycle _).steps⟩

/-- The thread after another one in its list. -/
theorem next_eq (h : Scheduled m q) (hq : q t = l₁ ++ e :: l₂) :
    (m.links e.1).next = (l₂.map Prod.fst).head? := by
  have hlist := h.rep.isList t
  rw [Queues.addresses, hq, List.map_append, List.map_cons] at hlist
  rw [hlist.links]

theorem head_eq (h : Scheduled m q) (t : ThreadType) :
    (m.list t).head = ((q t).map Prod.fst).head? := (h.rep.isList t).head

/-- From one event on, those with the argument are cancelled. -/
theorem cancelEventLoop [DecidableEq A] {n : ℕ} (h : Scheduled m q) (hq : q .event = l₁ ++ l₂)
    (hn : l₂.length ≤ n) :
    Achieves (cancelEventLoop arg n (l₂.map Prod.fst).head?) (fun _ m' => ∃ q', Scheduled m' q' ∧
      Steps q ((l₂.filter fun e => e.2.arg = arg).map fun e => .cancel ⟨e.2, .event⟩) q') m := by
  induction l₂ generalizing m q l₁ n with
  | nil =>
    simp only [List.map_nil, List.head?_nil, Mksh.cancelEventLoop, achieves_pure]
    exact ⟨q, h, .refl⟩
  | cons e l₂ ih =>
    rcases n with _ | n
    · exact absurd hn (Nat.not_succ_le_zero _)
    have hn := Nat.le_of_succ_le_succ hn
    have hthread := h.rep.thread (e := e) (t := .event) (by simp [hq])
    simp only [List.map_cons, List.head?_cons, Mksh.cancelEventLoop, achieves_bind, achieves_get,
      achieves_threadAt hthread, h.next_eq hq, achieves_ite]
    -- The thread is retired, and the loop goes on in what is left. Else, it is left where it is.
    split_ifs with harg
    · rw [achieves_threadListDelete]
      refine (h.rep.delete hq).achieves_retire hthread fun m' hrep hfdset => ?_
      have htyped : Typed m.fdset (Function.update q .event (l₁ ++ l₂)) :=
        h.typed.update_of_ne type_ne_event (by decide) _
      have h' : Scheduled m' _ := ⟨hrep, hfdset ▸ typed_unused htyped _⟩
      refine (ih h' (show _ = l₁ ++ l₂ from ?_) hn).mono ?_
      · rw [Function.update_of_ne (by decide), Function.update_self]
      · rintro _ m'' ⟨q', h'', hsteps⟩
        rw [List.filter_cons_of_pos (by simpa using harg), List.map_cons]
        exact ⟨q', h'', (Step.cancel (by decide) hq).steps.trans ((Step.recycle _).steps.trans
          hsteps)⟩
    · rw [List.filter_cons_of_neg (by simpa using harg)]
      exact ih h (hq.trans (List.append_cons l₁ e l₂)) hn

theorem threadCancelEvent [DecidableEq A] (h : Scheduled m q) (arg : A) :
    Achieves (threadCancelEvent arg) (fun _ m' => ∃ q', Scheduled m' q' ∧
      Steps q (((q .event).filter fun e => e.2.arg = arg).map fun e => .cancel ⟨e.2, .event⟩)
        q') m := by
  rw [Mksh.threadCancelEvent, achieves_bind, achieves_get, h.head_eq]
  exact h.cancelEventLoop (List.nil_append _).symm (h.rep.length_le .event)

/-! ### Fetching -/

/-- From one thread on, those whose descriptor is ready go to the other list. -/
theorem processFdLoop {fds : Finset ℕ} {ready n : ℕ} (h : Scheduled m q)
    (hq : q kind.type = l₁ ++ l₂) (hn : l₂.length ≤ n) :
    Achieves (processFdLoop kind fds ready n (l₂.map Prod.fst).head?) (fun _ m' =>
      ∃ q', Scheduled m' q' ∧ Steps q [] q' ∧ ∀ t ≠ kind.type, t ≠ .ready → q' t = q t) m := by
  induction l₂ generalizing m q l₁ n ready with
  | nil =>
    simp only [List.map_nil, List.head?_nil, Mksh.processFdLoop, achieves_pure]
    exact ⟨q, h, .refl, fun _ _ _ => rfl⟩
  | cons e l₂ ih =>
    rcases n with _ | n
    · exact absurd hn (Nat.not_succ_le_zero _)
    have hn := Nat.le_of_succ_le_succ hn
    have hthread := h.rep.thread (e := e) (t := kind.type) (by simp [hq])
    have hwaits := h.typed.waits kind
    rw [hq] at hwaits
    obtain ⟨fd, hfd, hu, hwaits⟩ := hwaits.erase
    simp only [List.map_cons, List.head?_cons, Mksh.processFdLoop, achieves_bind, achieves_get,
      achieves_fdAt hthread hu, h.next_eq hq, achieves_ite]
    -- The thread is moved to the ready list, and its descriptor is no longer waited for.
    split_ifs with hmem
    · rw [achieves_fdClr hfd, achieves_threadListDelete, achieves_threadListAdd,
        achieves_setType (m := Master.onList _ _ (Master.onList _ _ (m.setFdset _ _))) hthread]
      have hrep := ((h.rep.setFdset kind ((m.fdset kind).erase fd)).delete hq)
      have hrep' := (hrep.setThread hrep.out_lt ⟨e.2, .ready⟩).add Master.setThread_thread_self
      rw [Function.update_of_ne (type_ne_ready kind).symm] at hrep'
      have htyped := (h.typed.update_kind kind hwaits).update_of_ne type_ne_ready (by decide)
        (q .ready ++ [e])
      refine (ih ⟨hrep', htyped⟩ (show _ = l₁ ++ l₂ from ?_) hn).mono ?_
      · rw [Function.update_of_ne (type_ne_ready kind), Function.update_self]
      · rintro _ m' ⟨q', h', hsteps, hframe⟩
        refine ⟨q', h', (Step.ready kind hq).steps.trans hsteps, fun t ht htr => ?_⟩
        rw [hframe t ht htr, Function.update_of_ne htr, Function.update_of_ne ht]
    · exact ih h (hq.trans (List.append_cons l₁ e l₂)) hn

theorem threadProcessFd (h : Scheduled m q) (kind : FdKind) (fds : Finset ℕ) :
    Achieves (threadProcessFd kind fds) (fun _ m' => ∃ q', Scheduled m' q' ∧ Steps q [] q' ∧
      ∀ t ≠ kind.type, t ≠ .ready → q' t = q t) m := by
  rw [Mksh.threadProcessFd, achieves_bind, achieves_get, h.head_eq]
  exact h.processFdLoop (List.nil_append _).symm (h.rep.length_le kind.type)

section RunOr

variable {α : Type} {otherwise : Sched F A (Option α)} {ret : Thread F A → α}
  {Q : Option α → Master F A → Prop}

/-- Running the first thread of a list. -/
theorem achieves_runOr_head (h : Scheduled m q) (hkind : ∀ kind : FdKind, kind.type ≠ t)
    (htimer : .timer ≠ t) (hnil : q t = [] → Achieves otherwise Q m)
    (hcons : ∀ e l l' m', q t = e :: l →
      Scheduled m' (Function.update (Function.update q t l) .unused l') →
      Q (some (ret ⟨e.2, t⟩)) m') :
    Achieves (runOr (threadTrimHead t) otherwise ret) Q m := by
  rw [runOr, achieves_bind]
  rcases hq : q t with _ | ⟨e, l⟩
  · rw [h.rep.achieves_threadTrimHead_of_nil hq]
    exact hnil hq
  · have hthread := h.rep.thread (e := e) (t := t) (by simp [hq])
    rw [h.rep.achieves_threadTrimHead_of_cons hq]
    simp only [achieves_bind, achieves_pure]
    have hrep := h.rep.delete (show q t = [] ++ e :: l from hq)
    refine hrep.achieves_threadRun hthread fun m' hrep hfdset => ?_
    have htyped : Typed m.fdset (Function.update q t l) := h.typed.update_of_ne hkind htimer l
    exact hcons e l _ m' hq ⟨hrep, hfdset ▸ typed_unused htyped _⟩

/-- Running the first timer that is due. -/
theorem achieves_runOr_timer {timerNow : Timeval} (h : Scheduled m q)
    (hnone : (∀ e ∈ q .timer, ¬ Due timerNow e) → Achieves otherwise Q m)
    (hsome : ∀ e l₁ l₂ l' m', q .timer = l₁ ++ e :: l₂ → (∀ e ∈ l₁, ¬ Due timerNow e) →
      Due timerNow e →
      Scheduled m' (Function.update (Function.update q .timer (l₁ ++ l₂)) .unused l') →
      Q (some (ret ⟨e.2, .timer⟩)) m') :
    Achieves (runOr (threadTrimTimer timerNow) otherwise ret) Q m := by
  rw [runOr, threadTrimTimer, achieves_bind, achieves_bind]
  refine h.rep.achieves_findTimer (fun e he => h.typed.timer he) fun l₁ l₂ hq h₁ h₂ => ?_
  simp only [decide_eq_true_eq] at h₁ h₂
  -- The first timer that is due, if there is one.
  rcases l₂ with _ | ⟨e, l₂⟩
  · rw [List.append_nil] at hq
    simp only [List.head?_nil, Option.map_none, achieves_pure]
    exact hnone (hq ▸ h₁)
  · have hthread := h.rep.thread (e := e) (t := .timer) (by simp [hq])
    simp only [List.head?_cons, Option.map_some, achieves_bind, achieves_threadListDelete,
      achieves_pure]
    refine (h.rep.delete hq).achieves_threadRun hthread fun m' hrep hfdset => ?_
    have htyped : Typed m.fdset (Function.update q .timer (l₁ ++ l₂)) := by
      refine h.typed.update_timer fun b hb => h.typed.timer ?_
      rw [hq]
      simp only [List.mem_append, List.mem_cons] at hb ⊢
      tauto
    exact hsome e l₁ l₂ _ m' hq h₁ (h₂ e rfl) ⟨hrep, hfdset ▸ typed_unused htyped _⟩

end RunOr

end Scheduled

/-- What becomes of the thread that is returned, if there is one. -/
def fetched : Option (Option (Thread F A)) → List (Act F A)
  | some (some thread) => [.fetch thread]
  | _ => []

/-- The thread is next in its queue, and if it is ready, nothing else is to be run
    first. -/
def Next (timerNow : Timeval) (q q' : Queues F A) (thread : Thread F A) : Prop :=
  match thread.type with
  | .ready => q .event = [] ∧ q' .event = [] ∧ (∀ e ∈ q .timer, ¬ Due timerNow e) ∧
      q' .timer = q .timer
  | .timer => ∃ l₁ e l₂, q .timer = l₁ ++ e :: l₂ ∧ e.2 = thread.toTask ∧
      (∀ e ∈ l₁, ¬ Due timerNow e) ∧ Due timerNow e ∧ q' .timer = l₁ ++ l₂
  | _ => True

/-- What a round of `threadFetch` returns. -/
def Fetches (timerNow : Timeval) (q : Queues F A) (ret : Option (Option (Thread F A)))
    (m' : Master F A) : Prop :=
  ∃ q', Scheduled m' q' ∧ Steps q (fetched ret) q' ∧
    ∀ thread, ret = some (some thread) → Next timerNow q q' thread

namespace Scheduled

variable {r : Round}

theorem fetches_none {q' : Queues F A} (h : Scheduled m q') (hsteps : Steps q [] q') :
    Fetches r.timerNow q none m := by
  refine ⟨q', h, hsteps, fun thread heq => ?_⟩
  cases heq

/-- Running a ready thread, when there are no events, and no timer is due. -/
theorem fetches_ready {q₀ : Queues F A} {l' : List (ℕ × Task F A)} (hsteps : Steps q₀ [] q)
    (hevent : q₀ .event = []) (hevent' : q .event = q₀ .event)
    (hdue : ∀ e ∈ q₀ .timer, ¬ Due r.timerNow e) (htimer : q .timer = q₀ .timer)
    (hq : q .ready = e :: l)
    (h : Scheduled m' (Function.update (Function.update q .ready l) .unused l')) :
    Fetches r.timerNow q₀ (some (some ⟨e.2, .ready⟩)) m' := by
  refine ⟨_, h, hsteps.trans ((Step.top (by decide) hq).steps.trans
    (Step.recycle l').steps), ?_⟩
  rintro _ ⟨⟩
  refine ⟨hevent, ?_, hdue, ?_⟩
  · rw [Function.update_of_ne (by decide), Function.update_of_ne (by decide), hevent', hevent]
  · rw [Function.update_of_ne (by decide), Function.update_of_ne (by decide), htimer]

theorem threadTimerWait (h : Scheduled m q) (timerNow : Timeval) :
    Achieves (threadTimerWait timerNow) (fun _ m' => m' = m) m := by
  rw [Mksh.threadTimerWait, achieves_bind, achieves_get, h.head_eq]
  rcases hq : q .timer with _ | ⟨e, l⟩
  · simp only [List.map_nil, List.head?_nil, achieves_pure]
  · have he : e ∈ q .timer := by simp [hq]
    obtain ⟨sands, hu⟩ := h.typed.timer he
    have hsands : sandsAt m e.1 = some sands := by
      have hthread := h.rep.thread he
      rcases e with ⟨a, func, arg, u⟩
      cases hu
      simp only [sandsAt, hthread]
    simp only [List.map_cons, List.head?_cons, hsands, achieves_pure]

theorem threadSelect (h : Scheduled m q) (hevent : q .event = [])
    (hdue : ∀ e ∈ q .timer, ¬ Due r.timerNow e) :
    Achieves (threadSelect r) (Fetches r.timerNow q) m := by
  rw [Mksh.threadSelect, achieves_bind, achieves_get, achieves_bind]
  refine (h.threadTimerWait r.waitNow).mono fun timerWait m₁ heq => ?_
  subst heq
  rcases r.select m₁.fdset m₁.exceptfd timerWait with _ | _ | message | fds
  · exact achieves_pure.2 (h.fetches_none .refl)
  · exact achieves_pure.2 (h.fetches_none .refl)
  · simp only [achieves_bind, achieves_emit, achieves_pure]
    refine ⟨q, h, .refl, fun thread heq => ?_⟩
    cases heq
  · rw [achieves_bind]
    refine (h.threadProcessFd .read (fds .read)).mono ?_
    rintro _ m₂ ⟨q₂, h₂, hsteps₂, hframe₂⟩
    rw [achieves_bind]
    refine (h₂.threadProcessFd .write (fds .write)).mono ?_
    rintro _ m₃ ⟨q₃, h₃, hsteps₃, hframe₃⟩
    -- Neither loop touches the events and the timers.
    have hframe (t : ThreadType) (ht : ∀ kind : FdKind, t ≠ kind.type) (hready : t ≠ .ready) :
        q₃ t = q t := by
      rw [hframe₃ t (ht .write) hready, hframe₂ t (ht .read) hready]
    have hevent₃ := hframe .event (fun kind => (type_ne_event kind).symm) (by decide)
    have htimer₃ := hframe .timer (fun kind => (type_ne_timer kind).symm) (by decide)
    refine h₃.achieves_runOr_head type_ne_ready (by decide) (fun _ => ?_) ?_
    · exact achieves_pure.2 (h₃.fetches_none (hsteps₂.trans hsteps₃))
    · intro e l l' m' hq h'
      exact fetches_ready (hsteps₂.trans hsteps₃) hevent hevent₃ hdue htimer₃ hq h'

theorem threadFetchRound (h : Scheduled m q) (r : Round) :
    Achieves (threadFetchRound r) (Fetches r.timerNow q) m := by
  rw [Mksh.threadFetchRound]
  refine h.achieves_runOr_head type_ne_event (by decide) (fun hevent => ?_) ?_
  · refine h.achieves_runOr_timer (fun hdue => ?_) ?_
    · refine h.achieves_runOr_head type_ne_ready (by decide) (fun _ => ?_) ?_
      · exact h.threadSelect hevent hdue
      · intro e l l' m' hq h'
        exact fetches_ready .refl hevent rfl hdue rfl hq h'
    · intro e l₁ l₂ l' m' hq hbefore hdue h'
      refine ⟨_, h', (Step.fetch (t := .timer) (by decide) (fun heq => absurd heq (by decide))
        hq).steps.trans (Step.recycle l').steps, ?_⟩
      rintro _ ⟨⟩
      refine ⟨l₁, e, l₂, hq, rfl, hbefore, hdue, ?_⟩
      rw [Function.update_of_ne (by decide), Function.update_self]
  · intro e l l' m' hq h'
    refine ⟨_, h', (Step.top (by decide) hq).steps.trans
      (Step.recycle l').steps, ?_⟩
    rintro _ ⟨⟩
    trivial

theorem threadFetch (h : Scheduled m q) (rounds : List Round) :
    Achieves (threadFetch rounds) (fun ret m' => ∃ q', Scheduled m' q' ∧
      Steps q (fetched ret) q') m := by
  induction rounds generalizing m q with
  | nil => exact achieves_pure.2 ⟨q, h, .refl⟩
  | cons r rounds ih =>
    rw [Mksh.threadFetch, achieves_bind]
    refine (h.threadFetchRound r).mono ?_
    rintro ret m' ⟨q', h', hsteps, -⟩
    rcases ret with _ | ret
    · refine (ih h').mono ?_
      rintro ret m'' ⟨q'', h'', hsteps'⟩
      exact ⟨q'', h'', hsteps.trans hsteps'⟩
    · exact achieves_pure.2 ⟨q', h', hsteps⟩

end Scheduled

/-- What `threadFetch` returns is returned by one of its rounds. -/
theorem threadFetch_eq_some {rounds : List Round} {ret : Option (Thread F A)}
    (hr : (threadFetch rounds).result m = some (some ret, m')) :
    ∃ pre r post m₁, rounds = pre ++ r :: post ∧
      (threadFetch pre).result m = some (none, m₁) ∧
      (threadFetchRound r).result m₁ = some (some ret, m') := by
  induction rounds generalizing m with
  | nil => cases hr
  | cons r rounds ih =>
    rcases hround : (threadFetchRound r).result m with _ | ⟨_ | ret', m₁⟩
    · rw [threadFetch, result_bind_of_none hround] at hr
      cases hr
    · rw [threadFetch, result_bind_of_some hround] at hr
      obtain ⟨pre, r', post, m₂, rfl, hpre, hr'⟩ := ih hr
      refine ⟨r :: pre, r', post, m₂, rfl, ?_, hr'⟩
      rw [threadFetch, result_bind_of_some hround]
      exact hpre
    · rw [threadFetch, result_bind_of_some hround] at hr
      cases hr
      exact ⟨[], r, rounds, m, rfl, rfl, hround⟩

end Mksh
