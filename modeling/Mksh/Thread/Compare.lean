import Mathlib.Data.Prod.Lex
import Mksh.Thread.Run

/-!
# Comparing times

`timevalCmp` computes a difference of seconds, but returns only the low 32 bits of it, as an
`int`. It compares two times if and only if this keeps the sign (`sign_timevalCmp_iff`), which
it does not for times that are far apart: a timer that is to expire in seventy years expires
at once.

As long as the comparisons that are made come out right, the list of timers is in order, and
the first one that is due expires before all others (`Steps.timersIn`, `TimersIn.due`).
-/

namespace Mksh

open CString Process Intrusive Queues

variable {F A : Type}

/-! ## Times -/

/-- The low 32 bits of a number, as an `int`, have the sign of the number. -/
def KeepsSign (d : ℤ) : Prop :=
  d = 0 ∨ 0 < d ∧ 0 < d % 2 ^ 32 ∧ d % 2 ^ 32 < 2 ^ 31 ∨ d < 0 ∧ 2 ^ 31 ≤ d % 2 ^ 32

instance (d : ℤ) : Decidable (KeepsSign d) :=
  inferInstanceAs (Decidable (d = 0 ∨ _ ∨ _))

theorem keepsSign_of_lt {d : ℤ} (h : -2 ^ 31 ≤ d) (h' : d < 2 ^ 31) : KeepsSign d := by
  rw [KeepsSign]
  omega

namespace Timeval

/-- The microseconds are less than a second. -/
structure Proper (a : Timeval) : Prop where
  usec_nonneg : 0 ≤ a.tvUsec
  usec_lt : a.tvUsec < timerSecondMicro

/-- All the microseconds. -/
def micros (a : Timeval) : ℤ := a.tvSec * timerSecondMicro + a.tvUsec

/-- The difference of the seconds keeps its sign when it is returned. -/
def Comparable (a b : Timeval) : Prop := KeepsSign (a.tvSec - b.tvSec)

/-- Times are in the order of their seconds, then of their microseconds. -/
def key (a : Timeval) : ℤ ×ₗ ℤ := toLex (a.tvSec, a.tvUsec)

variable {a b : Timeval}

theorem key_le_iff : a.key ≤ b.key ↔
    a.tvSec < b.tvSec ∨ a.tvSec = b.tvSec ∧ a.tvUsec ≤ b.tvUsec := Prod.Lex.toLex_le_toLex

theorem comparable_refl (a : Timeval) : a.Comparable a := .inl (Int.sub_self _)

/-- The microseconds only matter for times in the same second. -/
theorem sign_micros (ha : a.Proper) (hb : b.Proper) : (a.micros - b.micros).sign =
    (if a.tvSec = b.tvSec then a.tvUsec - b.tvUsec else a.tvSec - b.tvSec).sign := by
  obtain ⟨ha₁, ha₂⟩ := ha
  obtain ⟨hb₁, hb₂⟩ := hb
  have hmicro : timerSecondMicro = 1000000 := rfl
  rw [micros, micros, hmicro]
  rcases lt_trichotomy a.tvSec b.tvSec with hlt | heq | hlt
  · rw [if_neg hlt.ne, Int.sign_eq_neg_one_of_neg (by omega),
      Int.sign_eq_neg_one_of_neg (by omega)]
  · rw [if_pos heq, heq]
    congr 1
    omega
  · rw [if_neg hlt.ne', Int.sign_eq_one_of_pos (by omega), Int.sign_eq_one_of_pos (by omega)]

theorem key_le_iff_micros (ha : a.Proper) (hb : b.Proper) :
    a.key ≤ b.key ↔ a.micros ≤ b.micros := by
  obtain ⟨ha₁, ha₂⟩ := ha
  obtain ⟨hb₁, hb₂⟩ := hb
  have hmicro : timerSecondMicro = 1000000 := rfl
  rw [key_le_iff, micros, micros, hmicro]
  omega

end Timeval

section Cmp

variable {a b : Timeval}

theorem sign_eq_sign_iff {x y : ℤ} : x.sign = y.sign ↔ (0 < x ↔ 0 < y) ∧ (x < 0 ↔ y < 0) := by
  rw [← Int.sign_eq_one_iff_pos, ← Int.sign_eq_one_iff_pos, ← Int.sign_eq_neg_one_iff_neg,
    ← Int.sign_eq_neg_one_iff_neg]
  have hx := Int.sign_trichotomy x
  have hy := Int.sign_trichotomy y
  omega

/-- What is returned of a difference has its sign if the low bits do. -/
theorem sign_bmod_iff {d : ℤ} : (d.bmod (2 ^ 32)).sign = d.sign ↔ KeepsSign d := by
  rw [sign_eq_sign_iff, Int.bmod_def, KeepsSign]
  push_cast
  split_ifs
  · omega
  · omega

/-- Exactly for these times the comparison has the sign of the difference. -/
theorem sign_timevalCmp_iff (ha : a.Proper) (hb : b.Proper) :
    (timevalCmp a b).sign = (a.micros - b.micros).sign ↔ a.Comparable b := by
  rw [Timeval.sign_micros ha hb, timevalCmp, Timeval.Comparable]
  split_ifs with heq
  · -- Less than a second is not truncated.
    obtain ⟨ha₁, ha₂⟩ := ha
    obtain ⟨hb₁, hb₂⟩ := hb
    have hmicro : timerSecondMicro = 1000000 := rfl
    rw [Int.bmod_eq_of_le (by omega) (by omega)]
    exact iff_of_true rfl (.inl (by omega))
  · exact sign_bmod_iff

/-- An earlier time is taken for a later one exactly if the two are not comparable. -/
theorem timevalCmp_nonneg_iff_of_lt (ha : a.Proper) (hb : b.Proper) (h : a.micros < b.micros) :
    timevalCmp a b ≥ 0 ↔ ¬a.Comparable b := by
  rw [← sign_timevalCmp_iff ha hb, Int.sign_eq_neg_one_of_neg (Int.sub_neg_of_lt h),
    Int.sign_eq_neg_one_iff_neg, not_lt]

theorem timevalCmp_nonpos_iff_of_lt (ha : a.Proper) (hb : b.Proper) (h : b.micros < a.micros) :
    timevalCmp a b ≤ 0 ↔ ¬a.Comparable b := by
  rw [← sign_timevalCmp_iff ha hb, Int.sign_eq_one_of_pos (Int.sub_pos_of_lt h),
    Int.sign_eq_one_iff_pos, not_lt]

theorem Timeval.Comparable.cmp_nonpos_iff (h : a.Comparable b) (ha : a.Proper) (hb : b.Proper) :
    timevalCmp a b ≤ 0 ↔ a.key ≤ b.key := by
  obtain ⟨hpos, -⟩ := sign_eq_sign_iff.1 ((sign_timevalCmp_iff ha hb).2 h)
  rw [Timeval.key_le_iff_micros ha hb]
  omega

theorem Timeval.Comparable.cmp_nonneg_iff (h : a.Comparable b) (ha : a.Proper) (hb : b.Proper) :
    timevalCmp a b ≥ 0 ↔ b.key ≤ a.key := by
  obtain ⟨-, hneg⟩ := sign_eq_sign_iff.1 ((sign_timevalCmp_iff ha hb).2 h)
  rw [Timeval.key_le_iff_micros hb ha]
  omega

end Cmp

/-! ## The order of timers -/

namespace Queues

/-- A timer that is added goes before an earlier one exactly if the two are not comparable. -/
theorem before_iff_of_lt {sands tt : Timeval} {e : ℕ × Task F A} (he : e.2.u = .sands tt)
    (hsands : sands.Proper) (htt : tt.Proper) (h : tt.micros < sands.micros) :
    Before sands e ↔ ¬sands.Comparable tt := by
  rw [← timevalCmp_nonpos_iff_of_lt hsands htt h]
  constructor
  · rintro ⟨tt', htt', hcmp⟩
    cases he.symm.trans htt'
    exact hcmp
  · exact fun hcmp => ⟨tt, he, hcmp⟩

/-- A timer is due as soon as it has been added exactly if its delay, taken as an `int`, loses
    its sign. -/
theorem due_iff_of_pos {timer : ℤ} {timerNow : Timeval} {e : ℕ × Task F A}
    (he : e.2.u = .sands ⟨timerNow.tvSec + timer, timerNow.tvUsec⟩) (hnow : timerNow.Proper)
    (htimer : 0 < timer) : Due timerNow e ↔ ¬KeepsSign (-timer) := by
  have hsands : Timeval.Proper ⟨timerNow.tvSec + timer, timerNow.tvUsec⟩ :=
    ⟨hnow.usec_nonneg, hnow.usec_lt⟩
  have hlt : timerNow.micros < Timeval.micros ⟨timerNow.tvSec + timer, timerNow.tvUsec⟩ := by
    change timerNow.tvSec * 1000000 + _ < (timerNow.tvSec + timer) * 1000000 + timerNow.tvUsec
    omega
  have hdelay : timerNow.tvSec - (timerNow.tvSec + timer) = -timer := by omega
  have hiff := timevalCmp_nonneg_iff_of_lt hnow hsands hlt
  rw [Timeval.Comparable, hdelay] at hiff
  rw [← hiff]
  constructor
  · rintro ⟨sands, hsands, hcmp⟩
    cases he.symm.trans hsands
    exact hcmp
  · exact fun hcmp => ⟨_, he, hcmp⟩

/-- A timer does not expire after another one. -/
def InOrder (e e' : ℕ × Task F A) : Prop :=
  ∀ sands sands', e.2.u = .sands sands → e'.2.u = .sands sands' → sands.key ≤ sands'.key

/-- The times of the timers are among some times, and in order. -/
structure TimersIn (U : Set Timeval) (q : Queues F A) : Prop where
  mem {e : ℕ × Task F A} : e ∈ q .timer → ∃ sands, e.2.u = .sands sands ∧ sands ∈ U
  inOrder : (q .timer).Pairwise InOrder

/-- The times in `S` are compared with those in `U`, some of which they are. -/
structure Compares (S U : Set Timeval) : Prop where
  subset : S ⊆ U
  proper : ∀ b ∈ U, b.Proper
  comparable : ∀ a ∈ S, ∀ b ∈ U, a.Comparable b

/-- The times of the timers that are accepted are among some times. -/
def TimesIn (S : Set Timeval) (acts : List (Act F A)) : Prop :=
  ∀ thread ∈ acts.filterMap Act.accepted, ∀ sands, thread.u = .sands sands → sands ∈ S

variable {q q' : Queues F A} {acts acts' : List (Act F A)} {e : ℕ × Task F A}
  {l l₁ l₂ : List (ℕ × Task F A)} {t : ThreadType} {sands timerNow : Timeval} {S U U' : Set Timeval}

theorem Compares.cmp_nonpos_iff (h : Compares S U) {a b : Timeval} (ha : a ∈ S) (hb : b ∈ U) :
    timevalCmp a b ≤ 0 ↔ a.key ≤ b.key :=
  (h.comparable a ha b hb).cmp_nonpos_iff (h.proper a (h.subset ha)) (h.proper b hb)

theorem Compares.cmp_nonneg_iff (h : Compares S U) {a b : Timeval} (ha : a ∈ S) (hb : b ∈ U) :
    timevalCmp a b ≥ 0 ↔ b.key ≤ a.key :=
  (h.comparable a ha b hb).cmp_nonneg_iff (h.proper a (h.subset ha)) (h.proper b hb)

theorem timersIn_empty : TimersIn U (fun _ => [] : Queues F A) :=
  ⟨fun he => absurd he List.not_mem_nil, .nil⟩

theorem TimersIn.mono (h : TimersIn U q) (hU : U ⊆ U') : TimersIn U' q where
  mem he := (h.mem he).imp fun _ hs => ⟨hs.1, hU hs.2⟩
  inOrder := h.inOrder

theorem timesIn_append : TimesIn S (acts ++ acts') ↔ TimesIn S acts ∧ TimesIn S acts' := by
  rw [TimesIn, List.filterMap_append, List.forall_mem_append]
  exact Iff.rfl

theorem timesIn_accept {thread : Thread F A}
    (h : ∀ sands, thread.u = .sands sands → sands ∈ S) : TimesIn S [.accept thread] := by
  intro thread' hthread'
  obtain rfl := List.mem_singleton.1 hthread'
  exact h

theorem timesIn_of_not_accept (h : ∀ act ∈ acts, act.accepted = none) : TimesIn S acts := by
  intro thread hthread
  obtain ⟨act, hact, heq⟩ := List.mem_filterMap.1 hthread
  rw [h act hact] at heq
  cases heq

theorem timesIn_fetched (ret : Option (Option (Thread F A))) : TimesIn S (fetched ret) := by
  refine timesIn_of_not_accept fun act hact => ?_
  rcases ret with _ | _ | thread
  · cases hact
  · cases hact
  · obtain rfl := List.mem_singleton.1 hact
    rfl

/-- Of the calls, only those that add a timer accept a thread with a time. -/
theorem timesIn_acts [DecidableEq A] {c : Call F A} (h : ∀ func arg timer timerNow,
    c.op = .addTimer func arg timer timerNow → ⟨timerNow.tvSec + timer, timerNow.tvUsec⟩ ∈ S) :
    TimesIn S c.acts := by
  obtain ⟨m, op, ret⟩ := c
  rw [Call.acts]
  -- One case for each operation; only a timer adds a time.
  split
  · refine timesIn_accept ?_
    rintro _ ⟨⟩
  · refine timesIn_accept ?_
    rintro _ ⟨⟩
  · next hop _ =>
    refine timesIn_accept ?_
    rintro _ ⟨⟩
    exact h _ _ _ _ hop
  · refine timesIn_accept ?_
    rintro _ ⟨⟩
  · refine timesIn_of_not_accept fun act hact => ?_
    obtain ⟨thread, -, rfl⟩ := Option.map_eq_some_iff.1 (Option.mem_toList.1 hact)
    rfl
  · refine timesIn_of_not_accept fun act hact => ?_
    obtain ⟨e, -, rfl⟩ := List.mem_map.1 hact
    rfl
  · exact timesIn_fetched _
  · exact timesIn_of_not_accept fun _ hact => absurd hact List.not_mem_nil

theorem TimersIn.update_of_ne (h : TimersIn U q) (ht : .timer ≠ t) (l : List (ℕ × Task F A)) :
    TimersIn U (Function.update q t l) := by
  refine ⟨fun he => ?_, ?_⟩
  · rw [Function.update_of_ne ht] at he
    exact h.mem he
  · rw [Function.update_of_ne ht]
    exact h.inOrder

theorem TimersIn.remove (h : TimersIn U q) (hq : q t = l₁ ++ e :: l₂) :
    TimersIn U (Function.update q t (l₁ ++ l₂)) := by
  rcases eq_or_ne t .timer with rfl | ht
  · have hsub : (l₁ ++ l₂).Sublist (q .timer) := by
      rw [hq]
      exact (List.sublist_cons_self e l₂).append_left l₁
    refine ⟨fun he => ?_, ?_⟩
    · rw [Function.update_self] at he
      exact h.mem (hsub.subset he)
    · rw [Function.update_self]
      exact h.inOrder.sublist hsub
  · exact h.update_of_ne ht.symm _

/-- A timer that expires before the first of some timers in order expires before
    all of them. -/
theorem Before.inOrder (hU : Compares S U) (hl : ∀ e ∈ l, ∃ tt, e.2.u = .sands tt ∧ tt ∈ U)
    (hsands : sands ∈ S) (hpair : l.Pairwise InOrder) (hbefore : ∀ e ∈ l.head?, Before sands e)
    {task : Task F A} {a : ℕ} (hu : task.u = .sands sands) : ∀ e ∈ l, InOrder (a, task) e := by
  rcases l with _ | ⟨b, l⟩
  · exact fun _ he => absurd he List.not_mem_nil
  obtain ⟨hb, hl⟩ := List.forall_mem_cons.1 hl
  obtain ⟨tt, htt, hmem⟩ := hb
  obtain ⟨tt', htt', hcmp⟩ := hbefore b rfl
  cases htt.symm.trans htt'
  have hle := (hU.cmp_nonpos_iff hsands hmem).1 hcmp
  rintro e he s s' hs hs'
  cases hu.symm.trans hs
  rcases List.mem_cons.1 he with rfl | he
  · cases htt.symm.trans hs'
    exact hle
  · exact hle.trans ((List.pairwise_cons.1 hpair).1 e he tt s' htt hs')

theorem inOrder_of_not_before (hU : Compares S U) (he : ∃ tt, e.2.u = .sands tt ∧ tt ∈ U)
    (hsands : sands ∈ S) (hbefore : ¬ Before sands e) {task : Task F A} {a : ℕ}
    (hu : task.u = .sands sands) : InOrder e (a, task) := by
  obtain ⟨tt, htt, hmem⟩ := he
  intro s s' hs hs'
  cases htt.symm.trans hs
  cases hu.symm.trans hs'
  by_contra hlt
  exact hbefore ⟨tt, htt, (hU.cmp_nonpos_iff hsands hmem).2 (not_le.1 hlt).le⟩

theorem Step.timersIn (h : Step q acts q') (hU : Compares S U) (hacts : TimesIn S acts)
    (hq : TimersIn U q) : TimersIn U q' := by
  cases h with
  | recycle l => exact hq.update_of_ne (by decide) l
  | push a task htimer hready hunused => exact hq.update_of_ne htimer.symm _
  | @timer l₁ l₂ sands a func arg hl hbefore hafter =>
    have hsands : sands ∈ S := hacts ⟨⟨func, arg, .sands sands⟩, .timer⟩
      (by simp [Act.accepted]) sands rfl
    have hmem := fun e => hq.mem (e := e)
    have hpair := hq.inOrder
    rw [hl] at hmem hpair
    obtain ⟨hpair₁, hpair₂, hpair⟩ := List.pairwise_append.1 hpair
    refine ⟨fun he => ?_, ?_⟩
    · rw [Function.update_self] at he
      rcases List.mem_append.1 he with he | he
      · exact hmem _ (List.mem_append_left _ he)
      · rcases List.mem_cons.1 he with rfl | he
        · exact ⟨sands, rfl, hU.subset hsands⟩
        · exact hmem _ (List.mem_append_right _ he)
    · rw [Function.update_self]
      -- The new timer is not before those to its left, and before the one to its right.
      refine List.pairwise_append.2 ⟨hpair₁, List.pairwise_cons.2 ⟨?_, hpair₂⟩, ?_⟩
      · exact Before.inOrder hU (fun e he => hmem e (List.mem_append_right _ he)) hsands hpair₂
          hafter rfl
      · intro e he e' he'
        rcases List.mem_cons.1 he' with rfl | he'
        · exact inOrder_of_not_before hU (hmem e (List.mem_append_left _ he)) hsands
            (hbefore e he) rfl
        · exact hpair e he e' he'
  | cancel _ hl => exact hq.remove hl
  | fetch _ _ hl => exact hq.remove hl
  | ready kind hl => exact (hq.remove hl).update_of_ne (by decide) _

theorem Steps.timersIn (h : Steps q acts q') (hU : Compares S U) (hacts : TimesIn S acts)
    (hq : TimersIn U q) : TimersIn U q' := by
  induction h with
  | refl => exact hq
  | cons hstep _ ih =>
    obtain ⟨h₁, h₂⟩ := timesIn_append.1 hacts
    exact ih h₂ (hstep.timersIn hU h₁ hq)

/-- The first timer that is due is not before its time, and no other one is before
    it. -/
theorem TimersIn.due (h : TimersIn U q) (hnow : timerNow.Proper) (hU : ∀ b ∈ U, b.Proper)
    (hcmp : ∀ b ∈ U, timerNow.Comparable b) (hq : q .timer = l₁ ++ e :: l₂)
    (hbefore : ∀ e ∈ l₁, ¬ Due timerNow e) (hdue : Due timerNow e) :
    ∃ sands, e.2.u = .sands sands ∧ sands.key ≤ timerNow.key ∧
      ∀ e' ∈ l₁ ++ l₂, ∀ sands', e'.2.u = .sands sands' → sands.key ≤ sands'.key := by
  have hnow_iff {b : Timeval} (hb : b ∈ U) : timevalCmp timerNow b ≥ 0 ↔ b.key ≤ timerNow.key :=
    (hcmp b hb).cmp_nonneg_iff hnow (hU b hb)
  obtain ⟨sands, hsands, hcmp⟩ := hdue
  obtain ⟨sands', hsands', hmem⟩ := h.mem (e := e) (by simp [hq])
  cases hsands.symm.trans hsands'
  have hle := (hnow_iff hmem).1 hcmp
  have hpair := h.inOrder
  rw [hq, List.pairwise_append, List.pairwise_cons] at hpair
  obtain ⟨-, ⟨hafter, -⟩, hfirst⟩ := hpair
  refine ⟨sands, hsands, hle, fun e' he' s hs => ?_⟩
  rcases List.mem_append.1 he' with he' | he'
  · -- A timer before this one would have been due.
    obtain ⟨s', hs', hmem'⟩ := h.mem (e := e') (by simp [hq, he'])
    cases hs.symm.trans hs'
    have hle' := hfirst e' he' e List.mem_cons_self s sands hs hsands
    exact absurd ⟨s, hs, (hnow_iff hmem').2 (hle'.trans hle)⟩ (hbefore e' he')
  · exact hafter e' he' sands s hsands hs

/-- The times of the timers. -/
def times (q : Queues F A) : Set Timeval := {tt | ∃ e ∈ q .timer, e.2.u = .sands tt}

theorem TimersIn.times (h : TimersIn U q) : TimersIn (times q) q where
  mem he := (h.mem he).imp fun _ hs => ⟨hs.1, _, he, hs.1⟩
  inOrder := h.inOrder

theorem TimersIn.times_subset (h : TimersIn U q) : Queues.times q ⊆ U := by
  rintro tt ⟨e, he, htt⟩
  obtain ⟨tt', htt', hmem⟩ := h.mem he
  cases htt.symm.trans htt'
  exact hmem

end Queues

variable {m m' : Master F A} {q : Queues F A} {rounds : List Round} {thread : Thread F A}

/-- A timer that is fetched is due by the clock of its round, and not after any that is
    left. -/
theorem threadFetch_timer {U : Set Timeval} (h : Scheduled m q) (hq : TimersIn U q)
    (hU : ∀ b ∈ U, b.Proper)
    (hnow : ∀ r ∈ rounds, r.timerNow.Proper ∧ ∀ b ∈ U, r.timerNow.Comparable b)
    (hr : (threadFetch rounds).result m = some (some (some thread), m'))
    (htype : thread.type = .timer) :
    ∃ sands pre r post m₁, thread.u = .sands sands ∧ rounds = pre ++ r :: post ∧
      (threadFetch pre).result m = some (none, m₁) ∧
      (threadFetchRound r).result m₁ = some (some (some thread), m') ∧
      sands.key ≤ r.timerNow.key ∧
      ∀ e ∈ m'.queue .timer, ∀ sands', e.2.u = .sands sands' → sands.key ≤ sands'.key := by
  obtain ⟨pre, r, post, m₁, rfl, hpre, hround⟩ := threadFetch_eq_some hr
  obtain ⟨q₁, h₁, hsteps⟩ := (h.threadFetch pre).ensures _ _ hpre
  obtain ⟨q', h', -, hnext⟩ := (h₁.threadFetchRound r).ensures _ _ hround
  have hnext := hnext thread rfl
  rw [Next, htype] at hnext
  obtain ⟨l₁, e, l₂, hl, he, hbefore, hdue, hl'⟩ := hnext
  -- No timer is added in the rounds before.
  have hq₁ := hsteps.timersIn ⟨Set.empty_subset U, hU, fun a ha => absurd ha (Set.notMem_empty a)⟩
    (timesIn_fetched none) hq
  obtain ⟨hproper, hcmp⟩ := hnow r (by simp)
  obtain ⟨sands, hsands, hle, hleft⟩ := hq₁.due hproper hU hcmp hl hbefore hdue
  refine ⟨sands, pre, r, post, m₁, ?_, rfl, hpre, hround, hle, ?_⟩
  · rw [← hsands, he]
  · rw [h'.rep.queue_eq, hl']
    exact hleft

/-! ## Runs -/

/-- The comparisons that a call makes come out right: those of the time of a timer that is
    added, and of the clock, with the times of the timers. -/
def Op.Compares (q : Queues F A) : Op F A → Prop
  | .addTimer _ _ timer timerNow => timerNow.Proper ∧
    ∀ tt ∈ times q, Timeval.Comparable ⟨timerNow.tvSec + timer, timerNow.tvUsec⟩ tt
  | .fetch rounds => ∀ r ∈ rounds, r.timerNow.Proper ∧ ∀ tt ∈ times q, r.timerNow.Comparable tt
  | _ => True

variable [DecidableEq A] {calls : List (Call F A)}

/-- The timers are in order, if every call has compared them rightly. -/
theorem Run.timersIn (h : Run calls m) (hcalls : ∀ c ∈ calls, c.op.Compares c.before.queue) :
    TimersIn {a | a.Proper} m.queue := by
  induction h with
  | create =>
    rw [scheduled_create.rep.queue_eq]
    exact timersIn_empty
  | @call calls m op ret m' hrun hop hr ih =>
    obtain ⟨hcalls, hlast⟩ := List.forall_mem_append.1 hcalls
    have hop' : op.Compares m.queue := hlast _ List.mem_cons_self
    have hq := ih hcalls
    obtain ⟨q', h', hsteps⟩ := (hrun.scheduled.1.perform hop).ensures ret m' hr
    rw [h'.rep.queue_eq]
    -- The time that the call adds, if it adds one.
    let S : Set Timeval := {a | ∃ func arg timer timerNow,
      op = .addTimer func arg timer timerNow ∧ a = ⟨timerNow.tvSec + timer, timerNow.tvUsec⟩}
    have hS : Queues.Compares S (times m.queue ∪ S) := by
      refine ⟨Set.subset_union_right, ?_, ?_⟩
      · rintro b (hb | ⟨_, _, _, timerNow, rfl, rfl⟩)
        · exact hq.times_subset hb
        · exact ⟨hop'.1.usec_nonneg, hop'.1.usec_lt⟩
      · rintro _ ⟨_, _, _, timerNow, rfl, rfl⟩ b (hb | ⟨_, _, _, _, heq, rfl⟩)
        · exact hop'.2 b hb
        · cases heq
          exact Timeval.comparable_refl _
    have hacts : TimesIn S (Call.acts ⟨m, op, ret⟩) :=
      timesIn_acts fun func arg timer timerNow hadd => ⟨func, arg, timer, timerNow, hadd, rfl⟩
    exact (hsteps.timersIn hS hacts (hq.times.mono Set.subset_union_left)).mono hS.proper

/-- Exactly for these times the comparison has the sign of the difference. Where it has, it
    is antisymmetric and transitive, and in a run that only makes such comparisons, the timers
    are in order, and none is fetched before its time. -/
theorem timevalCmp_order :
    (∀ a b : Timeval, a.Proper → b.Proper →
      ((timevalCmp a b).sign = (a.micros - b.micros).sign ↔ a.Comparable b)) ∧
    (∀ a b : Timeval, a.Proper → b.Proper → a.Comparable b → b.Comparable a →
      (timevalCmp a b).sign = -(timevalCmp b a).sign) ∧
    (∀ a b c : Timeval, a.Proper → b.Proper → c.Proper → a.Comparable b → b.Comparable c →
      a.Comparable c → timevalCmp a b ≤ 0 → timevalCmp b c ≤ 0 → timevalCmp a c ≤ 0) ∧
    (∀ (sands tt : Timeval) (e : ℕ × Task F A), sands.Proper → tt.Proper →
      tt.micros < sands.micros → e.2.u = .sands tt → (Before sands e ↔ ¬sands.Comparable tt)) ∧
    (∀ (timer : ℤ) (timerNow : Timeval) (e : ℕ × Task F A), timerNow.Proper → 0 < timer →
      e.2.u = .sands ⟨timerNow.tvSec + timer, timerNow.tvUsec⟩ →
      (Due timerNow e ↔ ¬KeepsSign (-timer))) ∧
    ∀ (calls : List (Call F A)) (m : Master F A), Run calls m →
      (∀ c ∈ calls, c.op.Compares c.before.queue) →
      (m.queue .timer).Pairwise InOrder ∧
      ∀ (rounds : List Round) (thread : Thread F A) (m' : Master F A),
        (Op.fetch rounds : Op F A).Compares m.queue →
        (threadFetch rounds).result m = some (some (some thread), m') → thread.type = .timer →
        ∃ sands pre r post m₁, thread.u = .sands sands ∧ rounds = pre ++ r :: post ∧
          (threadFetch pre).result m = some (none, m₁) ∧
          (threadFetchRound r).result m₁ = some (some (some thread), m') ∧
          sands.key ≤ r.timerNow.key ∧
          ∀ e ∈ m'.queue .timer, ∀ sands', e.2.u = .sands sands' → sands.key ≤ sands'.key := by
  -- The parts about two or three times, about one comparison of the loops, and about runs.
  refine ⟨fun a b => sign_timevalCmp_iff, ?_, ?_, ?_, ?_, ?_⟩
  · intro a b ha hb hab hba
    rw [(sign_timevalCmp_iff ha hb).2 hab, (sign_timevalCmp_iff hb ha).2 hba, ← Int.sign_neg,
      Int.neg_sub]
  · intro a b c ha hb hc hab hbc hac h h'
    exact (hac.cmp_nonpos_iff ha hc).2
      (((hab.cmp_nonpos_iff ha hb).1 h).trans ((hbc.cmp_nonpos_iff hb hc).1 h'))
  · exact fun sands tt e hsands htt hlt he => before_iff_of_lt he hsands htt hlt
  · exact fun timer timerNow e hnow htimer he => due_iff_of_pos he hnow htimer
  · intro calls m h hcalls
    have hq := h.timersIn hcalls
    refine ⟨hq.inOrder, fun rounds thread m' hrounds hr htype => ?_⟩
    exact threadFetch_timer h.scheduled.1 hq.times (fun _ hb => hq.times_subset hb) hrounds hr htype

/-- Two times ten years apart, and a timer with a delay of ten years. -/
theorem timevalCmp_order_years :
    (timevalCmp ⟨315360000, 0⟩ ⟨0, 999999⟩).sign =
      (Timeval.micros ⟨315360000, 0⟩ - Timeval.micros ⟨0, 999999⟩).sign ∧
    ∃ m : Master Unit ℕ, m.queue .timer = [(0, ⟨(), 7, .sands ⟨315360005, 0⟩⟩)] ∧
      (m.queue .timer).Pairwise InOrder := by
  obtain ⟨hsign, -, -, -, -, hruns⟩ := timevalCmp_order (F := Unit) (A := ℕ)
  refine ⟨(hsign _ _ ⟨by decide, by decide⟩ ⟨by decide, by decide⟩).2 ?_, ?_⟩
  · rw [Timeval.Comparable]
    decide
  have hrun : ∃ m : Master Unit ℕ,
      Run [⟨threadMasterCreate, .addTimer () 7 315360000 ⟨5, 0⟩, .added (some 0)⟩] m ∧
      m.queue .timer = [(0, ⟨(), 7, .sands ⟨315360005, 0⟩⟩)] :=
    ⟨_, .call .create trivial rfl, rfl⟩
  obtain ⟨m, hrun, hm⟩ := hrun
  refine ⟨m, hm, (hruns _ m hrun fun c hc => ?_).1⟩
  obtain rfl := List.mem_singleton.1 hc
  refine ⟨⟨by decide, by decide⟩, ?_⟩
  rintro tt ⟨e, he, -⟩
  cases he

/-- Two times seventy years apart. The timer that is to expire seventy years from now goes
    before the one of five seconds from now, and is fetched at once. -/
theorem timevalCmp_far :
    Timeval.Proper ⟨2 ^ 31, 0⟩ ∧ Timeval.Proper ⟨0, 0⟩ ∧
    (timevalCmp ⟨2 ^ 31, 0⟩ ⟨0, 0⟩).sign = -1 ∧
    (Timeval.micros ⟨2 ^ 31, 0⟩ - Timeval.micros ⟨0, 0⟩).sign = 1 ∧
    ∃ m₁ m₂ m₃ : Master Unit ℕ,
      (threadAddTimer () 7 5 ⟨0, 0⟩).result threadMasterCreate = some (0, m₁) ∧
      (threadAddTimer () 8 (2 ^ 31 + 6) ⟨0, 0⟩).result m₁ = some (1, m₂) ∧
      m₂.queue .timer = [(1, ⟨(), 8, .sands ⟨2 ^ 31 + 6, 0⟩⟩), (0, ⟨(), 7, .sands ⟨5, 0⟩⟩)] ∧
      (threadFetch [⟨⟨0, 0⟩, ⟨0, 0⟩, fun _ _ _ => .timeout⟩]).result m₂ =
        some (some (some ⟨⟨(), 8, .sands ⟨2 ^ 31 + 6, 0⟩⟩, .timer⟩), m₃) := by
  refine ⟨⟨by decide, by decide⟩, ⟨by decide, by decide⟩, by decide, by decide, ?_⟩
  exact ⟨_, _, _, rfl, rfl, rfl, rfl⟩

end Mksh
