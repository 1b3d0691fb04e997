import Mksh.Lib.Loop
import Mksh.Thread.Timer

/-!
# The time to wait

`select` waits for the time up to the first timer, which `threadTimerWait` computes. Whatever
the seconds and microseconds of the difference are, the loops of `timevalAdjust` come to an end
(`exits_timevalCarry`, `exits_timevalBorrow`), with the same time written in another way
(`timevalBorrow_timevalCarry`). What is returned is at most a million seconds, and no longer than
the time that is left (`threadTimerWait_le`).
-/

namespace Mksh

open Loop

variable {F A : Type}

namespace Timeval

/-- A time as `timevalAdjust` returns it: at most a million seconds, and less than a second in
    microseconds. -/
structure Adjusted (t : Timeval) : Prop extends Proper t where
  sec_nonneg : 0 ≤ t.tvSec
  sec_le : t.tvSec ≤ timerSecondMicro

/-- A turn of the first loop of `timevalAdjust`. -/
def carry (a : Timeval) : Timeval := ⟨a.tvSec + 1, a.tvUsec - timerSecondMicro⟩

/-- A turn of the second loop of `timevalAdjust`. -/
def borrow (a : Timeval) : Timeval := ⟨a.tvSec - 1, a.tvUsec + timerSecondMicro⟩

variable {a b : Timeval}

theorem micros_carry (a : Timeval) : a.carry.micros = a.micros := by
  change (a.tvSec + 1) * 1000000 + (a.tvUsec - 1000000) = a.tvSec * 1000000 + a.tvUsec
  omega

theorem micros_borrow (a : Timeval) : a.borrow.micros = a.micros := by
  change (a.tvSec - 1) * 1000000 + (a.tvUsec + 1000000) = a.tvSec * 1000000 + a.tvUsec
  omega

/-- The seconds and microseconds of a time, if these are less than a second. -/
theorem Proper.eq (h : a.Proper) :
    a = ⟨a.micros / timerSecondMicro, a.micros % timerSecondMicro⟩ := by
  obtain ⟨sec, usec⟩ := a
  obtain ⟨h₁, h₂⟩ := h
  rw [Timeval.mk.injEq]
  change 0 ≤ usec at h₁
  change usec < 1000000 at h₂
  change sec = (sec * 1000000 + usec) / 1000000 ∧ usec = (sec * 1000000 + usec) % 1000000
  omega

end Timeval

open Timeval

variable {a : Timeval}

/-! ## The loops -/

theorem exits_timevalCarry (a : Timeval) :
    Exits (fun a => a.tvUsec ≥ timerSecondMicro) carry a (timevalCarry a) := by
  induction a using timevalCarry.induct with
  | case1 a hge ih =>
    rw [timevalCarry, if_pos hge]
    exact .turn hge ih
  | case2 a hlt =>
    rw [timevalCarry, if_neg hlt]
    exact .done hlt

theorem exits_timevalBorrow (a : Timeval) :
    Exits (fun a => a.tvUsec < 0) borrow a (timevalBorrow a) := by
  induction a using timevalBorrow.induct with
  | case1 a hlt ih =>
    rw [timevalBorrow, if_pos hlt]
    exact .turn hlt ih
  | case2 a hge =>
    rw [timevalBorrow, if_neg hge]
    exact .done hge

/-- After both loops, the time is the same, and the microseconds are less than a second. -/
theorem timevalBorrow_timevalCarry (a : Timeval) : timevalBorrow (timevalCarry a) =
    ⟨a.micros / timerSecondMicro, a.micros % timerSecondMicro⟩ := by
  have hmicro : timerSecondMicro = 1000000 := rfl
  have hcarry := exits_timevalCarry a
  have hborrow := exits_timevalBorrow (timevalCarry a)
  have hlt : (timevalCarry a).tvUsec < timerSecondMicro := not_le.1 hcarry.not_cond
  have hge : 0 ≤ (timevalBorrow (timevalCarry a)).tvUsec := not_lt.1 hborrow.not_cond
  have hmicros : (timevalBorrow (timevalCarry a)).micros = a.micros := by
    refine hborrow.preserves (I := fun x => x.micros = a.micros) ?_ ?_
    · exact fun x hx _ => (micros_borrow x).trans hx
    · refine hcarry.preserves (I := fun x => x.micros = a.micros) ?_ rfl
      exact fun x hx _ => (micros_carry x).trans hx
  -- The second loop does not go beyond a second.
  have hlt' : (timevalBorrow (timevalCarry a)).tvUsec < timerSecondMicro := by
    refine hborrow.preserves (I := fun x => x.tvUsec < timerSecondMicro) ?_ hlt
    intro x _ hneg
    change x.tvUsec + timerSecondMicro < timerSecondMicro
    omega
  rw [← hmicros]
  exact Proper.eq ⟨hge, hlt'⟩

/-! ## Adjusting -/

/-- What becomes of a time, given how many microseconds it has. -/
theorem timevalAdjust_eq (a : Timeval) : timevalAdjust a =
    if a.micros < 0 then ⟨0, 10⟩
    else ⟨min (a.micros / timerSecondMicro) timerSecondMicro, a.micros % timerSecondMicro⟩ := by
  have hmicro : timerSecondMicro = 1000000 := rfl
  rw [timevalAdjust, timevalBorrow_timevalCarry, hmicro]
  dsimp only
  by_cases hneg : a.micros < 0
  · have hsec : a.micros / 1000000 < 0 := by omega
    rw [if_pos hsec, if_pos hneg]
    exact if_neg (by decide)
  · have hsec : ¬a.micros / 1000000 < 0 := by omega
    rw [if_neg hsec, if_neg hneg]
    split_ifs with hgt
    · rw [min_eq_right hgt.le]
    · rw [min_eq_left (not_lt.1 hgt)]

theorem adjusted_timevalAdjust (a : Timeval) : (timevalAdjust a).Adjusted := by
  have hmicro : timerSecondMicro = 1000000 := rfl
  rw [timevalAdjust_eq]
  split_ifs with hneg
  · exact ⟨⟨by decide, by decide⟩, by decide, by decide⟩
  · refine ⟨⟨?_, ?_⟩, ?_, ?_⟩
    · exact Int.emod_nonneg _ (by decide)
    · exact Int.emod_lt_of_pos _ (by decide)
    · exact le_min (Int.ediv_nonneg (not_lt.1 hneg) (by decide)) (by decide)
    · exact min_le_right _ _

theorem micros_timevalAdjust_le (h : 0 ≤ a.micros) : (timevalAdjust a).micros ≤ a.micros := by
  rw [timevalAdjust_eq, if_neg (not_lt.2 h)]
  change min (a.micros / 1000000) 1000000 * 1000000 + a.micros % 1000000 ≤ a.micros
  have hle : min (a.micros / 1000000) 1000000 ≤ a.micros / 1000000 := min_le_left _ _
  omega

theorem micros_timevalAdjust (h : 0 ≤ a.micros)
    (hsec : a.micros / timerSecondMicro ≤ timerSecondMicro) :
    (timevalAdjust a).micros = a.micros := by
  rw [timevalAdjust_eq, if_neg (not_lt.2 h), min_eq_left hsec]
  change a.micros / 1000000 * 1000000 + a.micros % 1000000 = a.micros
  omega

theorem micros_sub (s n : Timeval) :
    Timeval.micros ⟨s.tvSec - n.tvSec, s.tvUsec - n.tvUsec⟩ = s.micros - n.micros := by
  change (s.tvSec - n.tvSec) * 1000000 + (s.tvUsec - n.tvUsec) =
    s.tvSec * 1000000 + s.tvUsec - (n.tvSec * 1000000 + n.tvUsec)
  omega

/-! ## Waiting -/

/-- The test for negative seconds in `threadTimerWait` never succeeds: `timevalAdjust` has made
    the same one. -/
theorem threadTimerWait_eq {m : Master F A} {head : ℕ} {s : Timeval}
    (hhead : (m.list .timer).head = some head) (hs : sandsAt m head = some s) (n : Timeval) :
    threadTimerWait n m = ([], some (some (timevalSubtract s n), m)) := by
  have hsec : ¬(timevalSubtract s n).tvSec < 0 :=
    not_lt.2 (adjusted_timevalAdjust ⟨s.tvSec - n.tvSec, s.tvUsec - n.tvUsec⟩).sec_nonneg
  rw [threadTimerWait, Process.get_bind, hhead]
  dsimp only
  rw [hs]
  dsimp only
  rw [if_neg hsec]
  rfl

/-- The time to wait is never longer than the time up to the first timer, and is just that one
    unless it is more than a million seconds. -/
theorem threadTimerWait_le :
    (∀ (m : Master F A) (head : ℕ) (s n : Timeval), (m.list .timer).head = some head →
      sandsAt m head = some s →
      ∃ t, threadTimerWait n m = ([], some (some t, m)) ∧ t.Adjusted ∧
        (n.micros ≤ s.micros → t.micros ≤ s.micros - n.micros) ∧
        (n.micros ≤ s.micros → (s.micros - n.micros) / timerSecondMicro ≤ timerSecondMicro →
          t.micros = s.micros - n.micros) ∧
        (s.micros < n.micros → t = ⟨0, 10⟩)) ∧
    ∀ a : Timeval,
      Exits (fun a => a.tvUsec ≥ timerSecondMicro) carry a (timevalCarry a) ∧
      Exits (fun a => a.tvUsec < 0) borrow (timevalCarry a) (timevalBorrow (timevalCarry a)) ∧
      (timevalAdjust a).Adjusted ∧
      (0 ≤ a.micros → a.micros / timerSecondMicro ≤ timerSecondMicro →
        (timevalAdjust a).micros = a.micros) := by
  constructor
  · intro m head s n hhead hs
    have hsub := micros_sub s n
    refine ⟨_, threadTimerWait_eq hhead hs n, adjusted_timevalAdjust _, ?_, ?_, ?_⟩
    · intro hle
      rw [← hsub]
      exact micros_timevalAdjust_le (by omega)
    · intro hle hsec
      rw [← hsub] at hsec ⊢
      exact micros_timevalAdjust (by omega) hsec
    · -- A time that has passed is adjusted to the shortest wait.
      intro hlt
      rw [timevalSubtract, timevalAdjust_eq, if_pos (by omega)]
  · intro a
    exact ⟨exits_timevalCarry a, exits_timevalBorrow _, adjusted_timevalAdjust a,
      micros_timevalAdjust⟩

/-- At 5.9 seconds, a timer for 8.2 seconds: less than three seconds are left. -/
theorem threadTimerWait_le_addTimer : ∃ (m : Master Unit ℕ) (t : Timeval),
    (threadAddTimer () 7 3 ⟨5, 200000⟩).result threadMasterCreate = some (0, m) ∧
    (threadTimerWait ⟨5, 900000⟩).result m = some (some t, m) ∧ t.micros = 2300000 := by
  have hadd : ∃ m : Master Unit ℕ,
      (threadAddTimer () 7 3 ⟨5, 200000⟩).result threadMasterCreate = some (0, m) ∧
      (m.list .timer).head = some 0 ∧ sandsAt m 0 = some ⟨8, 200000⟩ := ⟨_, rfl, rfl, rfl⟩
  obtain ⟨m, hm, hhead, hs⟩ := hadd
  obtain ⟨t, ht, -, -, heq, -⟩ := threadTimerWait_le.1 m 0 ⟨8, 200000⟩ ⟨5, 900000⟩ hhead hs
  refine ⟨m, t, hm, congrArg Prod.snd ht, ?_⟩
  rw [heq (by decide) (by decide)]
  rfl

end Mksh
