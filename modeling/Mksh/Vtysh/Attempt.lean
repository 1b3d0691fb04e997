import Mksh.Vtysh.Basic

/-!
# Attempts

A line given to an executor, in a state, is an attempt. It reaches the handler
of an element or not, and the handler returns a status or exits: all there is
to know about the calls of an executor (`Attempt.runs_cmdExecute`).

The calls of an executor, and of the report on the status it returns, are those
of one attempt: none unless it reaches a handler, and two if this returns
`CMD_SUCCESS_DAEMON`, whatever the report, as long as it only calls the handler
of an element left to it (`Attempt.accounts`).
-/

namespace Mksh

open CString Process

variable {F W : Type}

/-! ## Attempts -/

/-- A line given to an executor, for the node of a `vty`, in a state. -/
structure Attempt (F W : Type) where
  exec : List (CmdElement F) → List CString → Outcome F
  ref : VtyRef
  vline : List CString
  state : State W

namespace Attempt

variable (sh : Shell F W) (a : Attempt F W)

/-- What dispatch makes of the words. -/
def outcome : Option (Outcome F) := sh.dispatch a.exec a.ref a.vline a.state

/-- The handler of the element `e` is called, and returns `ret`, in the state
    `s'`. -/
def Called (e : CmdElement F) (argv : List CString) (ret : ℤ) (s' : State W) : Prop :=
  a.outcome sh = some (.call e argv) ∧
    ∃ f, e.func = some f ∧ sh.handler f e a.ref argv a.state = some (ret, s')

/-- An element with a handler is selected: the executor calls it, or leaves it
    to the caller, which does. -/
def Reaches : Prop :=
  ∃ e argv, (a.outcome sh = some (.call e argv) ∨ a.outcome sh = some (.daemon e argv)) ∧
    e.func ≠ none

/-- A handler is called, and returns `CMD_SUCCESS_DAEMON`. -/
def Twice : Prop := ∃ e argv s', a.Called sh e argv cmdSuccessDaemon s'

/-- What an attempt does: the calls of the executor, and what it returns. -/
inductive Runs : List (Event F) → Option ((ℤ × Option (CmdElement F)) × State W) → Prop
  | crashes : ¬a.Reaches sh → (∀ ret, a.outcome sh ≠ some (.returns ret)) → Runs [] none
  | returns {ret : ℤ} : a.outcome sh = some (.returns ret) → Runs [] (some ((ret, none), a.state))
  | daemon {e : CmdElement F} {argv : List CString} : a.outcome sh = some (.daemon e argv) →
      Runs [] (some ((cmdSuccessDaemon, some e), a.state))
  | exits {e : CmdElement F} {argv : List CString} : a.Reaches sh →
      (∀ e argv ret s', ¬a.Called sh e argv ret s') → Runs [.invoke e a.ref argv] none
  | called {e : CmdElement F} {argv : List CString} {ret : ℤ} {s' : State W} :
      a.Called sh e argv ret s' → Runs [.invoke e a.ref argv] (some ((ret, some e), s'))

variable {sh : Shell F W} {a : Attempt F W}

/-- An attempt calls at most one handler. -/
theorem Called.unique {e e' : CmdElement F} {argv argv' : List CString} {ret ret' : ℤ}
    {s s' : State W} (h : a.Called sh e argv ret s) (h' : a.Called sh e' argv' ret' s') :
    e = e' ∧ argv = argv' ∧ ret = ret' ∧ s = s' := by
  obtain ⟨ho, f, hf, hs⟩ := h
  obtain ⟨ho', f', hf', hs'⟩ := h'
  rw [ho, Option.some.injEq, Outcome.call.injEq] at ho'
  obtain ⟨rfl, rfl⟩ := ho'
  obtain rfl : f = f' := by rw [hf] at hf'; exact Option.some.inj hf'
  rw [hs, Option.some.injEq, Prod.mk.injEq] at hs'
  exact ⟨rfl, rfl, hs'⟩

/-- What is called has a handler. -/
theorem Called.func_ne_none {e : CmdElement F} {argv : List CString} {ret : ℤ} {s' : State W}
    (h : a.Called sh e argv ret s') : e.func ≠ none := by
  obtain ⟨-, f, hf, -⟩ := h
  rw [hf]
  exact Option.some_ne_none f

/-- A call reaches the handler. -/
theorem Called.reaches {e : CmdElement F} {argv : List CString} {ret : ℤ} {s' : State W}
    (h : a.Called sh e argv ret s') : a.Reaches sh :=
  ⟨e, argv, .inl h.1, h.func_ne_none⟩

/-- So does one that is made twice. -/
theorem Twice.reaches (h : a.Twice sh) : a.Reaches sh := by
  obtain ⟨e, argv, s', hc⟩ := h
  exact hc.reaches

/-- The handler is called again iff it returns `CMD_SUCCESS_DAEMON`. -/
theorem Called.twice_iff {e : CmdElement F} {argv : List CString} {ret : ℤ} {s' : State W}
    (h : a.Called sh e argv ret s') : a.Twice sh ↔ ret = cmdSuccessDaemon := by
  constructor
  · rintro ⟨e', argv', s'', hc⟩
    exact (h.unique hc).2.2.1
  · rintro rfl
    exact ⟨e, argv, s', h⟩

/-- There is at most one call to speak of. -/
theorem Called.forall_iff {e : CmdElement F} {argv : List CString} {ret : ℤ} {s' : State W}
    (h : a.Called sh e argv ret s') {P : ℤ → State W → Prop} :
    (∀ e argv ret s', a.Called sh e argv ret s' → P ret s') ↔ P ret s' := by
  constructor
  · intro hall
    exact hall e argv ret s' h
  · rintro hp e' argv' ret' s'' h'
    obtain ⟨-, -, rfl, rfl⟩ := h.unique h'
    exact hp

/-- An executor that returns a code calls nothing. -/
theorem not_called_of_returns {r : ℤ} (h : a.outcome sh = some (.returns r)) {e : CmdElement F}
    {argv : List CString} {ret : ℤ} {s' : State W} : ¬a.Called sh e argv ret s' := by
  rintro ⟨ho, -⟩
  rw [h] at ho
  cases ho

theorem not_reaches_of_returns {r : ℤ} (h : a.outcome sh = some (.returns r)) :
    ¬a.Reaches sh := by
  rintro ⟨e, argv, ho, -⟩
  rw [h] at ho
  rcases ho with ho | ho <;> cases ho

/-- For an element of the daemon, the call is left to the caller. -/
theorem reaches_iff_of_daemon {e : CmdElement F} {argv : List CString}
    (h : a.outcome sh = some (.daemon e argv)) : a.Reaches sh ↔ e.func ≠ none := by
  constructor
  · rintro ⟨e', argv', ho, hf⟩
    rw [h] at ho
    rcases ho with ho | ho <;> cases ho
    exact hf
  · intro hf
    exact ⟨e, argv, .inr h, hf⟩

theorem not_called_of_daemon {e : CmdElement F} {argv : List CString}
    (h : a.outcome sh = some (.daemon e argv)) {e' : CmdElement F} {argv' : List CString} {ret : ℤ}
    {s' : State W} : ¬a.Called sh e' argv' ret s' := by
  rintro ⟨ho, -⟩
  rw [h] at ho
  cases ho

/-- What calling an executor does. -/
theorem runs_cmdExecute (sh : Shell F W) (a : Attempt F W) :
    a.Runs sh ((sh.cmdExecute a.exec a.ref a.vline).log a.state)
      ((sh.cmdExecute a.exec a.ref a.vline).result a.state) := by
  have hex : sh.cmdExecute a.exec a.ref a.vline a.state =
      sh.perform a.ref (a.outcome sh) a.state := rfl
  rw [log, result, hex]
  rcases ho : a.outcome sh with _ | ret | ⟨e, argv⟩ | ⟨e, argv⟩ | f
  · refine .crashes ?_ (by simp [ho])
    rintro ⟨_, _, h | h, _⟩ <;> simp [ho] at h
  · exact .returns ho
  · exact .daemon ho
  · rw [Shell.perform]
    rcases hf : e.func with _ | f
    · rw [sh.invoke_of_none hf]
      refine .crashes ?_ (by simp [ho])
      rintro ⟨e', argv', h | h, hne⟩ <;> simp [ho] at h
      exact hne (h.1 ▸ hf)
    · have hinv := sh.invoke_of_some hf a.ref argv a.state
      -- The handler is called; it does not return where the program exits.
      rcases hh : sh.handler f e a.ref argv a.state with _ | ⟨ret, s'⟩
      · rw [hh] at hinv
        rw [bind_of_none (congrArg Prod.snd hinv), log, hinv]
        refine .exits ⟨e, argv, .inl ho, by simp [hf]⟩ ?_
        rintro e' argv' ret s' ⟨ho', f', hf', hh'⟩
        rw [ho, Option.some.injEq, Outcome.call.injEq] at ho'
        obtain ⟨rfl, rfl⟩ := ho'
        rw [hf, Option.some.injEq] at hf'
        subst hf'
        rw [hh] at hh'
        cases hh'
      · rw [hh] at hinv
        rw [bind_of_some (congrArg Prod.snd hinv), log, hinv]
        exact .called ⟨ho, f, hf, hh⟩
  · refine .crashes ?_ (by simp [ho])
    rintro ⟨_, _, h | h, _⟩ <;> simp [ho] at h

end Attempt

/-! ## Counting the calls -/

/-- The calls that count are those on the `vty` of the file, and, if `shell`,
    those on the `vty` of the shell. -/
def VtyRef.counts (shell : Bool) : VtyRef → Bool
  | .shell => shell
  | .file => true

/-- The call of a handler, if it is counted. -/
def Event.isCall (shell : Bool) : Event F → Bool
  | .invoke _ ref _ => ref.counts shell
  | .print _ => false

namespace Attempt

variable (shell : Bool) (sh : Shell F W) (a : Attempt F W)

/-- The attempt calls a handler, which counts. -/
def Active : Prop := a.ref.counts shell ∧ a.Reaches sh

/-- The attempt calls a handler twice, which counts. -/
def ActiveTwice : Prop := a.ref.counts shell ∧ a.Twice sh

variable {shell sh a}

theorem ActiveTwice.active (h : a.ActiveTwice shell sh) : a.Active shell sh :=
  ⟨h.1, h.2.reaches⟩

/-- The error codes of an executor are no status of a handler left to the
    caller. -/
theorem ne_daemon_of_returns
    (hexec : ∀ table vline ret, a.exec table vline = .returns ret → IsError ret) {ret : ℤ}
    (h : a.outcome sh = some (.returns ret)) : ret ≠ cmdSuccessDaemon := by
  obtain ⟨table, -, htable⟩ := Option.map_eq_some_iff.1 h
  exact (hexec table a.vline ret htable).ne.2.1

/-- An attempt is accounted for by the number of its calls. -/
theorem accounts_of_countP {α : Type} {p : Command F W α} {s : State W} {k : ℕ}
    (h : (p.log s).countP (Event.isCall shell) = if a.ref.counts shell then k else 0)
    (hreaches : a.Reaches sh ↔ 0 < k) (htwice : a.Twice sh ↔ 1 < k) :
    Accounts (Event.isCall shell) (Active shell sh) (ActiveTwice shell sh) [a] p s := by
  refine .of_countP ?_ ?_
  · rw [h, Active, hreaches]
    split_ifs with hc <;> simp [hc]
  · rw [h, ActiveTwice, htwice]
    split_ifs with hc <;> simp [hc]

/-- An attempt accounts for the calls of an executor, and of a report on what it
    returns, if this only calls the handler of an element left to it. -/
theorem accounts {α : Type}
    (hexec : ∀ table vline ret, a.exec table vline = .returns ret → IsError ret)
    {report : ℤ × Option (CmdElement F) → Command F W α}
    (hquiet : ∀ ret cmd s, ret ≠ cmdSuccessDaemon →
      Quiet (Event.isCall shell) (report (ret, cmd)) s)
    (hdaemon : ∀ e s, ((report (cmdSuccessDaemon, some e)).log s).countP (Event.isCall shell) =
      if a.ref.counts shell then if e.func = none then 0 else 1 else 0) :
    Accounts (Event.isCall shell) (Active shell sh) (ActiveTwice shell sh) [a]
      (sh.cmdExecute a.exec a.ref a.vline >>= report) a.state := by
  have hruns := a.runs_cmdExecute sh
  generalize hes : (sh.cmdExecute a.exec a.ref a.vline).log a.state = es at hruns
  generalize hr : (sh.cmdExecute a.exec a.ref a.vline).result a.state = r at hruns
  cases hruns with
  | crashes hc _ =>
    refine accounts_of_countP (k := 0) ?_ (by simp [hc]) (by simp [mt Twice.reaches hc])
    rw [log_bind_of_none hr, hes, List.countP_nil, ite_self]
  | @returns ret ho =>
    have hc := not_reaches_of_returns ho
    refine accounts_of_countP (k := 0) ?_ (by simp [hc]) (by simp [mt Twice.reaches hc])
    rw [log_bind_of_some hr, hes, List.nil_append, ite_self]
    exact hquiet ret none a.state (ne_daemon_of_returns hexec ho)
  | @daemon e argv ho =>
    have ht : ¬a.Twice sh := fun ⟨_, _, _, h⟩ => not_called_of_daemon ho h
    refine accounts_of_countP (k := if e.func = none then 0 else 1) ?_
      ((reaches_iff_of_daemon ho).trans ?_) (iff_of_false ht ?_)
    · rw [log_bind_of_some hr, hes, List.nil_append, hdaemon]
    · split_ifs with hf <;> simp [hf]
    · split_ifs <;> simp
  | exits hc hn =>
    have ht : ¬a.Twice sh := fun ⟨_, _, _, h⟩ => hn _ _ _ _ h
    refine accounts_of_countP (k := 1) ?_ (by simp [hc]) (by simp [ht])
    rw [log_bind_of_none hr, hes, List.countP_singleton, Event.isCall]
  | @called e argv ret s' hc =>
    have hlog : ((sh.cmdExecute a.exec a.ref a.vline >>= report).log a.state).countP
        (Event.isCall shell) = (if a.ref.counts shell then 1 else 0) +
          ((report (ret, some e)).log s').countP (Event.isCall shell) := by
      rw [log_bind_of_some hr, hes, List.countP_append, List.countP_singleton, Event.isCall]
    rcases eq_or_ne ret cmdSuccessDaemon with rfl | hne
    · -- The report calls the handler again.
      have hf : e.func ≠ none := hc.func_ne_none
      refine accounts_of_countP (k := 2) ?_ (by simp [hc.reaches]) (by simp [hc.twice_iff])
      simp only [hlog, hdaemon, hf, if_false]
      split_ifs <;> rfl
    · refine accounts_of_countP (k := 1) ?_ (by simp [hc.reaches]) (by simp [hc.twice_iff, hne])
      rw [hlog, hquiet ret (some e) s' hne, Nat.add_zero]

end Attempt

end Mksh
