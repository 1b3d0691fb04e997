import Mksh.Vtysh.Attempt

/-!
# Calls of handlers by a line

How often a line calls a handler, whatever the handlers do. The status a
handler returns is taken for one of dispatch:

* for a line typed by the user, the handler is called again if it returns
  `CMD_SUCCESS_DAEMON`, and an error is reported if it returns that of one
  (`Shell.reportsProperly_iff`);
* a line of a configuration file whose handler returns another status than
  `CMD_SUCCESS`, `CMD_WARNING` and `CMD_SUCCESS_DAEMON` is tried again, as one
  that was refused is, after two lines given to the shell: these are the
  attempts of the line (`Shell.retryAttempts`), which account for all its
  further calls (`Shell.atMostOnce_vtyshConfigLine`).
-/

namespace Mksh

open CString Process

variable {F W : Type}

/-! ## Proper reports -/

/-- The reports of an error of dispatch. -/
def IsErrorReport (text : CString) : Prop :=
  text = "% Ambiguous command.\n".toList ∨ text = "% Unknown command.\n".toList ∨
    text = "% Command incomplete.\n".toList

/-- At most one handler is called, once, and none if an error is reported. -/
structure ReportsProperly (es : List (Event F)) : Prop where
  once : es.countP (Event.isCall true) ≤ 1
  report : ∀ text, IsErrorReport text → .print text ∈ es → es.countP (Event.isCall true) = 0

/-- The statuses that mean something else when dispatch returns them. -/
def IsReserved (ret : ℤ) : Prop :=
  ret = cmdErrAmbiguous ∨ ret = cmdErrNoMatch ∨ ret = cmdErrIncomplete ∨ ret = cmdSuccessDaemon

/-- A line that prints nothing and calls at most one handler reports properly. -/
theorem reportsProperly_of_print_notMem {es : List (Event F)}
    (h : es.countP (Event.isCall true) ≤ 1) (hprint : ∀ text, .print text ∉ es) :
    ReportsProperly es :=
  ⟨h, fun text _ hmem => absurd hmem (hprint text)⟩

namespace Shell

variable (sh : Shell F W) {shell : Bool}

theorem quiet_print (text : String) (s : State W) :
    Quiet (Event.isCall shell) (print text : Command F W Unit) s :=
  quiet_emit.2 rfl

/-- Calling the handler of a daemon logs the call, without arguments. -/
theorem log_invokeDaemon (ref : VtyRef) (e : CmdElement F) (s : State W) :
    (sh.invokeDaemon ref (some e)).log s = if e.func = none then [] else [.invoke e ref []] := by
  rw [invokeDaemon]
  rcases hf : e.func with _ | f
  · rfl
  · rw [if_neg (Option.some_ne_none f), if_neg (Option.some_ne_none f), log_bind_pure, log,
      sh.invoke_of_some hf]

/-- It is one call, if there is a handler. -/
theorem countP_invokeDaemon (ref : VtyRef) (e : CmdElement F) (s : State W) :
    ((sh.invokeDaemon ref (some e)).log s).countP (Event.isCall shell) =
      if ref.counts shell then if e.func = none then 0 else 1 else 0 := by
  rw [log_invokeDaemon]
  by_cases hf : e.func = none
  · rw [if_pos hf, if_pos hf, List.countP_nil, ite_self]
  · rw [if_neg hf, if_neg hf, List.countP_singleton, Event.isCall]

/-- Reporting any other status makes no call. -/
theorem quiet_reportExecute {ret : ℤ} (h : ret ≠ cmdSuccessDaemon) (cmd : Option (CmdElement F))
    (s : State W) : Quiet (Event.isCall shell) (sh.reportExecute ret cmd) s := by
  rw [reportExecute, if_neg h]
  split_ifs
  all_goals first
    | exact quiet_print _ s
    | exact quiet_pure _ s

/-- So it is for a line of the file. -/
theorem quiet_reportConfig (buf : CString) {ret : ℤ} (h : ret ≠ cmdSuccessDaemon)
    (cmd : Option (CmdElement F)) (s : State W) :
    Quiet (Event.isCall shell) (sh.reportConfig buf ret cmd) s := by
  rw [reportConfig, if_neg h]
  split_ifs
  all_goals first
    | exact quiet_print _ s
    | exact quiet_emit.2 rfl
    | exact quiet_pure _ s

theorem reportExecute_daemon (cmd : Option (CmdElement F)) :
    sh.reportExecute cmdSuccessDaemon cmd = sh.invokeDaemon .shell cmd := rfl

theorem reportConfig_daemon (buf : CString) (cmd : Option (CmdElement F)) :
    sh.reportConfig buf cmdSuccessDaemon cmd = sh.invokeDaemon .file cmd := rfl

/-! ## Lines given to the shell -/

/-- The attempt of a line given to the shell, unless it is a password, or has
    no words. -/
def executeAttempts (line : CString) (s : State W) : List (Attempt F W) :=
  if s.shell.node = .authEnable then []
  else (cmdMakeStrvec line).toList.map fun vline => ⟨cmdExecuteCommand, .shell, vline, s⟩

/-- The words of a typed line make one attempt. -/
theorem accounts_vtyshExecuteFunc {line : CString} {vline : List CString}
    (h : cmdMakeStrvec line = some vline) (s : State W) :
    Accounts (Event.isCall shell) (Attempt.Active shell sh) (Attempt.ActiveTwice shell sh)
      [⟨cmdExecuteCommand, .shell, vline, s⟩] (sh.vtyshExecuteFunc line) s := by
  rw [vtyshExecuteFunc, h]
  refine Attempt.accounts (a := ⟨cmdExecuteCommand, .shell, vline, s⟩)
    (fun _ _ _ => isError_of_returns) ?_ ?_
  · intro ret cmd s' hret
    rw [Quiet, log_bind_pure]
    exact sh.quiet_reportExecute hret cmd s'
  · intro e s'
    rw [log_bind_pure]
    exact sh.countP_invokeDaemon .shell e s'

/-- Entering a password makes no call. -/
theorem quiet_enterPassword (line : CString) (s : State W) :
    Quiet (Event.isCall shell) (sh.enterPassword line) s := by
  rw [Quiet, log, enterPassword, get_bind, ← log, ← Quiet]
  split
  · exact quiet_halt s
  · exact quiet_bind.2 ⟨quiet_modify _ s, fun _ _ _ => quiet_pure _ _⟩
  · refine quiet_bind.2 ⟨quiet_modify _ s, fun _ s' _ => ?_⟩
    split_ifs
    · exact quiet_bind.2 ⟨quiet_print _ s', fun _ _ _ => quiet_halt _⟩
    · exact quiet_bind.2 ⟨quiet_print _ s', fun _ _ _ => quiet_pure _ _⟩

/-- A typed line makes the attempts of its words. -/
theorem accounts_vtyshExecute (line : CString) (s : State W) :
    Accounts (Event.isCall shell) (Attempt.Active shell sh) (Attempt.ActiveTwice shell sh)
      (executeAttempts line s) (sh.vtyshExecute line) s := by
  have heq : sh.vtyshExecute line s =
      (if s.shell.node = .authEnable then sh.enterPassword line else sh.vtyshExecuteFunc line) s :=
    rfl
  rw [executeAttempts]
  split_ifs at heq ⊢ with hnode
  · exact (Accounts.of_quiet (sh.quiet_enterPassword line s)).congr heq
  · refine Accounts.congr ?_ heq
    rcases hv : cmdMakeStrvec line with _ | vline
    · rw [vtyshExecuteFunc, hv]
      exact .of_quiet (quiet_pure _ s)
    · exact sh.accounts_vtyshExecuteFunc hv s

/-! ## Lines of a configuration file -/

/-- The attempts of trying a line of the file again. -/
def retryAttempts (vline : List CString) (s : State W) : List (Attempt F W) :=
  executeAttempts "end".toList s ++ after (sh.vtyshExecute "end".toList) (fun s =>
    executeAttempts "configure terminal".toList s ++
      after (sh.vtyshExecute "configure terminal".toList) (fun s =>
        [⟨cmdExecuteCommandStrict, .file, vline, { s with file.node := .config }⟩]) s) s

/-- A line of the file is tried again at the nodes above. -/
theorem accounts_retryConfig (buf : CString) (vline : List CString) (cmd : Option (CmdElement F))
    (s : State W) :
    Accounts (Event.isCall shell) (Attempt.Active shell sh) (Attempt.ActiveTwice shell sh)
      (sh.retryAttempts vline s) (sh.retryConfig buf vline cmd) s := by
  have htwice (a : Attempt F W) : a.ActiveTwice shell sh → a.Active shell sh :=
    Attempt.ActiveTwice.active
  refine (sh.accounts_vtyshExecute _ s).bind htwice fun _ s₁ _ => ?_
  refine (sh.accounts_vtyshExecute _ s₁).bind htwice fun _ s₂ _ => ?_
  refine Accounts.congr (Attempt.accounts (a := ⟨_, .file, vline, _⟩)
    (fun _ _ _ => isError_of_returns) ?_ ?_) (setConfigNode_bind _ s₂)
  · intro ret cmd' s' hret
    exact sh.quiet_reportConfig buf hret _ s'
  · intro e s'
    exact sh.countP_invokeDaemon .file e s'

/-- The condition on a line `buf` of the file, in the state `s`: its handler, if
    it is called, returns a status with which the line is not tried again, or one
    with which it is, when the attempts of trying again reach none; if it is
    refused, at most one of these attempts reaches a handler, which does not
    return `CMD_SUCCESS_DAEMON`. -/
def ConfigSingle (shell : Bool) (buf : CString) (s : State W) : Prop :=
  buf.head? ≠ some '#' → ∀ vline, cmdMakeStrvec buf = some vline →
    (∀ e argv ret s',
      Attempt.Called sh ⟨cmdExecuteCommandStrict, .file, vline, s⟩ e argv ret s' →
      ret = cmdSuccess ∨ ret = cmdWarning ∨
        (ret ≠ cmdSuccessDaemon ∧ ∀ a ∈ sh.retryAttempts vline s', ¬a.Active shell sh)) ∧
    (∀ ret, Attempt.outcome sh ⟨cmdExecuteCommandStrict, .file, vline, s⟩ = some (.returns ret) →
      Single (Attempt.Active shell sh) (Attempt.ActiveTwice shell sh) (sh.retryAttempts vline s))

/-- After the call of a handler, which returned `ret`, none is called again exactly if the line is
    not tried again, and not for a daemon, or if trying again reaches none. -/
theorem countP_invoke_le_one_iff {e : CmdElement F} (hfunc : e.func ≠ none) (buf : CString)
    (vline argv : List CString) (ret : ℤ) (s : State W) :
    ([Event.invoke e .file argv] ++
      (if ret ≠ cmdSuccess ∧ ret ≠ cmdSuccessDaemon ∧ ret ≠ cmdWarning then
        sh.retryConfig buf vline (some e)
      else sh.reportConfig buf ret (some e)).log s).countP (Event.isCall shell) ≤ 1 ↔
    (ret = cmdSuccess ∨ ret = cmdWarning ∨
      (ret ≠ cmdSuccessDaemon ∧ ∀ a ∈ sh.retryAttempts vline s, ¬a.Active shell sh)) := by
  have hone : [Event.invoke e .file argv].countP (Event.isCall shell) = 1 := rfl
  rw [List.countP_append, hone]
  split_ifs with hret
  · -- The line is tried again.
    rw [or_iff_right hret.1, or_iff_right hret.2.2, and_iff_right hret.2.1,
      ← (sh.accounts_retryConfig buf vline (some e) s).quiet, Quiet]
    omega
  · rcases eq_or_ne ret cmdSuccessDaemon with rfl | hne
    · -- The handler is called again.
      rw [reportConfig_daemon, countP_invokeDaemon, if_neg hfunc]
      simp [VtyRef.counts, cmdSuccessDaemon, cmdSuccess, cmdWarning]
    · rw [sh.quiet_reportConfig buf hne (some e) s]
      exact iff_of_true le_rfl (by tauto)

/-- One execution of a line of the file, and the attempts of trying it again. -/
theorem atMostOnce_executeConfig (buf : CString) (vline : List CString) (s : State W) :
    AtMostOnce (Event.isCall shell) (sh.executeConfig buf vline) s ↔
      (∀ e argv ret s',
        Attempt.Called sh ⟨cmdExecuteCommandStrict, .file, vline, s⟩ e argv ret s' →
        ret = cmdSuccess ∨ ret = cmdWarning ∨
          (ret ≠ cmdSuccessDaemon ∧ ∀ a ∈ sh.retryAttempts vline s', ¬a.Active shell sh)) ∧
      (∀ ret,
        Attempt.outcome sh ⟨cmdExecuteCommandStrict, .file, vline, s⟩ = some (.returns ret) →
        Single (Attempt.Active shell sh) (Attempt.ActiveTwice shell sh)
          (sh.retryAttempts vline s)) := by
  let a : Attempt F W := ⟨cmdExecuteCommandStrict, .file, vline, s⟩
  change _ ↔ (∀ e argv ret s', a.Called sh e argv ret s' → _) ∧
    ∀ ret, a.outcome sh = some (.returns ret) → _
  have hruns : a.Runs sh ((sh.cmdExecute cmdExecuteCommandStrict .file vline).log s)
      ((sh.cmdExecute cmdExecuteCommandStrict .file vline).result s) := a.runs_cmdExecute sh
  generalize hes : (sh.cmdExecute cmdExecuteCommandStrict .file vline).log s = es at hruns
  generalize hr : (sh.cmdExecute cmdExecuteCommandStrict .file vline).result s = r at hruns
  rw [executeConfig, AtMostOnce]
  cases hruns with
  | crashes hc hn =>
    rw [log_bind_of_none hr, hes]
    exact iff_of_true (Nat.zero_le 1)
      ⟨fun _ _ _ _ h => absurd h.reaches hc, fun ret h => absurd h (hn ret)⟩
  | @returns ret ho =>
    have hret : ret ≠ cmdSuccess ∧ ret ≠ cmdSuccessDaemon ∧ ret ≠ cmdWarning := by
      obtain ⟨table, -, htable⟩ := Option.map_eq_some_iff.1 ho
      exact (isError_of_returns htable).ne
    rw [log_bind_of_some hr, hes, List.nil_append]
    dsimp only
    -- Nothing was called, and the line is tried again.
    rw [if_pos hret, ← AtMostOnce, (sh.accounts_retryConfig buf vline none s).atMostOnce]
    exact ⟨fun h => ⟨fun _ _ _ _ hc => absurd hc (Attempt.not_called_of_returns ho), fun _ _ => h⟩,
      fun h => h.2 ret ho⟩
  | @daemon e argv ho =>
    rw [log_bind_of_some hr, hes, List.nil_append]
    dsimp only
    rw [if_neg (by decide), reportConfig_daemon, countP_invokeDaemon]
    refine iff_of_true (by split_ifs <;> simp)
      ⟨fun _ _ _ _ hc => absurd hc (Attempt.not_called_of_daemon ho), ?_⟩
    intro ret h
    rw [ho] at h
    cases h
  | exits hc hn =>
    rw [log_bind_of_none hr, hes]
    exact iff_of_true List.countP_le_length
      ⟨fun e argv ret s' h => absurd h (hn e argv ret s'),
        fun ret h => absurd hc (Attempt.not_reaches_of_returns h)⟩
  | @called e argv ret s' hc =>
    have hnr (ret' : ℤ) : a.outcome sh ≠ some (.returns ret') := fun h =>
      Attempt.not_reaches_of_returns h hc.reaches
    rw [log_bind_of_some hr, hes, and_iff_left fun ret h => absurd h (hnr ret), hc.forall_iff]
    exact sh.countP_invoke_le_one_iff hc.func_ne_none buf vline argv ret s'

/-- The condition is exact for each line of the file. -/
theorem atMostOnce_vtyshConfigLine (buf : CString) (s : State W) :
    AtMostOnce (Event.isCall shell) (sh.vtyshConfigLine buf) s ↔
      sh.ConfigSingle shell buf s := by
  rw [vtyshConfigLine, ConfigSingle]
  split_ifs with hc hb
  · exact iff_of_true (quiet_pure _ s).atMostOnce fun h => absurd hc h
  · -- A comment: only the node is set.
    rw [cmdMakeStrvec_comment hb]
    exact iff_of_true (Nat.zero_le 1) fun _ _ h => nomatch h
  · rcases hv : cmdMakeStrvec buf with _ | vline
    · exact iff_of_true (Nat.zero_le 1) fun _ _ h => nomatch h
    · refine (sh.atMostOnce_executeConfig buf vline s).trans ⟨?_, fun h => h hc vline rfl⟩
      rintro h - _ ⟨⟩
      exact h

/-! ## Reports on a line of the user -/

/-- The report on a status that is not reserved is empty. -/
theorem log_reportExecute {ret : ℤ} (h : ¬IsReserved ret) (cmd : Option (CmdElement F))
    (s : State W) : (sh.reportExecute ret cmd).log s = [] := by
  simp only [IsReserved, not_or] at h
  rw [reportExecute, if_neg h.1, if_neg h.2.1, if_neg h.2.2.1, if_neg h.2.2.2, ite_self]
  rfl

/-- A reserved status other than that of a daemon is reported as an error. -/
theorem log_reportExecute_error {ret : ℤ} (h : IsReserved ret) (hne : ret ≠ cmdSuccessDaemon)
    (cmd : Option (CmdElement F)) (s : State W) :
    ∃ text, IsErrorReport text ∧ (sh.reportExecute ret cmd).log s = [.print text] := by
  rcases h with rfl | rfl | rfl | rfl
  · exact ⟨_, .inl rfl, rfl⟩
  · exact ⟨_, .inr (.inl rfl), rfl⟩
  · exact ⟨_, .inr (.inr rfl), rfl⟩
  · exact absurd rfl hne

/-- The log of a typed line is that of its attempt and of the report. -/
theorem log_vtyshExecuteFunc {line : CString} {vline : List CString}
    (h : cmdMakeStrvec line = some vline) (s : State W) :
    (sh.vtyshExecuteFunc line).log s =
      (sh.cmdExecute cmdExecuteCommand .shell vline >>= fun p =>
        sh.reportExecute p.1 p.2).log s := by
  rw [vtyshExecuteFunc, h]
  rcases hr : (sh.cmdExecute cmdExecuteCommand .shell vline).result s with _ | ⟨⟨ret, cmd⟩, s'⟩
  · exact (log_bind_of_none hr).trans (log_bind_of_none hr).symm
  · refine (log_bind_of_some hr).trans ((congrArg _ ?_).trans (log_bind_of_some hr).symm)
    exact log_bind_pure _

/-- The first call of the handler of a line is not reported on. -/
theorem reportsProperly_invokeDaemon (ref : VtyRef) (e : CmdElement F) (s : State W) :
    ReportsProperly ((sh.invokeDaemon ref (some e)).log s) := by
  rw [log_invokeDaemon]
  refine reportsProperly_of_print_notMem ?_ fun text => ?_
  · exact List.countP_le_length.trans (by split_ifs <;> simp)
  · split_ifs <;> simp

/-- After the call of a handler, which returned `ret`, the report is proper if the status is not
    taken for one of dispatch. -/
theorem reportsProperly_invoke_iff {e : CmdElement F} (hfunc : e.func ≠ none)
    (argv : List CString) (ret : ℤ) (s : State W) :
    ReportsProperly ([Event.invoke e .shell argv] ++ (sh.reportExecute ret (some e)).log s) ↔
      ¬IsReserved ret := by
  have hone : [Event.invoke e .shell argv].countP (Event.isCall true) = 1 := rfl
  rcases eq_or_ne ret cmdSuccessDaemon with rfl | hne
  · -- The handler is called again.
    refine iff_of_false ?_ fun h => h (.inr (.inr (.inr rfl)))
    intro h
    have honce := h.once
    rw [reportExecute_daemon, log_invokeDaemon, if_neg hfunc] at honce
    exact Nat.not_succ_le_self 1 honce
  by_cases hret : IsReserved ret
  · -- An error is reported.
    obtain ⟨text, htext, hlog⟩ := sh.log_reportExecute_error hret hne (some e) s
    refine iff_of_false ?_ fun h => h hret
    intro h
    have hreport := h.report text htext (by simp [hlog])
    rw [List.countP_append, hone] at hreport
    omega
  · rw [sh.log_reportExecute hret, List.append_nil]
    exact iff_of_true (reportsProperly_of_print_notMem List.countP_le_length (by simp)) hret

/-- A line of the user is reported on properly if and only if the handler it
    calls, if any, returns no reserved status. -/
theorem reportsProperly_iff (line : CString) (s : State W) :
    ReportsProperly ((sh.vtyshExecuteFunc line).log s) ↔
      ∀ vline, cmdMakeStrvec line = some vline → ∀ e argv ret s',
        Attempt.Called sh ⟨cmdExecuteCommand, .shell, vline, s⟩ e argv ret s' →
        ¬IsReserved ret := by
  rcases hv : cmdMakeStrvec line with _ | vline
  · rw [vtyshExecuteFunc, hv]
    exact iff_of_true (reportsProperly_of_print_notMem (Nat.zero_le 1) fun _ => List.not_mem_nil)
      fun _ h => nomatch h
  let a : Attempt F W := ⟨cmdExecuteCommand, .shell, vline, s⟩
  have hruns : a.Runs sh ((sh.cmdExecute cmdExecuteCommand .shell vline).log s)
      ((sh.cmdExecute cmdExecuteCommand .shell vline).result s) := a.runs_cmdExecute sh
  suffices h : ReportsProperly ((sh.vtyshExecuteFunc line).log s) ↔
      ∀ e argv ret s', a.Called sh e argv ret s' → ¬IsReserved ret by
    rw [h]
    refine ⟨?_, fun h => h vline rfl⟩
    rintro h _ ⟨⟩
    exact h
  rw [sh.log_vtyshExecuteFunc hv]
  generalize hes : (sh.cmdExecute cmdExecuteCommand .shell vline).log s = es at hruns
  generalize hr : (sh.cmdExecute cmdExecuteCommand .shell vline).result s = r at hruns
  -- The five ways an attempt may end: only the last one has a status of a handler.
  cases hruns with
  | crashes hc _ =>
    rw [log_bind_of_none hr, hes]
    exact iff_of_true (reportsProperly_of_print_notMem (Nat.zero_le 1) fun _ => List.not_mem_nil)
      fun _ _ _ _ h => absurd h.reaches hc
  | @returns ret ho =>
    have hret : ret ≠ cmdSuccessDaemon :=
      Attempt.ne_daemon_of_returns (fun _ _ _ => isError_of_returns) ho
    rw [log_bind_of_some hr, hes, List.nil_append]
    have h0 : Quiet (Event.isCall true) (sh.reportExecute ret none) s :=
      sh.quiet_reportExecute hret none s
    exact iff_of_true ⟨h0.atMostOnce, fun _ _ _ => h0⟩
      fun _ _ _ _ h => absurd h (Attempt.not_called_of_returns ho)
  | @daemon e argv ho =>
    rw [log_bind_of_some hr, hes, List.nil_append, reportExecute_daemon]
    exact iff_of_true (sh.reportsProperly_invokeDaemon .shell e s)
      fun _ _ _ _ h => absurd h (Attempt.not_called_of_daemon ho)
  | @exits e argv hc hn =>
    rw [log_bind_of_none hr, hes]
    exact iff_of_true (reportsProperly_of_print_notMem List.countP_le_length (by simp))
      fun e argv ret s' h => absurd h (hn e argv ret s')
  | @called e argv ret s' hc =>
    rw [log_bind_of_some hr, hes, hc.forall_iff]
    exact sh.reportsProperly_invoke_iff hc.func_ne_none argv ret s'

/-- The log of a configuration file is that of the lines it reads. -/
theorem log_vtyshConfigFromFile (file : CString) (s : State W) :
    (sh.vtyshConfigFromFile (some file)).log s =
      (entries sh.vtyshConfigLine (configLines file) s).flatMap fun p =>
        (sh.vtyshConfigLine p.1).log p.2 := by
  rw [vtyshConfigFromFile, log_bind_pure, log_forEach]

/-- Exactly when a line calls at most one handler, once: a line of the user,
    which is also reported on properly; and each line read from a configuration
    file. -/
theorem calls_once_iff :
    (∀ line s, ReportsProperly ((sh.vtyshExecuteFunc line).log s) ↔
      ∀ vline, cmdMakeStrvec line = some vline → ∀ e argv ret s',
        Attempt.Called sh ⟨cmdExecuteCommand, .shell, vline, s⟩ e argv ret s' →
        ¬IsReserved ret) ∧
    ∀ shell file s,
      (sh.vtyshConfigFromFile (some file)).log s =
        ((entries sh.vtyshConfigLine (configLines file) s).flatMap fun p =>
          (sh.vtyshConfigLine p.1).log p.2) ∧
      ∀ p ∈ entries sh.vtyshConfigLine (configLines file) s,
        AtMostOnce (Event.isCall shell) (sh.vtyshConfigLine p.1) p.2 ↔
          sh.ConfigSingle shell p.1 p.2 :=
  ⟨sh.reportsProperly_iff, fun _ file s => ⟨sh.log_vtyshConfigFromFile file s,
    fun p _ => sh.atMostOnce_vtyshConfigLine p.1 p.2⟩⟩

end Shell

/-- The commands of the tools, with handlers that only return a status, as the
    exit status of a child process is. -/
def toolShell (status : ToolFunc → ℤ) : Shell ToolFunc Unit where
  cmdvec
    | .enable => some enableNode
    | .project => some projectNode
    | _ => none
  handler f _ _ _ s := some (status f, s)
  crypt _ _ := none

/-- The shell at a node, with nothing else. -/
def toolState (node : NodeType) : State Unit where
  shell := ⟨node⟩
  file := ⟨.config⟩
  host := ⟨none, 0⟩
  world := ()

/-- `password` calls its handler twice when `passwd` exits with 10; `ls nosuch`
    is an unknown command when `ls` exits with 2, after having run. -/
theorem vtyshExecuteFunc_status :
    ¬ReportsProperly (((toolShell fun _ => 10).vtyshExecuteFunc "password".toList).log
      (toolState .enable)) ∧
    ¬ReportsProperly (((toolShell fun _ => 2).vtyshExecuteFunc "ls nosuch".toList).log
      (toolState .project)) := by
  constructor
  · intro h
    exact absurd h.once (by decide +kernel)
  · intro h
    exact absurd (h.report _ (.inr (.inl rfl)) (by decide +kernel)) (by decide +kernel)

end Mksh
