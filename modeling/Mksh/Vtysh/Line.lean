import Mksh.Command.Argv
import Mksh.Command.Quoted
import Mksh.Lib.Ensures
import Mksh.Vtysh.Basic

/-!
# Runs of the shell

What holds after a line holds after the handler it calls (`Shell.Calls`), called
once, or twice if it returns `CMD_SUCCESS_DAEMON` (`Shell.ensures_vtyshExecute`).
A run of the shell executes line after line, each of which has to meet a
condition (`Shell.Reaches`), and keeps what these keep.
-/

namespace Mksh

open CString Process

variable {F W : Type}

namespace Shell

variable (sh : Shell F W)

/-- The line calls the handler of an element, with arguments. -/
def Calls (line : CString) (s : State W) (e : CmdElement F) (argv : List CString) : Prop :=
  ∃ vline, cmdMakeStrvec line = some vline ∧
    sh.dispatch cmdExecuteCommand .shell vline s = some (.call e argv)

variable {sh} {s s₀ : State W} {line : CString} {vline argv : List CString} {e : CmdElement F}
  {ref : VtyRef} {I : State W → Prop}

/-- What is called is installed in the node, with words of the line. -/
theorem Calls.mem (h : sh.Calls line s e argv) :
    (∃ table, sh.cmdvec s.shell.node = some table ∧ e ∈ table) ∧ ∀ w ∈ argv, w ≠ [] := by
  obtain ⟨vline, hvline, h⟩ := h
  obtain ⟨table, htable, hcall⟩ := Option.map_eq_some_iff.1 h
  have hselects : (cmdExecuteWith (filterBy completionClass) table vline).Selects e argv :=
    .inl hcall
  obtain ⟨he, hargv⟩ := mem_of_selects hselects
  exact ⟨⟨table, htable, he⟩, fun w hw => ((cmdMakeStrvec_words hvline).2 w (hargv w hw)).1⟩

/-- What a handler ensures, its invocation does. -/
theorem ensures_invoke {Q : ℤ → State W → Prop} : Ensures (sh.invoke e ref argv) Q s ↔
    ∀ f, e.func = some f → ∀ ret s', sh.handler f e ref argv s = some (ret, s') → Q ret s' := by
  rcases hf : e.func with _ | f
  · rw [sh.invoke_of_none hf]
    exact iff_of_true (ensures_halt.2 trivial) fun _ h => nomatch h
  · have hresult : (sh.invoke e ref argv).result s = sh.handler f e ref argv s :=
      congrArg Prod.snd (sh.invoke_of_some hf ref argv s)
    rw [Ensures, hresult]
    simp only [Option.some.injEq, forall_eq']

/-- Calling an executor changes nothing, unless it calls a handler. -/
theorem ensures_cmdExecute {exec : List (CmdElement F) → List CString → Outcome F}
    {Q : ℤ × Option (CmdElement F) → State W → Prop}
    (hreturns : ∀ ret, sh.dispatch exec ref vline s = some (.returns ret) → Q (ret, none) s)
    (hdaemon : ∀ e argv, sh.dispatch exec ref vline s = some (.daemon e argv) →
      Q (cmdSuccessDaemon, some e) s)
    (hcall : ∀ e argv, sh.dispatch exec ref vline s = some (.call e argv) →
      ∀ f, e.func = some f → ∀ ret s', sh.handler f e ref argv s = some (ret, s') →
        Q (ret, some e) s') :
    Ensures (sh.cmdExecute exec ref vline) Q s := by
  rw [cmdExecute, ensures_bind, ensures_get]
  rcases ho : sh.dispatch exec ref vline s with _ | ret | ⟨e, argv⟩ | ⟨e, argv⟩ | f
  · exact ensures_halt.2 trivial
  · exact ensures_pure.2 (hreturns ret ho)
  · exact ensures_pure.2 (hdaemon e argv ho)
  · rw [perform, ensures_bind, ensures_invoke]
    intro f hf ret s' hret
    exact ensures_pure.2 (hcall e argv ho f hf ret s' hret)
  · exact ensures_halt.2 trivial

/-- Reporting a status keeps an invariant. -/
theorem ensures_reportExecute {ret : ℤ} (h : ret ≠ cmdSuccessDaemon) (cmd : Option (CmdElement F))
    (hs : I s) : Ensures (sh.reportExecute ret cmd) (fun _ => I) s := by
  rw [reportExecute, if_neg h]
  split_ifs
  all_goals first
    | exact ensures_pure.2 hs
    | exact ensures_emit.2 hs

/-- What is left to the caller is an element of a daemon. -/
theorem daemon_of_cmdExecuteWith {filter : Filter F} {table : List (CmdElement F)}
    (h : cmdExecuteWith filter table vline = .daemon e argv) : e.daemon ≠ 0 := by
  rw [cmdExecuteWith] at h
  split at h
  · cases h
  next e' _ =>
    rw [cmdCallElement] at h
    split at h
    · cases h
    · cases h
    · split_ifs at h with hd
      obtain ⟨rfl, -⟩ := Outcome.daemon.inj h
      exact hd

/-- What a line keeps, given what the handler it calls does. -/
theorem ensures_vtyshExecute (hauth : s.shell.node ≠ .authEnable)
    (hdaemon : ∀ table, sh.cmdvec s.shell.node = some table → ∀ e ∈ table, e.daemon = 0) (hs : I s)
    (hcall : ∀ e argv, sh.Calls line s e argv → ∀ f, e.func = some f →
      ∀ ret s', sh.handler f e .shell argv s = some (ret, s') →
        (ret ≠ cmdSuccessDaemon → I s') ∧ (ret = cmdSuccessDaemon →
          ∀ ret' s'', sh.handler f e .shell [] s' = some (ret', s'') → I s'')) :
    Ensures (sh.vtyshExecute line) (fun _ => I) s := by
  rw [vtyshExecute, ensures_bind, ensures_get, if_neg hauth, vtyshExecuteFunc]
  rcases hvline : cmdMakeStrvec line with _ | vline
  · exact ensures_pure.2 hs
  refine ensures_bind.2 (ensures_cmdExecute ?_ ?_ ?_)
  · intro ret hret
    obtain ⟨table, -, htable⟩ := Option.map_eq_some_iff.1 hret
    have hne : ret ≠ cmdSuccessDaemon := (isError_of_returns htable).ne.2.1
    refine ensures_bind.2 ((ensures_reportExecute hne none hs).mono fun _ s' h => ?_)
    exact ensures_pure.2 h
  · intro e argv hd
    obtain ⟨table, htable, hd⟩ := Option.map_eq_some_iff.1 hd
    have hselects : (cmdExecuteWith (filterBy completionClass) table vline).Selects e argv :=
      .inr hd
    exact absurd (hdaemon table htable e (mem_of_selects hselects).1) (daemon_of_cmdExecuteWith hd)
  · intro e argv hc f hf ret s' hret
    obtain ⟨hone, htwice⟩ := hcall e argv ⟨vline, hvline, hc⟩ f hf ret s' hret
    refine ensures_bind.2 ?_
    rcases eq_or_ne ret cmdSuccessDaemon with rfl | hne
    · -- The report calls the handler again.
      have hsome : e.func ≠ none := by simp [hf]
      change Ensures (sh.invokeDaemon .shell (some e)) _ s'
      rw [invokeDaemon, if_neg hsome, ensures_bind, ensures_invoke]
      intro f' hf' ret' s'' hret'
      obtain rfl := Option.some.inj (hf.symm.trans hf')
      exact ensures_pure.2 (ensures_pure.2 (htwice rfl ret' s'' hret'))
    · refine (ensures_reportExecute hne (some e) (hone hne)).mono fun _ s'' h => ?_
      exact ensures_pure.2 h

/-! ## Configuration files -/

/-- Nothing is found in an empty vector. -/
theorem exists_returns_of_nil (exec : CString → CString → MatchType) (vline : List CString) :
    ∃ ret, cmdExecuteWith (filterBy exec) ([] : List (CmdElement F)) vline = .returns ret := by
  rcases ho : cmdFindElement (filterBy exec) ([] : List (CmdElement F)) vline with ret | e
  · exact ⟨ret, by rw [cmdExecuteWith, ho]⟩
  · obtain ⟨_, _, _, hend⟩ := exists_matchEnd ho
    exact absurd hend.mem_table List.not_mem_nil

/-- So does going to the node of the file, if it is kept there. -/
theorem ensures_setConfigNode (hnode : s.file.node = .config) (hs : I s) :
    Ensures (setConfigNode : Command F W Unit) (fun _ => I) s := by
  have hsame : { s with file.node := .config } = s := by rw [← hnode]
  rw [setConfigNode, ensures_modify, hsame]
  exact hs

/-- Reporting that of a line of the file keeps it. -/
theorem ensures_reportConfig {buf : CString} {ret : ℤ} (h : ret ≠ cmdSuccessDaemon)
    (cmd : Option (CmdElement F)) (hs : I s) :
    Ensures (sh.reportConfig buf ret cmd) (fun _ => I) s := by
  rw [reportConfig, if_neg h]
  split_ifs
  all_goals first
    | exact ensures_pure.2 hs
    | exact ensures_emit.2 hs

/-! What loading a file keeps, given what the two lines keep that are tried for
each line of the file: nothing is executed in the config node. -/

section Config

variable (hconfig : sh.cmdvec .config = some []) (hnode : ∀ s, I s → s.file.node = .config)
include hconfig hnode

/-- An executor on a line of the file ensures what its error codes and its handlers do. -/
theorem ensures_cmdExecute_config {Q : ℤ × Option (CmdElement F) → State W → Prop} (hs : I s)
    (hreturns : ∀ ret, IsError ret → Q (ret, none) s) :
    Ensures (sh.cmdExecute cmdExecuteCommandStrict .file vline) Q s := by
  obtain ⟨ret, hret⟩ := exists_returns_of_nil (F := F) stringClass vline
  have hd : sh.dispatch cmdExecuteCommandStrict .file vline s = some (.returns ret) := by
    rw [dispatch, State.vty, hnode s hs, hconfig]
    exact congrArg some hret
  refine ensures_cmdExecute ?_ ?_ ?_
  · intro ret' hret'
    obtain rfl := Outcome.returns.inj (Option.some.inj (hd.symm.trans hret'))
    exact hreturns ret (isError_of_returns hret)
  · intro e argv he
    exact nomatch hd.symm.trans he
  · intro e argv he
    exact nomatch hd.symm.trans he

variable (hend : ∀ s, I s → Ensures (sh.vtyshExecute "end".toList) (fun _ => I) s)
  (hconf : ∀ s, I s → Ensures (sh.vtyshExecute "configure terminal".toList) (fun _ => I) s)
include hend hconf

/-- Executing the words of a line of the file keeps an invariant of the handlers. -/
theorem ensures_executeConfig (buf : CString) (vline : List CString) (hs : I s) :
    Ensures (sh.executeConfig buf vline) (fun _ => I) s := by
  refine ensures_bind.2 (ensures_cmdExecute_config hconfig hnode hs fun ret hret => ?_)
  dsimp only
  rw [if_pos hret.ne, retryConfig, ensures_bind]
  refine (hend s hs).mono fun _ s₁ hs₁ => ensures_bind.2 ?_
  refine (hconf s₁ hs₁).mono fun _ s₂ hs₂ => ensures_bind.2 ?_
  refine (ensures_setConfigNode (hnode s₂ hs₂) hs₂).mono fun _ s₃ hs₃ => ensures_bind.2 ?_
  refine ensures_cmdExecute_config hconfig hnode hs₃ fun ret' hret' => ?_
  exact ensures_reportConfig hret'.ne.2.1 _ hs₃

/-- So does a line of the file. -/
theorem ensures_vtyshConfigLine (buf : CString) (hs : I s) :
    Ensures (sh.vtyshConfigLine buf) (fun _ => I) s := by
  rw [vtyshConfigLine]
  rcases cmdMakeStrvec buf with _ | vline
  · split_ifs
    · exact ensures_pure.2 hs
    · refine ensures_bind.2 ((ensures_setConfigNode (hnode s hs) hs).mono fun _ s' hs' => ?_)
      exact ensures_pure.2 hs'
    · exact ensures_pure.2 hs
  · split_ifs
    · exact ensures_pure.2 hs
    · refine ensures_bind.2 ((ensures_setConfigNode (hnode s hs) hs).mono fun _ s' hs' => ?_)
      exact ensures_executeConfig hconfig hnode hend hconf buf vline hs'
    · exact ensures_executeConfig hconfig hnode hend hconf buf vline hs

/-- So does the whole file, by induction on its lines. -/
theorem ensures_vtyshConfigFromFile (file : Option CString) (hs : I s) :
    Ensures (sh.vtyshConfigFromFile file) (fun _ => I) s := by
  rcases file with _ | file
  · exact ensures_pure.2 hs
  · have hloop : Ensures (forEach sh.vtyshConfigLine (configLines file)) (fun _ => I) s :=
      ensures_forEach (fun buf _ _ hs' =>
        ensures_vtyshConfigLine hconfig hnode hend hconf buf hs') hs
    exact ensures_bind.2 (hloop.mono fun _ _ hs' => ensures_pure.2 hs')

end Config

/-! ## Runs -/

/-- The states that lines, each of which meets the condition `ok`, lead to. -/
inductive Reaches (sh : Shell F W) (ok : CString → State W → Prop) (s₀ : State W) :
    State W → Prop
  | start : Reaches sh ok s₀ s₀
  | line {s s' : State W} {line : CString} {ret : ℤ} : Reaches sh ok s₀ s → ok line s →
      (sh.vtyshExecute line).result s = some (ret, s') → Reaches sh ok s₀ s'

/-- What each line keeps holds in every state reached. -/
theorem Reaches.invariant {ok : CString → State W → Prop} (h : sh.Reaches ok s₀ s) (hs₀ : I s₀)
    (hline : ∀ line s, I s → ok line s → Ensures (sh.vtyshExecute line) (fun _ => I) s) : I s := by
  induction h with
  | start => exact hs₀
  | line _ hok hret ih => exact hline _ _ ih hok _ _ hret

/-- The state after lines. -/
def afterLines (sh : Shell F W) (lines : List CString) (s : State W) : Option (State W) :=
  lines.foldlM (fun s line => ((sh.vtyshExecute line).result s).map Prod.snd) s

/-- What the lines of a file lead to is reached. -/
theorem Reaches.afterLines {ok : CString → State W → Prop} (hok : ∀ line s, ok line s)
    {lines : List CString} (hs : sh.Reaches ok s₀ s) {s' : State W}
    (h : sh.afterLines lines s = some s') : sh.Reaches ok s₀ s' := by
  induction lines generalizing s with
  | nil =>
    obtain rfl : s = s' := Option.some.inj h
    exact hs
  | cons line lines ih =>
    rw [Shell.afterLines, List.foldlM_cons] at h
    obtain ⟨s₁, hs₁, h⟩ := Option.bind_eq_some_iff.1 h
    obtain ⟨⟨ret, _⟩, hret, rfl⟩ := Option.map_eq_some_iff.1 hs₁
    exact ih (.line hs (hok line s) hret) h

end Shell

end Mksh
