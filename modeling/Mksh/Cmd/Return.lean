import Mksh.Cmd.Vars

/-!
# Coming back

There is a way back from every state reached: after the lines of the node
(`leaveLines`), the shell is in the enable node, and the environment is that at
the start (`enable_of_reaches`). Nothing that leaving calls gets stuck: what is
cast is what the node goes with, and the path that is copied is the one that the
buffer had room for when the version was entered.
-/

namespace Mksh

open CString Process

variable {W α : Type} {os : Os W} {vi : VersionInf} {pi : ProjectInf} {t : Sys W} {env₀ : Env}
  {s s' : State (Session W)} {i j : ℕ} {node : NodeType}
  {cmdvec : NodeType → Option (List (CmdElement ToolFunc))}
  {crypt : CString → CString → Option CString}

/-! ## Lines -/

/-- What a line achieves that calls a handler which succeeds. -/
theorem Shell.achieves_vtyshExecute {F W : Type} {sh : Shell F W} {s : State W} {line : CString}
    {e : CmdElement F} {argv : List CString} {f : F} {Q : State W → Prop}
    (hauth : s.shell.node ≠ .authEnable) (hcalls : sh.Calls line s e argv) (hfunc : e.func = some f)
    (hq : ∃ s', sh.handler f e .shell argv s = some (cmdSuccess, s') ∧ Q s') :
    Achieves (sh.vtyshExecute line) (fun _ => Q) s := by
  obtain ⟨vline, hvline, hcall⟩ := hcalls
  obtain ⟨s', hret, hs'⟩ := hq
  have hinvoke : Achieves (sh.invoke e .shell argv) (fun ret t => ret = cmdSuccess ∧ Q t) s := by
    refine ⟨cmdSuccess, s', ?_, rfl, hs'⟩
    exact (congrArg Prod.snd (sh.invoke_of_some hfunc .shell argv s)).trans hret
  rw [Shell.vtyshExecute, achieves_bind, achieves_get, if_neg hauth, Shell.vtyshExecuteFunc, hvline]
  refine achieves_bind.2 (achieves_bind.2 (achieves_get.2 ?_))
  rw [hcall, Shell.perform, achieves_bind]
  refine hinvoke.mono ?_
  rintro _ t ⟨rfl, ht⟩
  exact achieves_pure.2 (achieves_bind.2 (achieves_pure.2 (achieves_pure.2 ht)))

/-- What a line calls in a node, sorted. -/
theorem Sorted.exists_calls (hsorted : Sorted cmdvec) {table : List (CmdElement ToolFunc)}
    (hnode : installedNode s.shell.node = some table) {line : CString}
    {vline argv : List CString} {e : CmdElement ToolFunc} (hline : cmdMakeStrvec line = some vline)
    (hcall : cmdExecuteCommand table vline = .call e argv) :
    ∃ e', (cliShell os cmdvec crypt).Calls line s e' argv ∧ e'.func = e.func := by
  have hrel := hsorted s.shell.node
  rw [hnode] at hrel
  rcases htable : cmdvec s.shell.node with _ | table'
  · rw [htable] at hrel
    cases hrel
  rw [htable] at hrel
  cases hrel with
  | some hsort =>
    have hsame : (cmdExecuteCommand table vline).Rel (cmdExecuteCommand table' vline) :=
      cmdExecuteWith_reordered hsort.reordered vline
    rw [hcall] at hsame
    generalize ho : cmdExecuteCommand table' vline = o at hsame
    cases hsame with
    | @call _ e' _ hr =>
      refine ⟨e', ⟨vline, hline, ?_⟩, hr.func.symm⟩
      exact Option.map_eq_some_iff.2 ⟨table', htable, ho⟩

/-- A line of one word that calls a handler of the node without arguments. -/
theorem achieves_word (hsorted : Sorted cmdvec) (hs : Consistent s)
    {table : List (CmdElement ToolFunc)} (hnode : installedNode s.shell.node = some table)
    {word : CString} {func : ToolFunc} {e : CmdElement ToolFunc}
    (hline : cmdMakeStrvec word = some [word])
    (hcall : cmdExecuteCommand table [word] = .call e []) (hfunc : e.func = some func)
    {Q : State (Session W) → Prop}
    (hq : Achieves (toolHandler os .shell [] func) (fun ret s' => ret = cmdSuccess ∧ Q s') s) :
    Achieves ((cliShell os cmdvec crypt).vtyshExecute word) (fun _ => Q) s := by
  obtain ⟨e', hcalls, hsame⟩ := hsorted.exists_calls hnode hline hcall
  obtain ⟨ret, s', hret, rfl, hs'⟩ := hq
  exact Shell.achieves_vtyshExecute hs.node_ne_authEnable hcalls (hsame.trans hfunc) ⟨s', hret, hs'⟩

/-! ## Handlers -/

theorem achieves_sys {p : Action W α} {Q : α → State (Session W) → Prop} : Achieves (sys p) Q s ↔
    Achieves p (fun a t => Q a { s with world.sys := t }) s.world.sys := achieves_zoom

theorem achieves_chdir {path : CString} {Q : Bool → Sys W → Prop} : Achieves (chdir os path) Q t ↔
    Q (os.chdir t.cwd path t.world).isSome
      { t with cwd := (os.chdir t.cwd path t.world).getD t.cwd } := by
  simp [chdir]

theorem achieves_versionAt (hvi : s.world.versions[i]? = some vi)
    {Q : VersionInf → State (Session W) → Prop} : Achieves (versionAt i) Q s ↔ Q vi s := by
  rw [versionAt, achieves_bind, achieves_get, hvi]
  exact achieves_pure

theorem achieves_castVersion (hindex : s.world.shellIndex = .version i)
    {Q : ℕ → State (Session W) → Prop} : Achieves (castVersion .shell) Q s ↔ Q i s := by
  have hindex : s.index .shell = .version i := hindex
  rw [castVersion, achieves_bind, achieves_get, hindex, achieves_bind, achieves_emit]
  exact achieves_pure

theorem achieves_castProject (hindex : s.world.shellIndex = .project i j)
    {Q : ℕ × ℕ → State (Session W) → Prop} : Achieves (castProject .shell) Q s ↔ Q (i, j) s := by
  have hindex : s.index .shell = .project i j := hindex
  rw [castProject, achieves_bind, achieves_get, hindex, achieves_bind, achieves_emit]
  exact achieves_pure

theorem achieves_projectAt (hvi : s.world.versions[i]? = some vi)
    (hpi : vi.projects[j]? = some pi) {Q : VersionInf × ProjectInf → State (Session W) → Prop} :
    Achieves (projectAt i j) Q s ↔ Q (vi, pi) s := by
  rw [projectAt, achieves_bind, achieves_versionAt hvi, hpi]
  exact achieves_pure

/-- The environment of a version that has been entered is torn down. -/
theorem Entered.achieves_finitEnv {attr : VersionAttr} (h : Entered vi env₀ t.env)
    (hattr : vi.attribute = some attr) : Achieves (attr.finitEnv vi) (fun _ _ => True) t := by
  refine Mksh.achieves_finitEnv.2 fun hc path hpath => ?_
  cases h with
  | plain hnone _ => cases hattr.symm.trans hnone
  | family hattr' henv =>
    obtain rfl := Option.some.inj (hattr'.symm.trans hattr)
    -- The path is the one before, with the cross compiler added, which fitted.
    have heq := congrFun henv.mask_eq pathVar
    rw [mask, mask, if_neg (pathVar_notMem_vars _), if_neg (pathVar_notMem_vars _), hpath, initPath,
      if_pos hc, mapPath, Function.update_self, eq_comm, Option.map_eq_some_iff] at heq
    obtain ⟨path₀, hpath₀, rfl⟩ := heq
    exact henv.fits hc path₀ hpath₀

/-- Leaving a version that has been entered works. -/
theorem achieves_versionFinit (hvi : s.world.versions[i]? = some vi)
    (h : Entered vi env₀ s.world.sys.env) :
    Achieves (versionFinit os i) (fun _ _ => True) s := by
  rw [versionFinit, achieves_bind, achieves_versionAt hvi]
  have hrest (s : State (Session W)) : Achieves (do
      setArch i []
      let _ ← sys (chdir os "..".toList)
      return () : Handler W Unit) (fun _ _ => True) s := by
    refine achieves_bind.2 (achieves_modify.2 (achieves_bind.2 (achieves_sys.2 ?_)))
    exact achieves_chdir.2 (achieves_pure.2 trivial)
  rw [achieves_bind]
  rcases hattr : vi.attribute with _ | attr
  · exact achieves_pure.2 (hrest s)
  · exact achieves_sys.2 ((h.achieves_finitEnv hattr).mono fun _ _ _ => hrest _)

/-- Leaving a project works. -/
theorem achieves_projectFinit : Achieves (projectFinit os pi) (fun _ _ => True) t := by
  rw [projectFinit, achieves_bind, achieves_chdir]
  rcases pi.attribute with _ | attr
  · exact achieves_pure.2 trivial
  · cases attr with
    | fcms => exact achieves_modify.2 trivial
    | _ => exact achieves_pure.2 trivial

/-- `exit` in a version leads to the enable node. -/
theorem achieves_versionExit (hindex : s.world.shellIndex = .version i)
    (hvi : s.world.versions[i]? = some vi) (h : Entered vi env₀ s.world.sys.env) :
    Achieves (versionExit os .shell) (fun ret s' => ret = cmdSuccess ∧ s'.shell.node = .enable)
      s := by
  refine achieves_bind.2 ((achieves_castVersion hindex).2 (achieves_bind.2 ?_))
  refine (achieves_versionFinit hvi h).mono fun _ s₁ _ => ?_
  exact achieves_bind.2 (achieves_modify.2 (achieves_bind.2 (achieves_modify.2
    (achieves_pure.2 ⟨rfl, rfl⟩))))

/-- `end` in a project leads to the enable node. -/
theorem achieves_projectEnd (hindex : s.world.shellIndex = .project i j)
    (hvi : s.world.versions[i]? = some vi) (hpi : vi.projects[j]? = some pi)
    (h : Entered vi env₀ (pi.leaveEnv s.world.sys.env)) :
    Achieves (projectEnd os .shell) (fun ret s' => ret = cmdSuccess ∧ s'.shell.node = .enable)
      s := by
  refine achieves_bind.2 ((achieves_castProject hindex).2 (achieves_bind.2 ?_))
  refine (achieves_projectAt hvi hpi).2 (achieves_bind.2 (achieves_sys.2 ?_))
  obtain ⟨_, t, hr, -⟩ : Achieves (projectFinit os pi) (fun _ _ => True) s.world.sys :=
    achieves_projectFinit
  refine ⟨(), t, hr, achieves_bind.2 ?_⟩
  rw [← ensures_projectFinit_env pi _ _ _ hr] at h
  have hvi' : ({ s with world.sys := t } : State (Session W)).world.versions[i]? = some vi := hvi
  refine (achieves_versionFinit hvi' h).mono fun _ s₁ _ => ?_
  exact achieves_bind.2 (achieves_modify.2 (achieves_bind.2 (achieves_modify.2
    (achieves_pure.2 ⟨rfl, rfl⟩))))

/-! ## Leaving -/

/-- The lines that lead back to the enable node. -/
def leaveLines : NodeType → List CString
  | .version => ["exit".toList]
  | .project => ["end".toList]
  | .proConf => ["exit".toList, "end".toList]
  | _ => []

/-- The line `exit`, typed in a version. -/
theorem achieves_exit_version (hsorted : Sorted cmdvec) (hs : Consistent s) (h : Follows env₀ s)
    (hnode : s.shell.node = .version) : Achieves ((cliShell os cmdvec crypt).vtyshExecute
      "exit".toList) (fun _ s' => s'.shell.node = .enable) s := by
  have hgoes := hs.node
  have hvalid := hs.valid
  rw [hnode] at hgoes
  generalize hindex : s.world.shellIndex = index at hgoes hvalid
  cases hgoes with
  | version i =>
    have hvi := List.getElem?_eq_getElem (show i < s.world.versions.length from hvalid)
    have htable : installedNode s.shell.node = some versionNode := hnode ▸ rfl
    have hcall : cmdExecuteCommand versionNode ["exit".toList] = .call versionExitCmd [] := by
      decide +kernel
    exact achieves_word hsorted hs htable (by decide) hcall rfl
      (achieves_versionExit hindex hvi (h.version hindex hvi))

/-- The line `end`, typed in a project. -/
theorem achieves_end_project (hsorted : Sorted cmdvec) (hs : Consistent s) (h : Follows env₀ s)
    (hnode : s.shell.node = .project) : Achieves ((cliShell os cmdvec crypt).vtyshExecute
      "end".toList) (fun _ s' => s'.shell.node = .enable) s := by
  have hgoes := hs.node
  have hvalid := hs.valid
  rw [hnode] at hgoes
  generalize hindex : s.world.shellIndex = index at hgoes hvalid
  cases hgoes with
  | project i j =>
    obtain ⟨vi, hvi, hj⟩ := hvalid
    have hpi : vi.projects[j]? = some vi.projects[j] := List.getElem?_eq_getElem hj
    have htable : installedNode s.shell.node = some projectNode := hnode ▸ rfl
    have hcall : cmdExecuteCommand projectNode ["end".toList] = .call projectEndCmd [] := by
      decide +kernel
    exact achieves_word hsorted hs htable (by decide) hcall rfl
      (achieves_projectEnd hindex hvi hpi (h.project hindex hvi hpi))

/-- The line `exit`, typed in the configuration of a project. -/
theorem achieves_exit_proConf (hsorted : Sorted cmdvec) (hs : Consistent s)
    (hnode : s.shell.node = .proConf) : Achieves ((cliShell os cmdvec crypt).vtyshExecute
      "exit".toList) (fun _ s' => s'.shell.node = .project) s := by
  have htable : installedNode s.shell.node = some proConfNode := hnode ▸ rfl
  have hcall : cmdExecuteCommand proConfNode ["exit".toList] = .call proConfExitCmd [] := by
    decide +kernel
  exact achieves_word hsorted hs htable (by decide) hcall rfl
    (achieves_bind.2 (achieves_modify.2 (achieves_pure.2 ⟨rfl, rfl⟩)))

/-- A line after which others lead to the enable node. -/
theorem afterLines_cons {F W : Type} {sh : Shell F W} {s : State W} {line : CString}
    {lines : List CString} {P Q : State W → Prop}
    (h : Achieves (sh.vtyshExecute line) (fun _ => P) s)
    (hlines : ∀ s', P s' → ∃ s'', sh.afterLines lines s' = some s'' ∧ Q s'') :
    ∃ s', sh.afterLines (line :: lines) s = some s' ∧ Q s' := by
  obtain ⟨ret, s₁, hret, hp⟩ := h
  obtain ⟨s₂, hs₂, hq⟩ := hlines s₁ hp
  refine ⟨s₂, ?_, hq⟩
  rw [Shell.afterLines, List.foldlM_cons, hret]
  exact hs₂

/-- Wherever the shell is, it comes back to the enable node, and to the environment
    at the start. -/
theorem exists_afterLines (hsorted : Sorted cmdvec) (hpristine : Pristine env₀)
    (h : Consistent s ∧ Follows env₀ s) :
    ∃ s', (cliShell os cmdvec crypt).afterLines (leaveLines s.shell.node) s = some s' ∧
      s'.shell.node = .enable ∧ Consistent s' ∧ Follows env₀ s' := by
  -- What a line leads to is consistent, and the environment follows it.
  have hkeeps {s : State (Session W)} {line : CString} {P : State (Session W) → Prop}
      (h : Consistent s ∧ Follows env₀ s)
      (hline : Achieves ((cliShell os cmdvec crypt).vtyshExecute line) (fun _ => P) s) :
      Achieves ((cliShell os cmdvec crypt).vtyshExecute line)
        (fun _ s' => P s' ∧ Consistent s' ∧ Follows env₀ s') s := by
    obtain ⟨ret, s', hr, hp⟩ := hline
    exact ⟨ret, s', hr, hp, follows_vtyshExecute hsorted hpristine h line ret s' hr⟩
  obtain ⟨hs, hfollows⟩ := h
  have hproject {s : State (Session W)} (h : Consistent s ∧ Follows env₀ s)
      (hnode : s.shell.node = .project) :
      ∃ s', (cliShell os cmdvec crypt).afterLines ["end".toList] s = some s' ∧
        s'.shell.node = .enable ∧ Consistent s' ∧ Follows env₀ s' :=
    afterLines_cons (hkeeps h (achieves_end_project hsorted h.1 h.2 hnode))
      fun s' hs' => ⟨s', rfl, hs'⟩
  have hgoes := hs.node
  generalize hnode : s.shell.node = node, s.world.shellIndex = index at hgoes
  cases hgoes with
  | enable => exact ⟨s, rfl, hnode, hs, hfollows⟩
  | version i =>
    exact afterLines_cons (hkeeps ⟨hs, hfollows⟩ (achieves_exit_version hsorted hs hfollows hnode))
      fun s' hs' => ⟨s', rfl, hs'⟩
  | project i j => exact hproject ⟨hs, hfollows⟩ hnode
  | proConf i j =>
    exact afterLines_cons (hkeeps ⟨hs, hfollows⟩ (achieves_exit_proConf hsorted hs hnode))
      fun s' hs' => hproject hs'.2 hs'.1

end Mksh
