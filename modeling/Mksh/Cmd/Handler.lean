import Mksh.Cmd.Version

/-!
# What handlers do

Each handler is specified by what it casts `vty->index` to (`logs_castsAs`), and
by how it changes the state. Most handlers only change the world
(`moves_toolHandler`); only these return the status of a child process.
-/

namespace Mksh

open CString Process

variable {W : Type} {os : Os W} {ref : VtyRef} {argv : List CString} {s : State (Session W)}
  {P : ToolEvent → Prop}

/-! ## Casts -/

/-- The type that the handler casts `vty->index` to. -/
def ToolFunc.castType : ToolFunc → Option IndexType
  | .showProject | .versionCmdRefresh | .versionBuild | .versionExit | .getProject => some .version
  | .projectExit | .projectEnd | .projectMake | .projectMakeInstallOrClean | .projectCmdRefresh
  | .proConfKernelConfFile => some .project
  | _ => none

/-- A cast is to the type, and of the index in the state `s`. -/
def CastsAs (ref : VtyRef) (s : State (Session W)) (type : Option IndexType) : ToolEvent → Prop
  | .cast t index => type = some t ∧ index = s.index ref
  | _ => True

theorem always_arg (n : ℕ) : Always P (arg (W := W) argv n) := fun _ => logs_arg.2 trivial

theorem always_versionAt (i : ℕ) : Always P (versionAt (W := W) i) := fun _ =>
  logs_versionAt.2 trivial

theorem always_projectAt (i j : ℕ) : Always P (projectAt (W := W) i j) := fun _ =>
  logs_projectAt.2 trivial

/-! Apart from casts, a handler only logs what is observed of the system, and prints. -/

section Always

variable (hsys : ∀ e, P (.sys e))
include hsys

/-- What an action of the system logs has the property. -/
theorem always_sys {α : Type} (p : Action W α) : Always P (sys p) := fun s => by
  simp [hsys]

/-- Entering a version logs nothing but what the system does. -/
theorem always_versionInit (i : ℕ) (arch : CString) : Always P (versionInit os i arch) := by
  refine (always_versionAt i).bind fun vi => (always_sys hsys _).bind fun dir => ?_
  refine (always_sys hsys _).bind fun _ => .ite (always_pure _) ?_
  refine (always_sys hsys _).bind fun _ => .ite (always_pure _) ?_
  refine (always_modify _).bind fun _ => (always_versionAt i).bind fun vi => ?_
  refine (always_sys hsys _).bind fun _ => (always_sys hsys _).bind fun _ => ?_
  rcases vi.attribute with _ | attr
  · exact always_pure _
  · exact always_sys hsys _

/-- Leaving a version logs nothing but what the system does. -/
theorem always_versionFinit (i : ℕ) : Always P (versionFinit os i) := by
  refine (always_versionAt i).bind fun vi => .bind ?_ fun _ => (always_modify _).bind fun _ =>
    (always_sys hsys _).bind fun _ => always_pure _
  rcases vi.attribute with _ | attr
  · exact always_pure _
  · exact always_sys hsys _

theorem always_versionRefreshAt (i : ℕ) : Always P (versionRefreshAt os i) :=
  (always_versionAt i).bind fun _ => always_sys hsys _

/-- Asking for a version logs nothing but what the system does. -/
theorem always_versionGet (name : CString) : Always P (versionGet os name) := by
  refine always_get.bind fun s => ?_
  dsimp only
  rcases versionFind name s.world.versions with _ | i
  · exact (always_sys hsys _).bind fun _ => .ite (always_pure _)
      ((always_modify _).bind fun _ => always_pure _)
  · exact always_pure _

/-- Asking for a project logs nothing but what the system does. -/
theorem always_projectGet (name : CString) (i : ℕ) : Always P (projectGet os name i) := by
  refine (always_versionAt i).bind fun vi => ?_
  rcases projectFind name vi.projects with _ | j
  · exact (always_sys hsys _).bind fun _ => .ite (always_pure _)
      ((always_modify _).bind fun _ => always_pure _)
  · exact always_pure _

variable (hprint : ∀ text, P (.print text))
include hprint

omit hsys in
theorem always_vtyOut (text : CString) : Always P (vtyOut (W := W) text) :=
  always_emit (hprint text)

theorem always_getVersionAt (i : ℕ) : Always P (getVersionAt os ref argv i) := by
  refine (always_arg 1).bind fun arch => (always_versionInit hsys i arch).bind fun ret => ?_
  refine .ite ((always_vtyOut hprint _).bind fun _ => always_pure _) ?_
  refine .bind (.ite (always_pure _) (always_sys hsys _)) fun exist => ?_
  refine .bind (.ite (always_pure _) (always_versionRefreshAt hsys i)) fun ret => ?_
  refine .ite ((always_versionFinit hsys i).bind fun _ =>
    (always_vtyOut hprint _).bind fun _ => always_pure _) ?_
  exact (always_modify _).bind fun _ => (always_modify _).bind fun _ => always_pure _

/-- `version` casts no pointer. -/
theorem always_getVersion : Always P (getVersion os ref argv) := by
  refine (always_arg 0).bind fun name => (always_sys hsys _).bind fun fixed => ?_
  refine (always_versionGet hsys fixed).bind fun r => ?_
  rcases r with _ | i
  · exact (always_vtyOut hprint _).bind fun _ => always_pure _
  · exact always_getVersionAt hsys hprint i

/-- Once the version is known, entering a project casts no pointer. -/
theorem always_getProjectAt (i j : ℕ) : Always P (getProjectAt os ref argv i j) := by
  refine (always_projectAt i j).bind fun _ => (always_sys hsys _).bind fun ret => ?_
  refine .ite ((always_vtyOut hprint _).bind fun _ => always_pure _) ?_
  exact (always_modify _).bind fun _ => (always_modify _).bind fun _ => always_pure _

omit hsys in
theorem always_versionsShow : Always P (versionsShow (W := W)) :=
  always_get.bind fun _ => (always_vtyOut hprint _).bind fun _ =>
    .forEach fun _ => always_vtyOut hprint _

omit hsys in
theorem always_versionsShowDetail : Always P (versionsShowDetail (W := W)) :=
  always_get.bind fun _ => .forEach fun _ => (always_vtyOut hprint _).bind fun _ =>
    .forEach fun _ => always_vtyOut hprint _

/-- A handler that does not cast. -/
theorem always_toolHandler {func : ToolFunc} (h : func.castType = none) :
    Always P (toolHandler os ref argv func) := by
  have hs {α : Type} (p : Action W α) : Always P (sys p) := always_sys hsys p
  have hv (text : CString) : Always P (vtyOut (W := W) text) := always_vtyOut hprint text
  -- The handlers that cast are left to the hypothesis, which excludes them.
  cases func with
  | configQuit => exact always_halt
  | configPing => exact (always_arg 0).bind fun _ => (hs _).bind fun _ => always_pure _
  | configPingCount =>
    exact (always_arg 1).bind fun _ => .ite ((hv _).bind fun _ => always_pure _)
      ((always_arg 0).bind fun _ => (hs _).bind fun _ => always_pure _)
  | configTraceroute => exact (always_arg 0).bind fun _ => (hs _).bind fun _ => always_pure _
  | showVersion => exact (always_versionsShow hprint).bind fun _ => always_pure _
  | showVersionDetail => exact (always_versionsShowDetail hprint).bind fun _ => always_pure _
  | getVersion => exact always_getVersion hsys hprint
  | projectConf => exact (always_modify _).bind fun _ => always_pure _
  | proConfExit => exact (always_modify _).bind fun _ => always_pure _
  | systemPatch =>
    exact (always_arg 0).bind fun _ => (hs _).bind fun _ => (hs _).bind fun _ =>
      .ite ((hv _).bind fun _ => always_pure _) ((hs _).bind fun _ => hs _)
  | systemLs3 => exact (always_arg 0).bind fun _ => (always_arg 1).bind fun _ => hs _
  | systemLs2 => exact (always_arg 0).bind fun _ => hs _
  | systemMkdir => exact (always_arg 0).bind fun _ => hs _
  | projectMakeC => exact (always_arg 0).bind fun _ => hs _
  | projectMakeC2 => exact (always_arg 0).bind fun _ => (always_arg 1).bind fun _ => hs _
  | netNetstatInfo => exact hs _
  | systemEnv => exact hs _
  | systemPwd => exact hs _
  | systemPassword => exact hs _
  | systemLs => exact hs _
  | projectMake2 => exact hs _
  | _ => cases h

end Always

/-- After the cast to a version, nothing else has to be shown. -/
theorem logs_castVersion_bind {α : Type} {q : ℕ → Handler W α}
    (h : P (.cast .version (s.index ref))) (hq : ∀ i, Always P (q i)) :
    Logs P (castVersion ref >>= q) s :=
  logs_bind.2 ⟨logs_castVersion.2 h, fun i s' _ => hq i s'⟩

/-- After the cast to a project, nothing else has to be shown. -/
theorem logs_castProject_bind {α : Type} {q : ℕ × ℕ → Handler W α}
    (h : P (.cast .project (s.index ref))) (hq : ∀ i, Always P (q i)) :
    Logs P (castProject ref >>= q) s :=
  logs_bind.2 ⟨logs_castProject.2 h, fun i s' _ => hq i s'⟩

/-- A handler only casts the index as it finds it. -/
theorem logs_castsAs (os : Os W) (ref : VtyRef) (argv : List CString) (func : ToolFunc)
    (s : State (Session W)) :
    Logs (CastsAs ref s func.castType) (toolHandler os ref argv func) s := by
  by_cases hnone : func.castType = none
  · exact always_toolHandler (fun _ => trivial) (fun _ => trivial) hnone s
  have hs {α : Type} (type : Option IndexType) (p : Action W α) :
      Always (CastsAs ref s type) (sys p) := always_sys (fun _ => trivial) p
  have hv (type : Option IndexType) (text : CString) :
      Always (CastsAs ref s type) (vtyOut (W := W) text) := always_vtyOut (fun _ => trivial) text
  have hversion : CastsAs ref s (some .version) (.cast .version (s.index ref)) := ⟨rfl, rfl⟩
  have hproject : CastsAs ref s (some .project) (.cast .project (s.index ref)) := ⟨rfl, rfl⟩
  -- Each of these casts first, to the type of its node, and does not cast again.
  cases func with
  | showProject =>
    exact logs_castVersion_bind hversion fun i => (always_versionAt i).bind fun _ =>
      .bind ((hv _ _).bind fun _ => .forEach fun _ => hv _ _) fun _ => always_pure _
  | versionCmdRefresh =>
    exact logs_castVersion_bind hversion fun i => always_versionRefreshAt (fun _ => trivial) i
  | versionBuild =>
    exact logs_castVersion_bind hversion fun i => (always_versionAt i).bind fun _ =>
      (hs _ _).bind fun _ => .bind (.ite (hv _ _) (always_pure _)) fun _ => always_pure _
  | versionExit =>
    exact logs_castVersion_bind hversion fun i =>
      (always_versionFinit (fun _ => trivial) i).bind fun _ => (always_modify _).bind fun _ =>
        (always_modify _).bind fun _ => always_pure _
  | getProject =>
    refine logs_castVersion_bind hversion fun i => (always_arg 0).bind fun name =>
      (always_projectGet (fun _ => trivial) name i).bind fun r => ?_
    rcases r with _ | j
    · exact (hv _ _).bind fun _ => always_pure _
    · exact always_getProjectAt (fun _ => trivial) (fun _ => trivial) i j
  | projectExit =>
    exact logs_castProject_bind hproject fun _ => (always_projectAt _ _).bind fun _ =>
      (hs _ _).bind fun _ => (always_modify _).bind fun _ => (always_modify _).bind fun _ =>
        always_pure _
  | projectEnd =>
    exact logs_castProject_bind hproject fun _ => (always_projectAt _ _).bind fun _ =>
      (hs _ _).bind fun _ => (always_versionFinit (fun _ => trivial) _).bind fun _ =>
        (always_modify _).bind fun _ => (always_modify _).bind fun _ => always_pure _
  | projectMake =>
    exact logs_castProject_bind hproject fun _ => (always_projectAt _ _).bind fun _ =>
      (hs _ _).bind fun _ => always_pure _
  | projectMakeInstallOrClean =>
    exact logs_castProject_bind hproject fun _ => (always_projectAt _ _).bind fun _ =>
      (always_arg 0).bind fun _ => .bind (.ite (hs _ _) (hs _ _)) fun _ => always_pure _
  | projectCmdRefresh =>
    exact logs_castProject_bind hproject fun _ => (always_projectAt _ _).bind fun _ =>
      (hs _ _).bind fun _ => (hs _ _).bind fun _ => (hs _ _).bind fun _ => always_pure _
  | proConfKernelConfFile =>
    refine logs_castProject_bind hproject fun _ => (always_arg 0).bind fun _ =>
      (always_projectAt _ _).bind fun _ => .ite ((hv _ _).bind fun _ => always_pure _) ?_
    exact .bind (.ite (hs _ _) (always_pure _)) fun _ =>
      .ite ((hv _ _).bind fun _ => always_pure _) (hs _ _)
  | _ => exact absurd rfl hnone

/-! ## Changes -/

/-- The handlers that change more than the world. -/
def movers : List ToolFunc :=
  [.getVersion, .getProject, .versionExit, .projectExit, .projectEnd, .projectConf, .proConfExit,
    .projectCmdRefresh, .versionBuild, .projectMakeInstallOrClean]

theorem moves_arg (n : ℕ) : Moves OnlyWorld (arg (W := W) argv n) := by
  rw [arg]
  rcases argv[n]? with _ | a
  · exact moves_halt
  · exact moves_pure a

theorem moves_vtyOut (text : CString) : Moves OnlyWorld (vtyOut (W := W) text) := moves_emit _

/-- Reading a version changes nothing. -/
theorem moves_versionAt (i : ℕ) : Moves OnlyWorld (versionAt (W := W) i) := fun s =>
  ensures_versionAt.2 fun _ _ => refl s

theorem moves_projectAt (i j : ℕ) : Moves OnlyWorld (projectAt (W := W) i j) := fun s =>
  ensures_projectAt.2 fun _ _ _ _ => refl s

/-- A cast changes nothing. -/
theorem moves_castVersion : Moves OnlyWorld (castVersion (W := W) ref) := fun s =>
  ensures_castVersion.2 fun _ _ => refl s

/-- A cast changes nothing. -/
theorem moves_castProject : Moves OnlyWorld (castProject (W := W) ref) := fun s =>
  ensures_castProject.2 fun _ _ _ => refl s

theorem moves_fill (size : ℕ) (text : CString) :
    Moves OnlyWorld (sys (fill (σ := Sys W) size text)) := fun s =>
  ensures_sys.2 (ensures_fill.2 fun _ => refl s)

/-- The other handlers only change the world. -/
theorem moves_toolHandler {func : ToolFunc} (h : func ∉ movers) :
    Moves OnlyWorld (toolHandler os ref argv func) := by
  -- Only jobs and prints are left, besides halting: they change the world at most.
  cases func with
  | configQuit => exact moves_halt
  | configPing => exact (moves_arg 0).bind fun _ => (moves_job _).bind fun _ => moves_pure _
  | configPingCount =>
    exact (moves_arg 1).bind fun _ => .ite ((moves_vtyOut _).bind fun _ => moves_pure _)
      ((moves_arg 0).bind fun _ => (moves_job _).bind fun _ => moves_pure _)
  | configTraceroute => exact (moves_arg 0).bind fun _ => (moves_job _).bind fun _ => moves_pure _
  | showVersion =>
    exact .bind (moves_get.bind fun _ => (moves_vtyOut _).bind fun _ =>
      .forEach fun _ => moves_vtyOut _) fun _ => moves_pure _
  | showVersionDetail =>
    exact .bind (moves_get.bind fun _ => .forEach fun _ => (moves_vtyOut _).bind fun _ =>
      .forEach fun _ => moves_vtyOut _) fun _ => moves_pure _
  | showProject =>
    exact moves_castVersion.bind fun _ => (moves_versionAt _).bind fun _ =>
      .bind ((moves_vtyOut _).bind fun _ => .forEach fun _ => moves_vtyOut _) fun _ => moves_pure _
  | versionCmdRefresh =>
    exact moves_castVersion.bind fun _ => (moves_versionAt _).bind fun _ => moves_job _
  | systemPatch =>
    exact (moves_arg 0).bind fun _ => (moves_fill _ _).bind fun _ => (moves_job _).bind fun _ =>
      .ite ((moves_vtyOut _).bind fun _ => moves_pure _)
        ((moves_fill _ _).bind fun _ => moves_job _)
  | systemLs3 => exact (moves_arg 0).bind fun _ => (moves_arg 1).bind fun _ => moves_job _
  | systemLs2 => exact (moves_arg 0).bind fun _ => moves_job _
  | systemMkdir => exact (moves_arg 0).bind fun _ => moves_job _
  | projectMakeC => exact (moves_arg 0).bind fun _ => moves_job _
  | projectMakeC2 => exact (moves_arg 0).bind fun _ => (moves_arg 1).bind fun _ => moves_job _
  | projectMake =>
    exact moves_castProject.bind fun _ => (moves_projectAt _ _).bind fun _ =>
      (moves_job _).bind fun _ => moves_pure _
  | proConfKernelConfFile =>
    refine moves_castProject.bind fun _ => (moves_arg 0).bind fun _ =>
      (moves_projectAt _ _).bind fun _ => .ite ((moves_vtyOut _).bind fun _ => moves_pure _) ?_
    exact .bind (.ite (moves_job _) (moves_pure _)) fun _ =>
      .ite ((moves_vtyOut _).bind fun _ => moves_pure _) (moves_job _)
  | netNetstatInfo => exact moves_job _
  | systemEnv => exact moves_job _
  | systemPwd => exact moves_job _
  | systemPassword => exact moves_job _
  | systemLs => exact moves_job _
  | projectMake2 => exact moves_job _
  | _ => exact absurd (by decide) h

/-! ## Entering and leaving -/

/-- What `getVersion` does with the name of a version. -/
inductive GetsVersion (os : Os W) (ref : VtyRef) (argv : List CString) (name : CString)
    (s : State (Session W)) : State (Session W) → Prop
  /-- There is no such version. -/
  | unknown {s' : State (Session W)} : (versionGet os name).result s = some (none, s') →
      GetsVersion os ref argv name s s'
  /-- The version is not initialised. -/
  | failed {i : ℕ} {arch : CString} {s₁ s' : State (Session W)} {ret : ℤ} :
      (versionGet os name).result s = some (some i, s₁) → argv[1]? = some arch →
      (versionInit os i arch).result s₁ = some (ret, s') → ret ≠ 0 →
      GetsVersion os ref argv name s s'
  /-- The version is not refreshed, and left again. -/
  | left {i : ℕ} {arch : CString} {s₁ s₂ s₃ s' : State (Session W)} :
      (versionGet os name).result s = some (some i, s₁) → argv[1]? = some arch →
      (versionInit os i arch).result s₁ = some (0, s₂) → OnlyWorld s₂ s₃ →
      (versionFinit os i).result s₃ = some ((), s') → GetsVersion os ref argv name s s'
  | entered {i : ℕ} {arch : CString} {s₁ s₂ s₃ : State (Session W)} :
      (versionGet os name).result s = some (some i, s₁) → argv[1]? = some arch →
      (versionInit os i arch).result s₁ = some (0, s₂) → OnlyWorld s₂ s₃ →
      GetsVersion os ref argv name s ((s₃.setIndex ref (.version i)).setNode ref .version)

/-- Refreshing a version only concerns the system. -/
theorem moves_versionRefreshAt (i : ℕ) : Moves OnlyWorld (versionRefreshAt os i) :=
  (moves_versionAt i).bind fun _ => moves_job _

/-- What `version` does. -/
theorem getVersion_spec (s : State (Session W)) :
    Ensures (getVersion os ref argv) (fun ret s' => ret = cmdSuccess ∧
      ∃ name, argv[0]? = some name ∧
        GetsVersion os ref argv (name.rdropWhile (· = '/')) s s') s := by
  simp only [getVersion, ensures_bind, ensures_arg, ensures_sys, ensures_mkFixName]
  intro name hname r s₁ hget
  rcases r with _ | i
  · simp only [ensures_bind, ensures_vtyOut, ensures_pure]
    exact ⟨trivial, name, hname, .unknown hget⟩
  simp only [getVersionAt, ensures_bind, ensures_arg]
  intro arch harch ret s₂ hinit
  rcases ne_or_eq ret 0 with hret | rfl
  · simp only [if_pos hret, ensures_bind, ensures_vtyOut, ensures_pure]
    exact ⟨trivial, name, hname, .failed hget harch hinit hret⟩
  -- Looking for the build directory and refreshing it only change the world: what
  -- matters is whether refreshing fails, in which case the version is left.
  have hexist : Moves OnlyWorld (if asksRefresh argv 2 then pure false
      else sys (job os fun site => site.dirOrFileExist projectBuildName)) :=
    .ite (moves_pure _) (moves_job _)
  have hrefresh (exist : Bool) :
      Moves OnlyWorld (if exist then pure 0 else versionRefreshAt os i) :=
    .ite (moves_pure _) (moves_versionRefreshAt i)
  rw [if_neg (not_not.2 rfl), ensures_bind]
  refine (hexist s₂).mono fun exist s₃ h₃ => ?_
  rw [ensures_bind]
  refine (hrefresh exist s₃).mono fun ret s₄ h₄ => ?_
  have hworld : OnlyWorld s₂ s₄ := trans_of OnlyWorld h₃ h₄
  rw [ensures_ite]
  split_ifs with hret'
  · rw [ensures_bind]
    intro _ s₅ hfinit
    simp only [ensures_bind, ensures_vtyOut, ensures_pure]
    exact ⟨trivial, name, hname, .left hget harch hinit hworld hfinit⟩
  · simp only [ensures_bind, ensures_setIndex, ensures_setNode, ensures_pure]
    exact ⟨trivial, name, hname, .entered hget harch hinit hworld⟩

/-- What `getProject` does with the name of a project of the version `i`. -/
inductive GetsProject (os : Os W) (ref : VtyRef) (i : ℕ) (name : CString) (s : State (Session W)) :
    ℤ → State (Session W) → Prop
  /-- There is no such project. -/
  | unknown {s' : State (Session W)} : (projectGet os name i).result s = some (none, s') →
      GetsProject os ref i name s cmdWarning s'
  /-- The project is not initialised. -/
  | failed {j : ℕ} {s₁ : State (Session W)} {vi : VersionInf} {pi : ProjectInf} {refresh : Bool}
      {ret : ℤ} {t : Sys W} : (projectGet os name i).result s = some (some j, s₁) →
      s₁.world.versions[i]? = some vi → vi.projects[j]? = some pi →
      (projectInit os vi pi refresh).result s₁.world.sys = some (ret, t) → ret ≠ 0 →
      GetsProject os ref i name s cmdWarning { s₁ with world.sys := t }
  | entered {j : ℕ} {s₁ : State (Session W)} {vi : VersionInf} {pi : ProjectInf} {refresh : Bool}
      {t : Sys W} : (projectGet os name i).result s = some (some j, s₁) →
      s₁.world.versions[i]? = some vi → vi.projects[j]? = some pi →
      (projectInit os vi pi refresh).result s₁.world.sys = some (0, t) →
      GetsProject os ref i name s cmdSuccess
        (({ s₁ with world.sys := t }.setIndex ref (.project i j)).setNode ref .project)

/-- What `project` does. -/
theorem getProject_spec (s : State (Session W)) :
    Ensures (getProject os ref argv) (fun ret s' => ∃ i name, s.index ref = .version i ∧
      argv[0]? = some name ∧ GetsProject os ref i name s ret s') s := by
  simp only [getProject, ensures_bind, ensures_castVersion, ensures_arg]
  intro i hi name hname r s₁ hget
  rcases r with _ | j
  · simp only [ensures_bind, ensures_vtyOut, ensures_pure]
    exact ⟨i, name, hi, hname, .unknown hget⟩
  simp only [getProjectAt, ensures_bind, ensures_projectAt, ensures_sys]
  intro vi hvi pi hpi ret t hinit
  rw [ensures_ite]
  split_ifs with hret
  · simp only [ensures_bind, ensures_vtyOut, ensures_pure]
    exact ⟨i, name, hi, hname, .failed hget hvi hpi hinit hret⟩
  · obtain rfl := not_not.1 hret
    simp only [ensures_bind, ensures_setIndex, ensures_setNode, ensures_pure]
    exact ⟨i, name, hi, hname, .entered hget hvi hpi hinit⟩

/-- What `exit` does in a version. -/
theorem versionExit_spec (s : State (Session W)) :
    Ensures (versionExit os ref) (fun ret s' => ret = cmdSuccess ∧ ∃ i s₁,
      s.index ref = .version i ∧ (versionFinit os i).result s = some ((), s₁) ∧
      s' = (s₁.setIndex ref .null).setNode ref .enable) s := by
  simp only [versionExit, ensures_bind, ensures_castVersion, ensures_setIndex, ensures_setNode,
    ensures_pure]
  intro i hi _ s₁ hfinit
  exact ⟨trivial, i, s₁, hi, hfinit, rfl⟩

/-- What `exit` does in a project. -/
theorem projectExit_spec (s : State (Session W)) :
    Ensures (projectExit os ref) (fun ret s' => ret = cmdSuccess ∧ ∃ i j vi pi t,
      s.index ref = .project i j ∧ s.world.versions[i]? = some vi ∧ vi.projects[j]? = some pi ∧
      (projectFinit os pi).result s.world.sys = some ((), t) ∧
      s' = ({ s with world.sys := t }.setIndex ref (.version i)).setNode ref .version) s := by
  simp only [projectExit, ensures_bind, ensures_castProject, ensures_projectAt, ensures_sys,
    ensures_setIndex, ensures_setNode, ensures_pure]
  intro i j hi vi hvi pi hpi _ t hfinit
  exact ⟨trivial, i, j, vi, pi, t, hi, hvi, hpi, hfinit, rfl⟩

/-- What `end` does in a project. -/
theorem projectEnd_spec (s : State (Session W)) :
    Ensures (projectEnd os ref) (fun ret s' => ret = cmdSuccess ∧ ∃ i j t s₁,
      s.index ref = .project i j ∧
      (versionFinit os i).result { s with world.sys := t } = some ((), s₁) ∧
      s' = (s₁.setIndex ref .null).setNode ref .enable) s := by
  simp only [projectEnd, ensures_bind, ensures_castProject, ensures_projectAt, ensures_sys,
    ensures_setIndex, ensures_setNode, ensures_pure]
  intro i j hi vi hvi pi hpi _ t _ _ s₁ hfinit
  exact ⟨trivial, i, j, t, s₁, hi, hfinit, rfl⟩

/-! ## The other handlers -/

/-- What only changes the world of the child processes only changes the system. -/
theorem moves_onlySys {α : Type} {p : Handler W α} (h : Moves OnlyWorld p) : Moves OnlySys p :=
  h.weaken fun _ _ => OnlyWorld.onlySys

/-- Refreshing a project only changes the system. -/
theorem moves_projectCmdRefresh : Moves OnlySys (projectCmdRefresh os ref) :=
  (moves_onlySys moves_castProject).bind fun _ =>
    (moves_onlySys (moves_projectAt _ _)).bind fun _ => (moves_sys _).bind fun _ =>
      (moves_sys _).bind fun _ => (moves_sys _).bind fun _ => moves_pure _

/-- Building a version only changes the system. -/
theorem moves_versionBuildTool : Moves OnlySys (versionBuildTool os ref) :=
  (moves_onlySys moves_castVersion).bind fun _ => (moves_onlySys (moves_versionAt _)).bind fun _ =>
    (moves_sys _).bind fun _ =>
      .bind (.ite (moves_onlySys (moves_vtyOut _)) (moves_pure _)) fun _ => moves_pure _

/-- Installing and cleaning a project only change the system. -/
theorem moves_projectMakeInstallOrClean : Moves OnlySys (projectMakeInstallOrClean os ref argv) :=
  (moves_onlySys moves_castProject).bind fun _ =>
    (moves_onlySys (moves_projectAt _ _)).bind fun _ =>
      (moves_onlySys (moves_arg _)).bind fun _ => .bind (.ite (moves_sys _) (moves_sys _)) fun _ =>
        moves_pure _

/-- The handlers that change more than the world do not return the status of a child process. -/
theorem ensures_ne_daemon {func : ToolFunc} (h : func ∈ movers) (s : State (Session W)) :
    Ensures (toolHandler os ref argv func) (fun ret _ => ret ≠ cmdSuccessDaemon) s := by
  have hsuccess : cmdSuccess ≠ cmdSuccessDaemon := by decide
  have hpure (s : State (Session W)) :
      Ensures (pure cmdSuccess : Handler W ℤ) (fun ret _ => ret ≠ cmdSuccessDaemon) s :=
    ensures_pure.2 hsuccess
  simp only [movers, List.mem_cons, List.not_mem_nil, or_false] at h
  rcases h with rfl | rfl | rfl | rfl | rfl | rfl | rfl | rfl | rfl | rfl
  · exact (getVersion_spec s).mono fun ret _ h => h.1 ▸ hsuccess
  · refine (getProject_spec s).mono ?_
    rintro ret s' ⟨i, name, -, -, h⟩
    cases h with
    | unknown _ => decide
    | failed _ _ _ _ _ => decide
    | entered _ _ _ _ => decide
  · exact (versionExit_spec s).mono fun ret _ h => h.1 ▸ hsuccess
  · exact (projectExit_spec s).mono fun ret _ h => h.1 ▸ hsuccess
  · exact (projectEnd_spec s).mono fun ret _ h => h.1 ▸ hsuccess
  -- The others end by returning `cmdSuccess`, whatever has been done before.
  · exact ensures_bind_of_forall fun _ => hpure
  · exact ensures_bind_of_forall fun _ => hpure
  · exact ensures_bind_of_forall fun _ _ => ensures_bind_of_forall fun _ _ =>
      ensures_bind_of_forall fun _ _ => ensures_bind_of_forall fun _ _ =>
        ensures_bind_of_forall fun _ => hpure
  · exact ensures_bind_of_forall fun _ _ => ensures_bind_of_forall fun _ _ =>
      ensures_bind_of_forall fun _ _ => ensures_bind_of_forall fun _ => hpure
  · exact ensures_bind_of_forall fun _ _ => ensures_bind_of_forall fun _ _ =>
      ensures_bind_of_forall fun _ _ => ensures_bind_of_forall fun _ => hpure

end Mksh
