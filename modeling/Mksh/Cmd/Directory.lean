import Mksh.Cmd.Env
import Mksh.Cmd.Node

/-!
# The current directory

The current directory follows what `vty->index` denotes (`Located`), as long as
the handlers called stay below the directory of the version (`Stays`): the
changes of directory that they do not check succeed, and a project that is left
by `..` is an immediate subdirectory. Then it does so in every state reached
(`located_of_reaches`). A project of which the name has several components is
left for the wrong directory (`located_exit`).
-/

namespace Mksh

open CString Process

variable {W α : Type} {os : Os W} {vi : VersionInf} {pi : ProjectInf} {cwd : Dir} {path : CString}
  {t t' : Sys W} {argv : List CString} {s s' : State (Session W)} {i j : ℕ}
  {cmdvec : NodeType → Option (List (CmdElement ToolFunc))}
  {crypt : CString → CString → Option CString}

/-- The directory of a version. -/
def versionDir (vi : VersionInf) : Dir := Dir.walk [] (rootDir ++ '/' :: vi.dirName)

/-- The directory of a project of a version. -/
def projectDir (vi : VersionInf) (pi : ProjectInf) : Dir :=
  Dir.walk [] (rootDir ++ '/' :: vi.dirName ++ '/' :: pi.name)

/-- The directory of a project is below that of its version, unless its name is an absolute
    path. -/
theorem projectDir_eq (h : ¬Dir.IsAbsolute pi.name) :
    projectDir vi pi = (versionDir vi).walk pi.name :=
  Dir.walk_append (List.append_ne_nil_of_right_ne_nil _ (List.cons_ne_nil _ _)) h []

/-- The directory of a version that is entered. -/
theorem chdir_versionDir (hos : os.Lexical) {d : Dir} {w : W}
    (hd : os.chdir cwd (rootDir ++ '/' :: vi.dirName) w = some d) : d = versionDir vi := by
  have habs : Dir.IsAbsolute (rootDir ++ '/' :: vi.dirName) := rfl
  exact (hos.chdir hd).trans (Dir.walk_of_isAbsolute habs _ _)

/-! ## Actions -/

/-- The current directory is the same. -/
def SameCwd (t t' : Sys W) : Prop := t'.cwd = t.cwd

instance : IsPreorder (Sys W) SameCwd where
  refl _ := rfl
  trans _ _ _ h h' := h'.trans h

/-- Child processes do not change the directory. -/
theorem sameCwd_job (f : Site W → Job W α) : Moves SameCwd (job os f) := fun _ =>
  ensures_job.2 fun _ _ _ => rfl

theorem sameCwd_fill (size : ℕ) (text : CString) :
    Moves SameCwd (fill (σ := Sys W) size text) := fun t => ensures_fill.2 fun _ => refl t

/-- Setting up the variables of a project does not change the directory. -/
theorem sameCwd_projectInitEnv (attr : ProjectAttr) :
    Moves SameCwd (attr.initEnv os vi pi) := by
  cases attr with
  | fcms =>
    have hset (dir : CString) : Moves SameCwd (setenv (W := W) "CLI_ROOT".toList dir) := fun _ =>
      ensures_setenv.2 rfl
    exact .bind ((sameCwd_fill _ _).bind fun _ => .bind ((sameCwd_fill _ _).bind fun _ =>
      sameCwd_fill _ _) fun _ => (sameCwd_fill _ _).bind fun _ => sameCwd_fill _ _) fun dir =>
        (hset dir).bind fun _ => moves_pure _
  | library => exact moves_pure _
  | _ => exact sameCwd_job _

/-- Nor does taking them away. -/
theorem sameCwd_projectFinitEnv (attr : ProjectAttr) : Moves SameCwd (attr.finitEnv (W := W)) := by
  cases attr with
  | fcms => exact fun _ => ensures_unsetenv.2 rfl
  | _ => exact moves_pure _

/-- Setting up the variables of a version does not change the directory. -/
theorem SetsUp.cwd_eq (h : SetsUp vi t t') : t'.cwd = t.cwd := by
  rw [SetsUp] at h
  rcases hattr : vi.attribute with _ | attr
  · rw [hattr] at h
    exact congrArg Sys.cwd h
  · rw [hattr] at h
    exact (ensures_initEnv_env attr vi t 0 t' h).1

/-- A change of directory succeeds, or else does not lead back to `cwd`. -/
def Leads (cwd : Dir) : SysEvent → Prop
  | .chdir _ path ok => ok ∨ Dir.IsAbsolute path ∧ Dir.walk [] path ≠ cwd
  | _ => True

/-- A change of the directory that leads where it should goes along the path. -/
theorem ensures_chdir_walk (hos : os.Lexical) (h : Logs (Leads cwd) (chdir os path) t)
    (hpath : Dir.IsAbsolute path → Dir.walk [] path = cwd) :
    Ensures (chdir os path) (fun _ t' => t'.cwd = t.cwd.walk path) t := by
  rw [logs_chdir] at h
  rw [ensures_chdir]
  rcases hd : os.chdir t.cwd path t.world with _ | d
  · rw [hd] at h
    obtain h | ⟨habs, hne⟩ := h
    · cases h
    · exact absurd (hpath habs) hne
  · exact hos.chdir hd

/-- A relative path. -/
theorem ensures_chdir_relative (hos : os.Lexical) (h : Logs (Leads cwd) (chdir os path) t)
    (hpath : ¬Dir.IsAbsolute path) :
    Ensures (chdir os path) (fun _ t' => t'.cwd = t.cwd.walk path) t :=
  ensures_chdir_walk hos h fun habs => absurd habs hpath

theorem isAbsolute_dotdot : ¬Dir.IsAbsolute "..".toList := by decide

/-- A project with an attribute is an immediate subdirectory. -/
theorem isChild_of_attribute {attr : ProjectAttr} (h : pi.attribute = some attr) (d : Dir) :
    Dir.IsChild d pi.name := by
  rw [ProjectInf.attribute] at h
  have hcmp := List.find?_some h
  rw [strcmp_eq_zero.1 (of_decide_eq_true hcmp)]
  apply Dir.isChild_of_name
  all_goals cases attr <;> decide

/-- Initialising a project changes to its directory, or fails. -/
theorem ensures_projectInit (hos : os.Lexical) {refresh : Bool}
    (h : Logs (Leads t.cwd) (projectInit os vi pi refresh) t) (hname : ¬Dir.IsAbsolute pi.name) :
    Ensures (projectInit os vi pi refresh) (fun ret t' =>
      (ret = 0 → t'.cwd = t.cwd.walk pi.name) ∧ (ret ≠ 0 → t'.cwd = t.cwd)) t := by
  have hexist : Moves SameCwd (if refresh then pure false
      else job os fun site => site.dirOrFileExist pi.name) :=
    .ite (moves_pure _) (sameCwd_job _)
  have hrefresh (exist : Bool) : Moves SameCwd (if exist then pure 0
      else job os fun site => site.projectRefresh vi pi) :=
    .ite (moves_pure _) (sameCwd_job _)
  refine ensures_bind_of_logs h fun _ => (hexist t).mono fun exist t₁ h₁ h => ?_
  refine ensures_bind_of_logs h fun _ => (hrefresh exist t₁).mono fun ret t₂ h₂ h => ?_
  have hcwd : t₂.cwd = t.cwd := h₂.trans h₁
  rcases ne_or_eq ret 0 with hret | rfl
  · rw [if_pos hret, ensures_pure]
    exact ⟨fun h => absurd h hret, fun _ => hcwd⟩
  rw [if_neg (not_not.2 rfl)] at h ⊢
  refine ensures_bind_of_logs h fun hlog =>
    (ensures_chdir_relative hos hlog hname).mono fun _ t₃ h₃ h => ?_
  rw [hcwd] at h₃
  rcases hattr : pi.attribute with _ | attr
  · exact ensures_pure.2 ⟨fun _ => h₃, fun h => absurd rfl h⟩
  rw [hattr] at h
  refine ensures_bind_of_logs h fun _ => (sameCwd_projectInitEnv attr t₃).mono fun ret t₄ h₄ h => ?_
  rcases ne_or_eq ret 0 with hret | rfl
  -- When the environment is not set up, `..` leads back, as only an immediate
  -- subdirectory has an environment to set up.
  · rw [if_neg hret] at h ⊢
    refine ensures_bind_of_logs h fun hlog =>
      (ensures_chdir_relative hos hlog isAbsolute_dotdot).mono fun _ t₅ h₅ _ => ensures_pure.2 ?_
    refine ⟨fun h => absurd h hret, fun _ => ?_⟩
    rw [h₅, h₄, h₃, Dir.walk_dotdot]
    exact (isChild_of_attribute hattr t.cwd).2.2
  · rw [if_pos rfl, ensures_pure]
    exact ⟨fun _ => h₄.trans h₃, fun h => absurd rfl h⟩

/-- Leaving a project changes to the directory above. -/
theorem ensures_projectFinit (hos : os.Lexical) (h : Logs (Leads cwd) (projectFinit os pi) t) :
    Ensures (projectFinit os pi) (fun _ t' => t'.cwd = t.cwd.dropLast) t := by
  refine ensures_bind_of_logs h fun hlog =>
    (ensures_chdir_relative hos hlog isAbsolute_dotdot).mono fun _ t₁ h₁ _ => ?_
  rw [Dir.walk_dotdot] at h₁
  rcases pi.attribute with _ | attr
  · exact ensures_pure.2 h₁
  · exact (sameCwd_projectFinitEnv attr t₁).mono fun _ _ h₂ => h₂.trans h₁

/-- Linking comes back to the current directory. -/
theorem ensures_linkIptables (hos : os.Lexical) {dir : CString}
    (h : Logs (Leads cwd) (linkIptables os path dir) t) (habs : Dir.IsAbsolute path)
    (hpath : Dir.walk [] path = cwd) :
    Ensures (linkIptables os path dir) (fun _ t' => t'.cwd = cwd) t := by
  refine ensures_bind_of_logs h fun _ _ t₁ _ h => ?_
  refine ensures_bind_of_logs h fun _ _ t₂ _ h => ?_
  refine ensures_bind_of_logs h fun _ _ t₃ _ h => ?_
  refine ensures_bind_of_logs h fun _ _ t₄ _ h => ?_
  -- Wherever the changes of directory before lead to, the last one is to the absolute
  -- path of `cwd`.
  refine ensures_bind_of_logs h fun hlog =>
    (ensures_chdir_walk hos hlog fun _ => hpath).mono fun _ t₅ h₅ _ => ensures_pure.2 ?_
  rw [h₅, Dir.walk_of_isAbsolute habs t₄.cwd [], hpath]

/-- Installing `iptables` comes back to where it started, if its changes of the directory lead
    where they should. -/
theorem ensures_projectIptablesInstall (hos : os.Lexical)
    (h : Logs (Leads t.cwd) (projectIptablesInstall os vi) t) :
    Ensures (projectIptablesInstall os vi) (fun _ t' => t'.cwd = t.cwd) t := by
  refine ensures_bind_of_logs h fun _ => ensures_getcwd.2 fun h => ?_
  rcases hcwd : os.getcwd t.cwd t.world with _ | path
  · exact ensures_pure.2 rfl
  obtain ⟨habs, hpath⟩ := hos.getcwd hcwd
  rw [hcwd] at h
  refine ensures_bind_of_logs h fun _ => ensures_getenv.2 fun h => ?_
  rcases hdir : t.env Site.installRoot with _ | dir
  · exact ensures_pure.2 rfl
  rw [hdir] at h
  refine ensures_bind_of_logs h fun _ => (sameCwd_job _ t).mono fun ret t₁ h₁ h => ?_
  rcases ne_or_eq ret 0 with hret | rfl
  · rw [if_pos hret, ensures_pure]
    exact h₁
  rw [if_neg (not_not.2 rfl)] at h ⊢
  -- The job may fail, but it does not change the directory. Linking does, and goes back to the
  -- one that `getcwd` has returned.
  have hback : Dir.walk [] path = t.cwd := (Dir.walk_of_isAbsolute habs [] t.cwd).trans hpath
  refine ensures_bind_of_logs h fun hlog =>
    (ensures_linkIptables hos hlog habs hback).mono fun ret t₂ h₂ _ => ?_
  rcases ne_or_eq ret 0 with hret | rfl
  · rw [if_pos hret, ensures_pure]
    exact h₂
  rw [if_neg (not_not.2 rfl)]
  split_ifs
  · exact ensures_pure.2 h₂
  refine ensures_bind.2 (ensures_getenv.2 ?_)
  rcases t₂.env "COMPILE_INCLUDE_DIR".toList with _ | dir
  · exact ensures_pure.2 h₂
  · exact (sameCwd_job _ t₂).mono fun _ _ h₃ => h₃.trans h₂

/-- Installing a project comes back to where it started. -/
theorem ensures_projectInstall (hos : os.Lexical) {argv : List CString}
    (h : Logs (Leads t.cwd) (projectInstall os vi pi argv) t) :
    Ensures (projectInstall os vi pi argv) (fun _ t' => t'.cwd = t.cwd) t := by
  rw [projectInstall] at h ⊢
  rcases hattr : pi.attribute with _ | attr
  · exact sameCwd_job _ t
  · rw [hattr] at h
    cases attr with
    | iptables => exact ensures_projectIptablesInstall hos h
    | _ => exact sameCwd_job _ t

/-- Building a version comes back to its directory. -/
theorem ensures_versionBuild (hos : os.Lexical) (h : Logs (Leads t.cwd) (versionBuild os vi) t) :
    Ensures (versionBuild os vi) (fun _ t' => t'.cwd = t.cwd) t := by
  have hbuild : Dir.IsChild t.cwd "build".toList :=
    Dir.isChild_of_name (by decide) (by decide) (by decide) (by decide) t.cwd
  have hurl : Moves SameCwd (versionUrl (σ := Sys W) vi) := fun t =>
    ensures_versionUrl.2 fun _ => refl t
  refine ensures_bind_of_logs h fun _ => (hurl t).mono fun url t₁ h₁ h => ?_
  refine ensures_bind_of_logs h fun _ => (sameCwd_job _ t₁).mono fun _ t₂ h₂ h => ?_
  refine ensures_bind_of_logs h fun _ => (sameCwd_fill _ _ t₂).mono fun cmd t₃ h₃ h => ?_
  refine ensures_bind_of_logs h fun hlog =>
    (ensures_chdir_relative hos hlog hbuild.1).mono fun _ t₄ h₄ h => ?_
  refine ensures_bind_of_logs h fun _ => (sameCwd_job _ t₄).mono fun _ t₅ h₅ h => ?_
  refine ensures_bind_of_logs h fun hlog =>
    (ensures_chdir_relative hos hlog (by decide)).mono fun _ t₆ h₆ _ => ?_
  -- Into `build`, and out again by `../`.
  have hcwd : t₃.cwd = t.cwd := h₃.trans (h₂.trans h₁)
  have hback : t₆.cwd = t.cwd := by
    rw [h₆, h₅, h₄, hcwd, Dir.walk_dotdot_slash, hbuild.2.2]
  rcases vi.attribute with _ | attr
  · exact ensures_pure.2 hback
  · cases attr with
    | v3602 => exact (sameCwd_job _ t₆).mono fun _ _ h₇ => h₇.trans hback
    | appctl => exact (sameCwd_job _ t₆).mono fun _ _ h₇ => h₇.trans hback

/-! ## Where the index leads -/

/-- The directory of what an index denotes. -/
def Index.dir (versions : List VersionInf) : Index → Option Dir
  | .null => none
  | .version i => versions[i]?.map versionDir
  | .project i j => versions[i]?.bind fun vi => vi.projects[j]?.map (projectDir vi)

/-- The current directory is that of what `vty->index` denotes. -/
def Located (s : State (Session W)) : Prop :=
  s.world.shellIndex ≠ .null → s.world.shellIndex.dir s.world.versions = some s.world.sys.cwd

instance : DecidablePred (Located (W := W)) := fun s =>
  inferInstanceAs (Decidable (s.world.shellIndex ≠ .null → s.world.shellIndex.dir
    s.world.versions = some s.world.sys.cwd))

/-- In a version, the shell is in its directory. -/
theorem located_version (hindex : s.world.shellIndex = .version i)
    (hvi : s.world.versions[i]? = some vi) : Located s ↔ s.world.sys.cwd = versionDir vi := by
  rw [Located, hindex, Index.dir, hvi]
  simp [eq_comm]

/-- In a project, the shell is in its directory. -/
theorem located_project (hindex : s.world.shellIndex = .project i j)
    (hvi : s.world.versions[i]? = some vi) (hpi : vi.projects[j]? = some pi) :
    Located s ↔ s.world.sys.cwd = projectDir vi pi := by
  rw [Located, hindex, Index.dir, hvi]
  simp [hpi, eq_comm]

/-- In no version, the shell may be anywhere. -/
theorem located_null (hindex : s.world.shellIndex = .null) : Located s := fun h =>
  absurd hindex h

/-- Where the shell should be does not change with the system. -/
theorem Located.of_cwd_eq (h : Located s) (hcwd : t.cwd = s.world.sys.cwd) :
    Located { s with world.sys := t } := fun hindex => (h hindex).trans (congrArg some hcwd.symm)

/-- Only the directory matters. -/
theorem Located.of_onlyWorld (h : Located s) (hs : OnlyWorld s s') : Located s' := by
  obtain ⟨w, rfl⟩ := hs
  exact h.of_cwd_eq rfl

/-! ## Handlers -/

/-- After an action of the system, what has to be shown is where it leads. -/
theorem located_sys {p : Action W α} {P : α → Sys W → Prop}
    (hp : Ensures p P s.world.sys) : Ensures (sys p)
      (fun a s' => ∃ t, P a t ∧ s' = { s with world.sys := t }) s :=
  ensures_sys.2 (hp.mono fun _ t ht => ⟨t, ht, rfl⟩)

/-- What is logged of the system by an action. -/
theorem logs_leads {p : Action W α} (h : Logs (OnSys (Leads cwd)) (sys p) s) :
    Logs (Leads cwd) p s.world.sys := logs_sys.1 h

/-- Entering a version leads to its directory. -/
theorem located_getVersion (hos : os.Lexical) (h : Idle s) (hargv : ∀ w ∈ argv, w ≠ []) :
    Ensures (getVersion os .shell argv) (fun _ => Located) s := by
  refine (getVersion_spec s).mono ?_
  rintro ret s' ⟨-, name, -, hget⟩
  rcases hget.idle_or_entering h hargv with hidle | ⟨i, arch, s₁, s₂, s₃, hinit, hs, -, rfl⟩
  · exact located_null hidle.index
  obtain ⟨vi, d, w, w', t, hvi, hd, -, hsets, rfl⟩ := versionInit_entered hinit
  obtain ⟨w'', rfl⟩ := hs
  have hvi' : (s₁.world.versions.modify i (VersionInf.setArch arch))[i]? =
      some (vi.setArch arch) := getElem?_modifyVersion hvi
  have hdir : d = versionDir vi := chdir_versionDir hos hd
  have hcwd : t.cwd = versionDir (vi.setArch arch) := hsets.cwd_eq.trans hdir
  exact (located_version rfl hvi').2 hcwd

/-- The project got is the one named. -/
theorem projectGet_name {name : CString}
    (hr : (projectGet os name i).result s = some (some j, s'))
    (hvi : s'.world.versions[i]? = some vi) (hpi : vi.projects[j]? = some pi) : pi.name = name := by
  obtain ⟨vi', hvi', ⟨hnone, -⟩ | ⟨j', hj, rfl, hfind⟩ | ⟨hj, w, rfl⟩⟩ :=
    projectGet_spec name i s (some j) s' hr
  · cases hnone
  · obtain rfl := Option.some.inj hj
    obtain rfl := Option.some.inj (hvi.symm.trans hvi')
    obtain ⟨hlt, hcmp, -⟩ := List.findIdx?_eq_some_iff_getElem.1 hfind
    obtain ⟨_, rfl⟩ := List.getElem?_eq_some_iff.1 hpi
    exact (strcmp_eq_zero.1 (of_decide_eq_true hcmp)).symm
  · obtain rfl := Option.some.inj hj
    have hvi'' : vi = vi'.addProject (projectCreate name) :=
      Option.some.inj (hvi.symm.trans (getElem?_modifyVersion hvi'))
    rw [hvi'', VersionInf.addProject, List.getElem?_concat_length] at hpi
    exact congrArg ProjectInf.name (Option.some.inj hpi).symm

/-- Getting a project changes neither the index nor the directory. -/
theorem located_projectGet (h : Located s) (hindex : s.world.shellIndex = .version i)
    {name : CString} {r : Option ℕ} (hr : (projectGet os name i).result s = some (r, s')) :
    Located s' ∧ s'.world.shellIndex = .version i ∧ s'.world.sys.cwd = s.world.sys.cwd := by
  obtain ⟨vi, hvi, ⟨-, hs⟩ | ⟨j, -, rfl, -⟩ | ⟨-, w, rfl⟩⟩ := projectGet_spec name i s r s' hr
  · obtain ⟨w, rfl⟩ := hs
    exact ⟨h.of_cwd_eq rfl, hindex, rfl⟩
  · exact ⟨h, hindex, rfl⟩
  · have hvi' : (s.world.versions.modify i (VersionInf.addProject (projectCreate name)))[i]? =
        some (vi.addProject (projectCreate name)) := getElem?_modifyVersion hvi
    refine ⟨(located_version ?_ hvi').2 ?_, hindex, rfl⟩
    · exact hindex
    · exact (located_version hindex hvi).1 h

/-- Entering a project leads to its directory, if the change to it succeeds and its name is
    relative. -/
theorem located_getProject (hos : os.Lexical) (h : Located s)
    (hlogs : Logs (OnSys (Leads s.world.sys.cwd)) (getProject os .shell argv) s)
    (hname : ∀ name, argv[0]? = some name → ¬Dir.IsAbsolute name) :
    Ensures (getProject os .shell argv) (fun _ => Located) s := by
  rw [getProject] at hlogs ⊢
  refine ensures_bind_of_logs hlogs fun _ => ensures_castVersion.2 fun i hindex hlogs => ?_
  refine ensures_bind_of_logs hlogs fun _ => ensures_arg.2 fun name harg hlogs => ?_
  refine ensures_bind_of_logs hlogs fun _ r s₁ hr hlogs => ?_
  obtain ⟨h₁, hindex₁, hcwd⟩ := located_projectGet h hindex hr
  rcases r with _ | j
  · exact ensures_bind.2 (ensures_vtyOut.2 (ensures_pure.2 h₁))
  refine ensures_bind_of_logs hlogs fun _ => ensures_projectAt.2 fun vi hvi pi hpi hlogs => ?_
  -- The project has the name that was given, whether it was in the list or not.
  have hrelative : ¬Dir.IsAbsolute pi.name :=
    projectGet_name hr hvi hpi ▸ hname name harg
  refine ensures_bind_of_logs hlogs fun hlog => ?_
  have hlog := logs_leads hlog
  rw [← hcwd] at hlog
  refine (located_sys (ensures_projectInit hos hlog hrelative)).mono ?_
  rintro ret _ ⟨t, ⟨hzero, hne⟩, rfl⟩ -
  rcases ne_or_eq ret 0 with hret | rfl
  · rw [if_pos hret]
    exact ensures_bind.2 (ensures_vtyOut.2 (ensures_pure.2 (h₁.of_cwd_eq (hne hret))))
  · rw [if_neg (not_not.2 rfl), ensures_bind, ensures_setIndex, ensures_bind, ensures_setNode,
      ensures_pure]
    have hdir : t.cwd = projectDir vi pi := by
      rw [hzero rfl, projectDir_eq hrelative, (located_version hindex₁ hvi).1 h₁]
    have hvi' : (({ s₁ with world.sys := t }.setIndex .shell (.project i j)).setNode .shell
        .project).world.versions[i]? = some vi := hvi
    exact (located_project rfl hvi' hpi).2 hdir

/-- Leaving a project leads back to its version, if it is a child of it. -/
theorem located_projectExit (hos : os.Lexical) (h : Located s)
    (hlogs : Logs (OnSys (Leads s.world.sys.cwd)) (projectExit os .shell) s)
    (hchild : ∀ i j vi pi, s.world.shellIndex = .project i j → s.world.versions[i]? = some vi →
      vi.projects[j]? = some pi → Dir.IsChild (versionDir vi) pi.name) :
    Ensures (projectExit os .shell) (fun _ => Located) s := by
  refine ensures_bind_of_logs hlogs fun _ => ensures_castProject.2 fun i j hindex hlogs => ?_
  refine ensures_bind_of_logs hlogs fun _ => ensures_projectAt.2 fun vi hvi pi hpi hlogs => ?_
  refine ensures_bind_of_logs hlogs fun hlog =>
    (located_sys (ensures_projectFinit hos (logs_leads hlog))).mono ?_
  rintro _ _ ⟨t, ht, rfl⟩ -
  obtain ⟨hrelative, -, hback⟩ := hchild i j vi pi hindex hvi hpi
  have hdir : t.cwd = versionDir vi := by
    rw [ht, (located_project hindex hvi hpi).1 h, projectDir_eq hrelative, hback]
  rw [ensures_bind, ensures_setIndex, ensures_bind, ensures_setNode, ensures_pure]
  have hvi' : (({ s with world.sys := t }.setIndex .shell (.version i)).setNode .shell
      .version).world.versions[i]? = some vi := hvi
  exact (located_version rfl hvi').2 hdir

/-- Out of all versions, nothing is asked for. -/
theorem located_versionExit : Ensures (versionExit os .shell) (fun _ => Located) s := by
  refine (versionExit_spec s).mono ?_
  rintro ret _ ⟨-, i, s₁, -, -, rfl⟩
  exact located_null rfl

/-- Out of all versions, nothing is asked for. -/
theorem located_projectEnd : Ensures (projectEnd os .shell) (fun _ => Located) s := by
  refine (projectEnd_spec s).mono ?_
  rintro ret _ ⟨-, i, j, t, s₁, -, -, rfl⟩
  exact located_null rfl

/-- Refreshing a project that is a child of its version comes back to it. -/
theorem located_projectCmdRefresh (hos : os.Lexical) (h : Located s)
    (hlogs : Logs (OnSys (Leads s.world.sys.cwd)) (projectCmdRefresh os .shell) s)
    (hchild : ∀ i j vi pi, s.world.shellIndex = .project i j → s.world.versions[i]? = some vi →
      vi.projects[j]? = some pi → Dir.IsChild (versionDir vi) pi.name) :
    Ensures (projectCmdRefresh os .shell) (fun _ => Located) s := by
  refine ensures_bind_of_logs hlogs fun _ => ensures_castProject.2 fun i j hindex hlogs => ?_
  refine ensures_bind_of_logs hlogs fun _ => ensures_projectAt.2 fun vi hvi pi hpi hlogs => ?_
  obtain ⟨hrelative, -, hback⟩ := hchild i j vi pi hindex hvi hpi
  refine ensures_bind_of_logs hlogs fun hlog =>
    (located_sys (ensures_chdir_relative hos (logs_leads hlog) isAbsolute_dotdot)).mono ?_
  rintro _ _ ⟨t₁, h₁, rfl⟩ hlogs
  refine ensures_bind_of_logs hlogs fun _ => (located_sys (sameCwd_job _ t₁)).mono ?_
  rintro _ _ ⟨t₂, h₂, rfl⟩ hlogs
  refine ensures_bind_of_logs hlogs fun hlog =>
    (located_sys (ensures_chdir_relative hos (logs_leads hlog) hrelative)).mono ?_
  rintro _ _ ⟨t₃, h₃, rfl⟩ -
  have hcwd := (located_project hindex hvi hpi).1 h
  have hdir : t₃.cwd = s.world.sys.cwd := by
    rw [h₃, h₂, h₁, Dir.walk_dotdot, hcwd, projectDir_eq hrelative, hback]
  exact ensures_pure.2 (h.of_cwd_eq hdir)

/-- Building a version comes back to its directory. -/
theorem located_versionBuildTool (hos : os.Lexical) (h : Located s)
    (hlogs : Logs (OnSys (Leads s.world.sys.cwd)) (versionBuildTool os .shell) s) :
    Ensures (versionBuildTool os .shell) (fun _ => Located) s := by
  refine ensures_bind_of_logs hlogs fun _ => ensures_castVersion.2 fun i _ hlogs => ?_
  refine ensures_bind_of_logs hlogs fun _ => ensures_versionAt.2 fun vi _ hlogs => ?_
  refine ensures_bind_of_logs hlogs fun hlog =>
    (located_sys (ensures_versionBuild hos (logs_leads hlog))).mono ?_
  rintro ret _ ⟨t, ht, rfl⟩ -
  have hs := h.of_cwd_eq ht
  rw [ensures_bind, ensures_ite, ensures_vtyOut]
  split_ifs
  · exact ensures_pure.2 hs
  · exact ensures_pure.2 (ensures_pure.2 hs)

/-- Installing and cleaning a project come back to its directory. -/
theorem located_projectMakeInstallOrClean (hos : os.Lexical) (h : Located s)
    (hlogs : Logs (OnSys (Leads s.world.sys.cwd)) (projectMakeInstallOrClean os .shell argv) s) :
    Ensures (projectMakeInstallOrClean os .shell argv) (fun _ => Located) s := by
  refine ensures_bind_of_logs hlogs fun _ => ensures_castProject.2 fun i j _ hlogs => ?_
  refine ensures_bind_of_logs hlogs fun _ => ensures_projectAt.2 fun vi _ pi _ hlogs => ?_
  refine ensures_bind_of_logs hlogs fun _ => ensures_arg.2 fun target _ hlogs => ?_
  refine ensures_bind_of_logs hlogs fun hlog => ?_
  rw [ensures_ite]
  split_ifs with hinstall
  · rw [if_pos hinstall] at hlog
    refine (located_sys (ensures_projectInstall hos (logs_leads hlog))).mono ?_
    rintro _ _ ⟨t, ht, rfl⟩ -
    exact ensures_pure.2 (h.of_cwd_eq ht)
  · refine (located_sys (sameCwd_job _ s.world.sys)).mono ?_
    rintro _ _ ⟨t, ht, rfl⟩ -
    exact ensures_pure.2 (h.of_cwd_eq ht)

/-- The handlers that end up in the enable node, or do not leave it. -/
def checked : List ToolFunc := [.getVersion, .versionExit, .projectEnd]

/-- What the handlers do not check: the changes of directory succeed; the name of
    a project to be entered is a relative path; and that of one to be left by `..`
    leads to an immediate subdirectory. -/
structure Stays (os : Os W) (argv : List CString) (func : ToolFunc) (s : State (Session W)) :
    Prop where
  chdir : func ∉ checked →
    Logs (OnSys (Leads s.world.sys.cwd)) (toolHandler os .shell argv func) s
  enter : func = .getProject → ∀ name, argv[0]? = some name → ¬Dir.IsAbsolute name
  leave : func = .projectExit ∨ func = .projectCmdRefresh → ∀ i j vi pi,
    s.world.shellIndex = .project i j → s.world.versions[i]? = some vi →
      vi.projects[j]? = some pi → Dir.IsChild (versionDir vi) pi.name

/-- Every handler keeps the shell where it should be, if it stays within bounds. -/
theorem located_toolHandler (hos : os.Lexical) {func : ToolFunc} (hs : Consistent s)
    (hfunc : func ∈ nodeFuncs s.shell.node) (hargv : ∀ w ∈ argv, w ≠ []) (h : Located s)
    (hstays : Stays os argv func s) :
    Ensures (toolHandler os .shell argv func) (fun _ => Located) s := by
  by_cases hmover : func ∈ movers
  · obtain ⟨henable, -, -⟩ := node_of_mem hfunc
    obtain ⟨hchdir, henter, hleave⟩ := hstays
    simp only [movers, List.mem_cons, List.not_mem_nil, or_false] at hmover
    rcases hmover with rfl | rfl | rfl | rfl | rfl | rfl | rfl | rfl | rfl | rfl
    · exact located_getVersion hos (hs.idle (henable rfl)) hargv
    · exact located_getProject hos h (hchdir (by decide)) (henter rfl)
    · exact located_versionExit
    · exact located_projectExit hos h (hchdir (by decide)) (hleave (.inl rfl))
    · exact located_projectEnd
    · exact ensures_bind.2 (ensures_setNode.2 (ensures_pure.2 h))
    · exact ensures_bind.2 (ensures_setNode.2 (ensures_pure.2 h))
    · exact located_projectCmdRefresh hos h (hchdir (by decide)) (hleave (.inr rfl))
    · exact located_versionBuildTool hos h (hchdir (by decide))
    · exact located_projectMakeInstallOrClean hos h (hchdir (by decide))
  · exact (moves_toolHandler hmover s).mono fun _ _ => h.of_onlyWorld

/-! ## Runs -/

/-- A line that selects nothing in the enable node calls nothing there. -/
theorem idle_vtyshExecute {line : CString} {vline : List CString} {ret : ℤ}
    (hsorted : Sorted cmdvec) (h : Idle s) (hvline : cmdMakeStrvec line = some vline)
    (hret : cmdExecuteCommand enableNode vline = .returns ret) :
    Ensures ((cliShell os cmdvec crypt).vtyshExecute line) (fun _ => Idle) s := by
  refine ensures_cliShell hsorted h.consistent (fun _ hs => h.of_onlySys hs.onlySys) ?_
  rintro e argv func ⟨vline', hvline', hcall⟩ - - -
  obtain rfl := Option.some.inj (hvline.symm.trans hvline')
  obtain ⟨table, htable, hcall⟩ := Option.map_eq_some_iff.1 hcall
  have henable : cmdvec s.shell.node = some table := htable
  have hrel := hsorted .enable
  rw [h.node] at henable
  rw [henable] at hrel
  cases hrel with
  | some hsort =>
    -- Sorting does not change what a line selects, so it is enough to look at the table
    -- as it is written.
    have hsame : (cmdExecuteCommand enableNode vline).Rel (cmdExecuteCommand table vline) :=
      cmdExecuteWith_reordered hsort.reordered vline
    rw [hret, hcall] at hsame
    cases hsame

/-- The shell starts out of all versions. -/
theorem idle_bootState (dirs : List (CString × List CString)) (t : Sys W) :
    Idle (bootState dirs t) := (consistent_bootState dirs t).idle rfl

/-- A configuration file leaves the shell in the enable node. -/
theorem idle_start (hsorted : Sorted cmdvec) {dirs : List (CString × List CString)} {t : Sys W}
    {file : Option CString} {ret : ℤ} {s₀ : State (Session W)}
    (hstart : ((cliShell os cmdvec crypt).vtyshConfigFromFile file).result (bootState dirs t) =
      some (ret, s₀)) : Idle s₀ := by
  refine Shell.ensures_vtyshConfigFromFile hsorted.config (fun s hs => hs.file) (fun s hs => ?_)
    (fun s hs => ?_) file (idle_bootState dirs t) ret s₀ hstart
  · have hvline : cmdMakeStrvec "end".toList = some ["end".toList] := by decide
    have hret : cmdExecuteCommand enableNode ["end".toList] = .returns cmdErrNoMatch := by
      decide +kernel
    exact idle_vtyshExecute hsorted hs hvline hret
  · have hvline : cmdMakeStrvec "configure terminal".toList =
        some ["configure".toList, "terminal".toList] := by decide
    have hret : cmdExecuteCommand enableNode ["configure".toList, "terminal".toList] =
        .returns cmdErrNoMatch := by decide +kernel
    exact idle_vtyshExecute hsorted hs hvline hret

/-- In every state reached after the start by lines that stay below the directory
    of the version, the current directory is that of what `vty->index` denotes. -/
theorem located_of_reaches (hos : os.Lexical) (hsorted : Sorted cmdvec)
    (dirs : List (CString × List CString)) (t : Sys W) (file : Option CString) {ret : ℤ}
    {s₀ : State (Session W)}
    (hstart : ((cliShell os cmdvec crypt).vtyshConfigFromFile file).result (bootState dirs t) =
      some (ret, s₀))
    (h : (cliShell os cmdvec crypt).Reaches (fun line s => ∀ e argv,
      (cliShell os cmdvec crypt).Calls line s e argv → ∀ func, e.func = some func →
        Stays os argv func s) s₀ s) :
    GoesWith s.shell.node s.world.shellIndex ∧ Located s := by
  have hs₀ : Idle s₀ := idle_start hsorted hstart
  have hs : Consistent s ∧ Located s := by
    have hstart : Consistent s₀ ∧ Located s₀ := ⟨hs₀.consistent, located_null hs₀.index⟩
    refine Shell.Reaches.invariant (I := fun s => Consistent s ∧ Located s) h hstart ?_
    intro line s hs hok
    obtain ⟨hconsistent, hlocated⟩ := hs
    refine (consistent_vtyshExecute hsorted hconsistent line).and ?_
    refine ensures_cliShell hsorted hconsistent (fun _ => hlocated.of_onlyWorld) ?_
    intro e argv func hcalls he hfunc hargv
    exact located_toolHandler hos hconsistent hfunc hargv hlocated (hok e argv hcalls func he)
  exact ⟨hs.1.node, hs.2⟩

/-- After `version trunk soho`, the shell is in the directory of the version. -/
theorem located_of_reaches_soho : ∃ s : State (Session Unit),
    permissiveShell.Reaches (fun line s => ∀ e argv, permissiveShell.Calls line s e argv →
      ∀ func, e.func = some func → Stays .permissive argv func s) permissiveBoot s ∧
    s.shell.node = .version ∧ GoesWith s.shell.node s.world.shellIndex ∧ Located s := by
  have hline : cmdMakeStrvec "version trunk soho".toList =
      some (words ["version", "trunk", "soho"]) := by decide
  have hdispatch : permissiveShell.dispatch cmdExecuteCommand .shell
      (words ["version", "trunk", "soho"]) permissiveBoot =
        some (.call getVersionCmd (words ["trunk", "soho"])) := by decide +kernel
  have hnode : ((permissiveShell.vtyshExecute "version trunk soho".toList).result
      permissiveBoot).any fun r => r.2.shell.node = .version := by decide +kernel
  obtain ⟨⟨ret, s⟩, hret, hnode⟩ := (Option.any_eq_true _ _).1 hnode
  have hreaches : permissiveShell.Reaches (fun line s => ∀ e argv,
      permissiveShell.Calls line s e argv → ∀ func, e.func = some func →
        Stays .permissive argv func s) permissiveBoot s := by
    -- The line is the first one of the run, and enters a version by a plain name.
    refine .line .start ?_ hret
    rintro e argv ⟨vline, hvline, hcall⟩ func hfunc
    obtain rfl := Option.some.inj (hline.symm.trans hvline)
    obtain ⟨rfl, -⟩ := Outcome.call.inj (Option.some.inj (hdispatch.symm.trans hcall))
    obtain rfl := Option.some.inj hfunc
    exact ⟨fun h => absurd (by decide) h, fun h => absurd h (by decide),
      fun h => absurd h (by decide)⟩
  exact ⟨s, hreaches, of_decide_eq_true hnode, located_of_reaches (Os.scripted_lexical _ _ _)
    sorted_sortedNode [("trunk".toList, ["kernel".toList])] ⟨[], fun _ => none, ()⟩ none rfl
    hreaches⟩

/-- A project in a subdirectory of a subdirectory is left for the former. -/
theorem located_exit : Os.permissive.Lexical ∧ Sorted sortedNode ∧
    (permissiveShell.vtyshConfigFromFile none).result permissiveBoot =
      some (-1, permissiveBoot) ∧
    ∃ s, permissiveShell.Reaches (fun _ _ => True) permissiveBoot s ∧ s.shell.node = .version ∧
      s.world.sys.cwd = words ["home", "Bane", "src", "trunk", "a"] ∧ ¬Located s := by
  have hafter : (permissiveShell.afterLines ["version trunk soho".toList, "project a/b".toList,
      "exit".toList] permissiveBoot).any fun s => s.shell.node = .version ∧
        s.world.sys.cwd = words ["home", "Bane", "src", "trunk", "a"] ∧ ¬Located s := by
    decide +kernel
  obtain ⟨s, hs, h⟩ := (Option.any_eq_true _ _).1 hafter
  exact ⟨Os.scripted_lexical _ _ _, sorted_sortedNode, rfl, s,
    Shell.Reaches.start.afterLines (fun _ _ => trivial) hs, of_decide_eq_true h⟩

end Mksh
