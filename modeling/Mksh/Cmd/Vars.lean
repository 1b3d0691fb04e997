import Mksh.Cmd.Directory

/-!
# The environment follows the node

Entering a version or a project sets up variables, and leaving it takes them away
again. Whether they are set follows what `vty->index` denotes (`EnvAt`): if none
of them is set at the start, and the path does not have the cross compiler
(`Pristine`), then the environment is that at the start in every state reached in
the enable node. In the other nodes, the directories that the tools build from,
and install to, are those of the version that has been entered (`env_of_reaches`,
again).
-/

namespace Mksh

open CString Process

variable {W α : Type} {os : Os W} {vi vi' : VersionInf} {pi : ProjectInf} {attr : VersionAttr}
  {t t' : Sys W} {env env₀ : Env} {argv : List CString} {s s' : State (Session W)} {i j : ℕ}
  {arch : CString} {cmdvec : NodeType → Option (List (CmdElement ToolFunc))}
  {crypt : CString → CString → Option CString}

/-! ## Actions -/

/-- The environment is the same. -/
def SameEnv (t t' : Sys W) : Prop := t'.env = t.env

instance : IsPreorder (Sys W) SameEnv where
  refl _ := rfl
  trans _ _ _ h h' := h'.trans h

/-- Child processes do not change the environment of the shell. -/
theorem sameEnv_job (f : Site W → Job W α) : Moves SameEnv (job os f) := fun _ =>
  ensures_job.2 fun _ _ _ => rfl

theorem sameEnv_fill (size : ℕ) (text : CString) :
    Moves SameEnv (fill (σ := Sys W) size text) := fun t => ensures_fill.2 fun _ => refl t

theorem sameEnv_chdir (path : CString) : Moves SameEnv (chdir os path) := fun _ =>
  ensures_chdir.2 rfl

theorem sameEnv_getcwd : Moves SameEnv (getcwd os) := fun t => ensures_getcwd.2 (refl t)

theorem sameEnv_getenv (name : CString) : Moves SameEnv (getenv (W := W) name) := fun t =>
  ensures_getenv.2 (refl t)

theorem sameEnv_linkIptables (cwd dir : CString) : Moves SameEnv (linkIptables os cwd dir) :=
  (sameEnv_fill _ _).bind fun _ => (sameEnv_fill _ _).bind fun _ => (sameEnv_chdir _).bind fun _ =>
    (sameEnv_job _).bind fun _ => (sameEnv_chdir _).bind fun _ => moves_pure _

/-- Installing `iptables` does not change the environment. -/
theorem sameEnv_projectIptablesInstall : Moves SameEnv (projectIptablesInstall os vi) := by
  refine sameEnv_getcwd.bind fun cwd => ?_
  rcases cwd with _ | cwd
  · exact moves_pure _
  refine (sameEnv_getenv _).bind fun dir => ?_
  rcases dir with _ | dir
  · exact moves_pure _
  refine (sameEnv_job _).bind fun _ => .ite (moves_pure _) ?_
  refine (sameEnv_linkIptables _ _).bind fun _ => .ite (moves_pure _) (.ite (moves_pure _) ?_)
  refine (sameEnv_getenv _).bind fun dir => ?_
  rcases dir with _ | dir
  · exact moves_pure _
  · exact sameEnv_job _

/-- Installing a project does not change the environment. -/
theorem sameEnv_projectInstall : Moves SameEnv (projectInstall os vi pi argv) := by
  rw [projectInstall]
  rcases pi.attribute with _ | attr
  · exact sameEnv_job _
  · cases attr with
    | iptables => exact sameEnv_projectIptablesInstall
    | _ => exact sameEnv_job _

/-- Building a version does not change the environment. -/
theorem sameEnv_versionBuild : Moves SameEnv (versionBuild os vi) := by
  have hurl : Moves SameEnv (versionUrl (σ := Sys W) vi) := fun t =>
    ensures_versionUrl.2 fun _ => refl t
  refine hurl.bind fun _ => (sameEnv_job _).bind fun _ => (sameEnv_fill _ _).bind fun _ =>
    (sameEnv_chdir _).bind fun _ => (sameEnv_job _).bind fun _ => (sameEnv_chdir _).bind fun _ => ?_
  rcases vi.attribute with _ | attr
  · exact moves_pure _
  · cases attr with
    | v3602 => exact sameEnv_job _
    | appctl => exact sameEnv_job _

/-! ## Versions -/

/-- The directory to which the files of a version are installed. -/
def VersionAttr.installRoot (vi : VersionInf) : VersionAttr → CString
  | .v3602 => destDir ++ '/' :: vi.name
  | .appctl => destDir ++ '/' :: vi.name ++ "/install/".toList ++ vi.arch

/-- The directory from which a version is built. -/
def VersionInf.srcRoot (vi : VersionInf) : CString := rootDir ++ '/' :: vi.dirName

/-- What a version has set up in the environment `env`, which was `env₀`: the
    variables of its family, and the path, for which there was room. -/
structure VersionEnv (attr : VersionAttr) (vi : VersionInf) (env₀ env : Env) : Prop where
  mask_eq : mask attr.vars env = mask attr.vars (initPath attr vi env₀)
  fits : Crosses attr vi → PathFits env₀
  installRoot : env "INSTALL_ROOT".toList = some (attr.installRoot vi)
  srcRoot : env "SRC_ROOT".toList = some vi.srcRoot

/-- The environment in a version. -/
inductive Entered (vi : VersionInf) (env₀ env : Env) : Prop
  /-- A version without an attribute sets up nothing. -/
  | plain : vi.attribute = none → env = env₀ → Entered vi env₀ env
  | family {attr : VersionAttr} : vi.attribute = some attr → VersionEnv attr vi env₀ env →
      Entered vi env₀ env

/-- Reading another variable. -/
theorem update_apply_of_ne {v w : CString} (h : v ≠ w) (value : Option CString) (env : Env) :
    Function.update env w value v = env v := Function.update_of_ne h value env

/-- Setting up the environment names the directories of the version. -/
theorem ensures_initEnv_roots (attr : VersionAttr) (vi : VersionInf) (t : Sys W) :
    Ensures (attr.initEnv vi) (fun _ t' =>
      t'.env "INSTALL_ROOT".toList = some (attr.installRoot vi) ∧
      t'.env "SRC_ROOT".toList = some vi.srcRoot) t := by
  rcases attr with _ | _
  · simp only [VersionAttr.initEnv, version3602InitEnv, ensures_bind, ensures_versionSrcRootDir,
      ensures_versionInstallDir, ensures_fill, ensures_setenv, ensures_ite, ensures_pure,
      VersionAttr.installRoot, VersionInf.srcRoot]
    intros
    split_ifs
    · simp (disch := decide) only [update_apply_of_ne, Function.update_self, and_self]
    · simp (disch := decide) only [update_apply_of_ne, Function.update_self, and_self]
  · simp only [VersionAttr.initEnv, versionAppctlInitEnv, ensures_bind, ensures_versionSrcRootDir,
      ensures_versionInstallDir, ensures_fill, ensures_setenv, ensures_ite, ensures_pure,
      VersionAttr.installRoot, VersionInf.srcRoot]
    intros
    split_ifs
    · rw [crossInitEnv, ensures_bind, ensures_addCrossarm]
      intro _
      simp (disch := decide) only [ensures_bind, ensures_setenv, mapPath, pathVar,
        update_apply_of_ne, Function.update_self, and_self]
    · simp (disch := decide) only [update_apply_of_ne, Function.update_self, and_self]

/-- Setting up the environment does not go on if there is no room for the path. -/
theorem ensures_initEnv_fits (attr : VersionAttr) (vi : VersionInf) (t : Sys W) :
    Ensures (attr.initEnv vi) (fun _ _ => Crosses attr vi → PathFits t.env) t := by
  rcases attr with _ | _
  · exact fun _ _ _ h => nomatch h.1
  · simp only [VersionAttr.initEnv, versionAppctlInitEnv, ensures_bind, ensures_versionSrcRootDir,
      ensures_versionInstallDir, ensures_fill, ensures_setenv, ensures_ite, ensures_pure,
      strcmp_eq_zero]
    intros
    split_ifs with harm
    · rw [crossInitEnv, ensures_bind, ensures_addCrossarm]
      simp (disch := decide) only [pathFits_update, ensures_bind, ensures_setenv]
      exact fun hfits _ => hfits
    · exact fun h => absurd h.2 harm

/-- Once its variables are set up, a version has been entered. -/
theorem SetsUp.entered (h : SetsUp vi t t') : Entered vi t.env t'.env := by
  rw [SetsUp] at h
  rcases hattr : vi.attribute with _ | attr
  · rw [hattr] at h
    exact .plain hattr (congrArg Sys.env h)
  · rw [hattr] at h
    obtain ⟨hinstall, hsrc⟩ := ensures_initEnv_roots attr vi t 0 t' h
    exact .family hattr ⟨(ensures_initEnv_env attr vi t 0 t' h).2.2,
      ensures_initEnv_fits attr vi t 0 t' h, hinstall, hsrc⟩

/-- The variables that the tools set up, apart from the path. -/
def managedVars : List CString := version3602Vars ++ versionAppctlVars ++ ["CLI_ROOT".toList]

/-- The variables of a version are managed. -/
theorem mem_managedVars {v : CString} (hv : v ∈ attr.vars) : v ∈ managedVars := by
  rcases attr with _ | _
  · exact List.mem_append_left _ (List.mem_append_left _ hv)
  · exact List.mem_append_left _ (List.mem_append_right _ hv)

/-- An environment that the tools can take back: none of their variables is set,
    and the path does not have the cross compiler. -/
structure Pristine (env : Env) : Prop where
  vars : ∀ v ∈ managedVars, env v = none
  path : ∀ path, env pathVar = some path → ¬crossarmBin <:+: path

/-- Tearing down gives the environment before the version was entered. -/
theorem TearsDown.env_eq (h : TearsDown vi t t') (hpristine : Pristine env₀)
    (hentered : Entered vi env₀ t.env) : t'.env = env₀ := by
  rw [TearsDown] at h
  cases hentered with
  | plain hattr henv =>
    rw [hattr] at h
    exact (congrArg Sys.env h).trans henv
  | @family attr hattr henv =>
    rw [hattr] at h
    obtain rfl := ensures_finitEnv_env attr vi t () t' h
    refine (mask_finitPath henv.mask_eq).trans (mask_finitPath_initPath_eq_iff.2 ?_)
    exact ⟨fun v hv => hpristine.vars v (mem_managedVars hv), fun _ => hpristine.path⟩

/-- What a version does to the other variables: it may add the cross compiler to
    the path. -/
theorem Entered.apply_eq (h : Entered vi env₀ env) {v : CString}
    (hv : ∀ attr : VersionAttr, v ∉ attr.vars) : env v = env₀ v ∨
      v = pathVar ∧ env v = (env₀ v).map (· ++ crossarmBin) := by
  cases h with
  | plain _ henv => exact .inl (congrFun henv v)
  | @family attr _ henv =>
    have heq := congrFun henv.mask_eq v
    rw [mask, mask, if_neg (hv attr), if_neg (hv attr), initPath] at heq
    split_ifs at heq
    · by_cases hpath : v = pathVar
      · subst hpath
        exact .inr ⟨rfl, heq.trans (Function.update_self ..)⟩
      · exact .inl (heq.trans (Function.update_of_ne hpath _ _))
    · exact .inl heq

/-- A version does not set the directory of a project. -/
theorem Entered.cliRoot_eq (h : Entered vi env₀ env) :
    env "CLI_ROOT".toList = env₀ "CLI_ROOT".toList := by
  have hvars (attr : VersionAttr) : "CLI_ROOT".toList ∉ attr.vars := by
    cases attr <;> decide
  rcases h.apply_eq hvars with heq | ⟨hpath, -⟩
  · exact heq
  · exact absurd hpath (by decide)

/-! ## Projects -/

/-- The environment that is left when a project is. -/
def ProjectInf.leaveEnv (pi : ProjectInf) (env : Env) : Env :=
  match pi.attribute with
  | some .fcms => Function.update env "CLI_ROOT".toList none
  | _ => env

/-- Leaving a project leaves all variables but one. -/
theorem leaveEnv_apply (pi : ProjectInf) (env : Env) {v : CString} (hv : v ≠ "CLI_ROOT".toList) :
    pi.leaveEnv env v = env v := by
  rw [ProjectInf.leaveEnv]
  rcases pi.attribute with _ | attr
  · rfl
  · cases attr with
    | fcms => exact Function.update_of_ne hv _ _
    | _ => rfl

/-- Setting up the environment of a project is undone by leaving it, or fails and
    changes nothing. -/
theorem ensures_projectInitEnv_env {attr : ProjectAttr} (hattr : pi.attribute = some attr)
    (hroot : t.env "CLI_ROOT".toList = none) :
    Ensures (attr.initEnv os vi pi) (fun ret t' => (ret = 0 → pi.leaveEnv t'.env = t.env) ∧
      (ret ≠ 0 → t'.env = t.env)) t := by
  have hsame {α : Type} {p : Action W α} (hp : Moves SameEnv p) (hne : attr ≠ .fcms) :
      Ensures p (fun _ t' => pi.leaveEnv t'.env = t.env ∧ t'.env = t.env) t := by
    refine (hp t).mono fun _ t' h => ?_
    have hleave : pi.leaveEnv t'.env = t'.env := by
      rw [ProjectInf.leaveEnv, hattr]
      cases attr <;> first | rfl | exact absurd rfl hne
    exact ⟨hleave.trans h, h⟩
  have hjob {p : Action W ℤ} (hp : Moves SameEnv p) (hne : attr ≠ .fcms) :
      Ensures p (fun ret t' => (ret = 0 → pi.leaveEnv t'.env = t.env) ∧
        (ret ≠ 0 → t'.env = t.env)) t :=
    (hsame hp hne).mono fun _ _ h => ⟨fun _ => h.1, fun _ => h.2⟩
  -- Only a project of the family `fcms` sets a variable, and it was not set before.
  cases attr with
  | fcms =>
    have hdir : Moves SameEnv (projectInstallDir (σ := Sys W) vi pi) :=
      (sameEnv_fill _ _).bind fun _ => ((sameEnv_fill _ _).bind fun _ => sameEnv_fill _ _).bind
        fun _ => (sameEnv_fill _ _).bind fun _ => sameEnv_fill _ _
    refine ensures_bind.2 ((hdir t).mono fun dir t' h => ?_)
    rw [ensures_bind, ensures_setenv, ensures_pure]
    refine ⟨fun _ => ?_, fun hret => absurd rfl hret⟩
    rw [ProjectInf.leaveEnv, hattr]
    change Function.update (Function.update t'.env _ _) _ none = t.env
    rw [Function.update_idem, h, ← hroot, Function.update_eq_self]
  | library => exact hjob (moves_pure _) nofun
  | _ => exact hjob (sameEnv_job _) nofun

/-- Initialising a project is undone by leaving it, or fails and changes nothing. -/
theorem ensures_projectInit_env {refresh : Bool} (hroot : t.env "CLI_ROOT".toList = none) :
    Ensures (projectInit os vi pi refresh) (fun ret t' =>
      (ret = 0 → pi.leaveEnv t'.env = t.env) ∧ (ret ≠ 0 → t'.env = t.env)) t := by
  have hexist : Moves SameEnv (if refresh then pure false
      else job os fun site => site.dirOrFileExist pi.name) :=
    .ite (moves_pure _) (sameEnv_job _)
  have hrefresh (exist : Bool) : Moves SameEnv (if exist then pure 0
      else job os fun site => site.projectRefresh vi pi) :=
    .ite (moves_pure _) (sameEnv_job _)
  refine ensures_bind.2 ((hexist t).mono fun exist t₁ h₁ => ?_)
  refine ensures_bind.2 ((hrefresh exist t₁).mono fun ret t₂ h₂ => ?_)
  have henv : t₂.env = t.env := h₂.trans h₁
  rw [ensures_ite]
  split_ifs with hret
  · rw [ensures_pure]
    exact ⟨fun h => absurd h hret, fun _ => henv⟩
  refine ensures_bind.2 ((sameEnv_chdir _ t₂).mono fun _ t₃ h₃ => ?_)
  have henv₃ : t₃.env = t.env := Eq.trans h₃ henv
  -- Until here the environment is the one of the start.
  rcases hattr : pi.attribute with _ | attr
  · rw [ensures_pure, ProjectInf.leaveEnv, hattr]
    exact ⟨fun _ => henv₃, fun h => absurd rfl h⟩
  have hroot₃ : t₃.env "CLI_ROOT".toList = none := henv₃ ▸ hroot
  refine ensures_bind.2 ((ensures_projectInitEnv_env hattr hroot₃).mono fun ret t₄ h₄ => ?_)
  rw [henv₃] at h₄
  rw [ensures_ite]
  split_ifs with hret₄
  · rw [ensures_pure]
    exact ⟨fun _ => h₄.1 hret₄, fun h => absurd rfl h⟩
  · -- Where the setup fails, the function goes back, and leaves the environment.
    refine ensures_bind.2 ((sameEnv_chdir _ t₄).mono fun _ t₅ h₅ => ?_)
    rw [ensures_pure]
    exact ⟨fun h => absurd h hret₄, fun _ => Eq.trans h₅ (h₄.2 hret₄)⟩

/-- What leaving a project does to the environment. -/
theorem ensures_projectFinit_env (pi : ProjectInf) (t : Sys W) :
    Ensures (projectFinit os pi) (fun _ t' => t'.env = pi.leaveEnv t.env) t := by
  refine ensures_bind.2 ((sameEnv_chdir _ t).mono fun _ t₁ h₁ => ?_)
  rw [ProjectInf.leaveEnv, ← show t₁.env = t.env from h₁]
  rcases pi.attribute with _ | attr
  · exact ensures_pure.2 rfl
  · cases attr with
    | fcms => exact ensures_unsetenv.2 rfl
    | _ => exact ensures_pure.2 rfl

/-! ## What the index denotes -/

/-- The environment that goes with an index. -/
inductive EnvAt (env₀ : Env) (versions : List VersionInf) (env : Env) : Index → Prop
  | null : env = env₀ → EnvAt env₀ versions env .null
  | version {i : ℕ} {vi : VersionInf} : versions[i]? = some vi → Entered vi env₀ env →
      EnvAt env₀ versions env (.version i)
  | project {i j : ℕ} {vi : VersionInf} {pi : ProjectInf} : versions[i]? = some vi →
      vi.projects[j]? = some pi → Entered vi env₀ (pi.leaveEnv env) →
      EnvAt env₀ versions env (.project i j)

/-- The environment is that of what `vty->index` denotes. -/
def Follows (env₀ : Env) (s : State (Session W)) : Prop :=
  EnvAt env₀ s.world.versions s.world.sys.env s.world.shellIndex

/-- Only the environment matters of the system. -/
theorem Follows.of_sameEnv (h : Follows env₀ s) (ht : SameEnv s.world.sys t) :
    Follows env₀ { s with world.sys := t } := by
  rw [Follows] at h ⊢
  rwa [show t.env = s.world.sys.env from ht]

/-- Only the environment and the versions matter. -/
theorem Follows.of_onlyWorld (h : Follows env₀ s) (hs : OnlyWorld s s') : Follows env₀ s' := by
  obtain ⟨w, rfl⟩ := hs
  exact h.of_sameEnv rfl

/-- Out of all versions, the environment is that at the start. -/
theorem Follows.null (h : Follows env₀ s) (hindex : s.world.shellIndex = .null) :
    s.world.sys.env = env₀ := by
  rw [Follows, hindex] at h
  cases h with
  | null henv => exact henv

/-- In a version, the environment is as it is when this is entered. -/
theorem Follows.version (h : Follows env₀ s) (hindex : s.world.shellIndex = .version i)
    (hvi : s.world.versions[i]? = some vi) : Entered vi env₀ s.world.sys.env := by
  rw [Follows, hindex] at h
  cases h with
  | version hvi' hentered => exact Option.some.inj (hvi.symm.trans hvi') ▸ hentered

/-- In a project, it is that of its version when the project is left. -/
theorem Follows.project (h : Follows env₀ s) (hindex : s.world.shellIndex = .project i j)
    (hvi : s.world.versions[i]? = some vi) (hpi : vi.projects[j]? = some pi) :
    Entered vi env₀ (pi.leaveEnv s.world.sys.env) := by
  rw [Follows, hindex] at h
  cases h with
  | project hvi' hpi' hentered =>
    obtain rfl := Option.some.inj (hvi.symm.trans hvi')
    exact Option.some.inj (hpi.symm.trans hpi') ▸ hentered

/-! ## Handlers -/

/-- Asking for a version does not change the environment. -/
theorem env_versionGet {name : CString} {r : Option ℕ}
    (hr : (versionGet os name).result s = some (r, s')) : s'.world.sys.env = s.world.sys.env := by
  rcases versionGet_spec name s r s' hr with ⟨-, w, rfl⟩ | ⟨i, -, rfl, -⟩ | ⟨-, w, rfl⟩
  · rfl
  · rfl
  · rfl

/-- Initialising a version sets up its environment, or fails and changes nothing. -/
theorem env_versionInit {ret : ℤ} (hr : (versionInit os i arch).result s = some (ret, s')) :
    (ret ≠ 0 → s'.world.sys.env = s.world.sys.env) ∧
      (ret = 0 → ∃ vi, s'.world.versions[i]? = some vi ∧
        Entered vi s.world.sys.env s'.world.sys.env) := by
  obtain ⟨vi, hvi, hinit⟩ := versionInit_spec i arch s ret s' hr
  cases hinit with
  | stays w => exact ⟨fun _ => rfl, fun hret => absurd hret (by decide)⟩
  | refused w' hd => exact ⟨fun _ => rfl, fun hret => absurd hret (by decide)⟩
  | entered w' hd hacc hsets =>
    exact ⟨fun hret => absurd rfl hret, fun _ => ⟨vi.setArch arch, getElem?_modifyVersion hvi,
      hsets.entered⟩⟩

/-- Leaving a version gives the environment before it was entered. -/
theorem env_versionFinit (hpristine : Pristine env₀) (hvi : s.world.versions[i]? = some vi)
    (hentered : Entered vi env₀ s.world.sys.env)
    (hr : (versionFinit os i).result s = some ((), s')) : s'.world.sys.env = env₀ := by
  obtain ⟨vi', t, hvi', htears, rfl⟩ := versionFinit_spec i s () s' hr
  obtain rfl := Option.some.inj (hvi.symm.trans hvi')
  exact htears.env_eq hpristine hentered

/-- The environment follows the shell into a version. -/
theorem follows_getVersion (hpristine : Pristine env₀) (h : Follows env₀ s) (hs : Idle s)
    (hargv : ∀ w ∈ argv, w ≠ []) :
    Ensures (getVersion os .shell argv) (fun _ => Follows env₀) s := by
  refine (getVersion_spec s).mono ?_
  rintro ret s' ⟨-, name, -, hget⟩
  have henv := h.null hs.index
  have hnull {s' : State (Session W)} (hindex : s'.world.shellIndex = .null)
      (henv : s'.world.sys.env = env₀) : Follows env₀ s' := by
    rw [Follows, hindex]
    exact .null henv
  -- The handler enters the version, or leaves the index null. In the first three cases the
  -- environment has to be the one of the start.
  cases hget with
  | unknown hr => exact hnull (idle_versionGet hs hr).index ((env_versionGet hr).trans henv)
  | failed hr harch hinit hret =>
    have hidle := (idle_versionInit (idle_versionGet hs hr) (hargv _ (List.mem_of_getElem? harch))
      hinit).1 hret
    exact hnull hidle.index
      (((env_versionInit hinit).1 hret).trans ((env_versionGet hr).trans henv))
  | @left i arch s₁ s₂ s₃ _ hr harch hinit hworld hfinit =>
    have hentering := ((idle_versionInit (idle_versionGet hs hr)
      (hargv _ (List.mem_of_getElem? harch)) hinit).2 rfl).of_onlySys hworld.onlySys
    have hindex := (versionFinit_owned hentering.owned (fun k hk => (Option.some.inj hk).symm)
      hfinit).2.2.1.trans hentering.index
    obtain ⟨vi, hvi, hentered⟩ := (env_versionInit hinit).2 rfl
    rw [env_versionGet hr, henv] at hentered
    obtain ⟨w, rfl⟩ := hworld
    have hvi' : ({ s₂ with world.sys.world := w } : State (Session W)).world.versions[i]? =
        some vi := hvi
    exact hnull hindex (env_versionFinit hpristine hvi' hentered hfinit)
  | @entered i arch s₁ s₂ s₃ hr harch hinit hworld =>
    obtain ⟨w, rfl⟩ := hworld
    obtain ⟨vi, hvi, hentered⟩ := (env_versionInit hinit).2 rfl
    rw [env_versionGet hr, henv] at hentered
    exact EnvAt.version hvi hentered

/-- Getting a project changes neither the index nor the environment. -/
theorem follows_projectGet {name : CString} {r : Option ℕ} (h : Follows env₀ s)
    (hindex : s.world.shellIndex = .version i)
    (hr : (projectGet os name i).result s = some (r, s')) :
    Follows env₀ s' ∧ s'.world.shellIndex = .version i := by
  obtain ⟨vi, hvi, ⟨-, w, rfl⟩ | ⟨j, -, rfl, -⟩ | ⟨-, w, rfl⟩⟩ := projectGet_spec name i s r s' hr
  · exact ⟨h.of_sameEnv rfl, hindex⟩
  · exact ⟨h, hindex⟩
  · have hentered := h.version hindex hvi
    have hvi' :
        (s.modifyVersion i (VersionInf.addProject (projectCreate name))).world.versions[i]? =
          some (vi.addProject (projectCreate name)) := getElem?_modifyVersion hvi
    refine ⟨?_, hindex⟩
    rw [Follows]
    change EnvAt env₀ _ _ s.world.shellIndex
    rw [hindex]
    -- Neither the name nor the architecture of the version is another.
    refine EnvAt.version hvi' ?_
    cases hentered with
    | plain hattr henv => exact .plain hattr henv
    | family hattr henv =>
      exact .family hattr ⟨henv.mask_eq, henv.fits, henv.installRoot, henv.srcRoot⟩

/-- The environment follows the shell into a project. -/
theorem follows_getProject (hpristine : Pristine env₀) (h : Follows env₀ s) :
    Ensures (getProject os .shell argv) (fun _ => Follows env₀) s := by
  refine (getProject_spec s).mono ?_
  rintro ret s' ⟨i, name, hindex, -, hget⟩
  have hroot {s₁ : State (Session W)} {vi : VersionInf} (h : Follows env₀ s₁)
      (hindex : s₁.world.shellIndex = .version i) (hvi : s₁.world.versions[i]? = some vi) :
      s₁.world.sys.env "CLI_ROOT".toList = none :=
    (h.version hindex hvi).cliRoot_eq.trans (hpristine.vars _ (by decide))
  cases hget with
  | unknown hr => exact (follows_projectGet h hindex hr).1
  | failed hr hvi hpi hinit hret =>
    obtain ⟨h₁, hindex₁⟩ := follows_projectGet h hindex hr
    exact h₁.of_sameEnv
      ((ensures_projectInit_env (hroot h₁ hindex₁ hvi) _ _ hinit).2 hret)
  | @entered j s₁ vi pi refresh t hr hvi hpi hinit =>
    obtain ⟨h₁, hindex₁⟩ := follows_projectGet h hindex hr
    refine EnvAt.project hvi hpi ?_
    change Entered vi env₀ (pi.leaveEnv t.env)
    rw [(ensures_projectInit_env (hroot h₁ hindex₁ hvi) _ _ hinit).1 rfl]
    exact h₁.version hindex₁ hvi

/-- The environment follows the shell out of a version. -/
theorem follows_versionExit (hpristine : Pristine env₀) (h : Follows env₀ s) :
    Ensures (versionExit os .shell) (fun _ => Follows env₀) s := by
  refine (versionExit_spec s).mono ?_
  rintro ret _ ⟨-, i, s₁, hindex, hfinit, rfl⟩
  obtain ⟨vi, t, hvi, -, -⟩ := versionFinit_spec i s () s₁ hfinit
  have henv := env_versionFinit hpristine hvi (h.version hindex hvi) hfinit
  exact EnvAt.null henv

/-- The environment follows the shell back to a version. -/
theorem follows_projectExit (h : Follows env₀ s) :
    Ensures (projectExit os .shell) (fun _ => Follows env₀) s := by
  refine (projectExit_spec s).mono ?_
  rintro ret _ ⟨-, i, j, vi, pi, t, hindex, hvi, hpi, hfinit, rfl⟩
  refine EnvAt.version hvi ?_
  change Entered vi env₀ t.env
  rw [ensures_projectFinit_env pi _ _ _ hfinit]
  exact h.project hindex hvi hpi

/-- The environment follows the shell out of a project and its version. -/
theorem follows_projectEnd (hpristine : Pristine env₀) (h : Follows env₀ s) :
    Ensures (projectEnd os .shell) (fun _ => Follows env₀) s := by
  refine ensures_bind.2 (ensures_castProject.2 fun i j hindex => ?_)
  refine ensures_bind.2 (ensures_projectAt.2 fun vi hvi pi hpi => ?_)
  refine ensures_bind.2 (ensures_sys.2 ((ensures_projectFinit_env pi _).mono fun _ t ht => ?_))
  refine ensures_bind.2 fun _ s₁ hfinit => ensures_bind.2 (ensures_setIndex.2 ?_)
  refine ensures_bind.2 (ensures_setNode.2 (ensures_pure.2 ?_))
  -- Leaving the project gives the environment of the version, which is then left.
  have hentered : Entered vi env₀ t.env := ht ▸ h.project hindex hvi hpi
  have hvi' : ({ s with world.sys := t } : State (Session W)).world.versions[i]? = some vi := hvi
  have henv := env_versionFinit hpristine hvi' hentered hfinit
  exact EnvAt.null henv

/-- Most actions leave the environment as it is. -/
theorem follows_sys {p : Action W α} (h : Follows env₀ s) (hp : Moves SameEnv p) :
    Ensures (sys p) (fun _ => Follows env₀) s :=
  ensures_sys.2 ((hp _).mono fun _ _ => h.of_sameEnv)

/-- Refreshing a project does not change the environment. -/
theorem follows_projectCmdRefresh (h : Follows env₀ s) :
    Ensures (projectCmdRefresh os .shell) (fun _ => Follows env₀) s := by
  refine ensures_bind.2 (ensures_castProject.2 fun i j _ => ?_)
  refine ensures_bind.2 (ensures_projectAt.2 fun vi _ pi _ => ?_)
  refine ensures_bind.2 ((follows_sys h (sameEnv_chdir _)).mono fun _ s₁ h₁ => ?_)
  refine ensures_bind.2 ((follows_sys h₁ (sameEnv_job _)).mono fun _ s₂ h₂ => ?_)
  refine ensures_bind.2 ((follows_sys h₂ (sameEnv_chdir _)).mono fun _ s₃ h₃ => ?_)
  exact ensures_pure.2 h₃

theorem follows_versionBuildTool (h : Follows env₀ s) :
    Ensures (versionBuildTool os .shell) (fun _ => Follows env₀) s := by
  refine ensures_bind.2 (ensures_castVersion.2 fun i _ => ?_)
  refine ensures_bind.2 (ensures_versionAt.2 fun vi _ => ?_)
  refine ensures_bind.2 ((follows_sys h sameEnv_versionBuild).mono fun ret s₁ h₁ => ?_)
  rw [ensures_bind, ensures_ite, ensures_vtyOut]
  split_ifs
  · exact ensures_pure.2 h₁
  · exact ensures_pure.2 (ensures_pure.2 h₁)

theorem follows_projectMakeInstallOrClean (h : Follows env₀ s) :
    Ensures (projectMakeInstallOrClean os .shell argv) (fun _ => Follows env₀) s := by
  refine ensures_bind.2 (ensures_castProject.2 fun i j _ => ?_)
  refine ensures_bind.2 (ensures_projectAt.2 fun vi _ pi _ => ?_)
  refine ensures_bind.2 (ensures_arg.2 fun target _ => ?_)
  rw [ensures_bind, ensures_ite]
  split_ifs
  · exact (follows_sys h sameEnv_projectInstall).mono fun _ _ h₁ => ensures_pure.2 h₁
  · exact (follows_sys h (sameEnv_job _)).mono fun _ _ h₁ => ensures_pure.2 h₁

/-- Every handler installed in the node keeps the environment following it. -/
theorem follows_toolHandler {func : ToolFunc} (hpristine : Pristine env₀) (hs : Consistent s)
    (hfunc : func ∈ nodeFuncs s.shell.node) (hargv : ∀ w ∈ argv, w ≠ []) (h : Follows env₀ s) :
    Ensures (toolHandler os .shell argv func) (fun _ => Follows env₀) s := by
  by_cases hmover : func ∈ movers
  · obtain ⟨henable, -, -⟩ := node_of_mem hfunc
    simp only [movers, List.mem_cons, List.not_mem_nil, or_false] at hmover
    rcases hmover with rfl | rfl | rfl | rfl | rfl | rfl | rfl | rfl | rfl | rfl
    · exact follows_getVersion hpristine h (hs.idle (henable rfl)) hargv
    · exact follows_getProject hpristine h
    · exact follows_versionExit hpristine h
    · exact follows_projectExit h
    · exact follows_projectEnd hpristine h
    · exact ensures_bind.2 (ensures_setNode.2 (ensures_pure.2 h))
    · exact ensures_bind.2 (ensures_setNode.2 (ensures_pure.2 h))
    · exact follows_projectCmdRefresh h
    · exact follows_versionBuildTool h
    · exact follows_projectMakeInstallOrClean h
  · exact (moves_toolHandler hmover s).mono fun _ _ => h.of_onlyWorld

/-! ## Runs -/

/-- The environment follows the shell, whatever line is typed. -/
theorem follows_vtyshExecute (hsorted : Sorted cmdvec) (hpristine : Pristine env₀)
    (h : Consistent s ∧ Follows env₀ s) (line : CString) :
    Ensures ((cliShell os cmdvec crypt).vtyshExecute line)
      (fun _ s' => Consistent s' ∧ Follows env₀ s') s := by
  obtain ⟨hs, hfollows⟩ := h
  refine (consistent_vtyshExecute hsorted hs line).and ?_
  refine ensures_cliShell hsorted hs (fun _ => hfollows.of_onlyWorld) ?_
  intro e argv func _ _ hfunc hargv
  exact follows_toolHandler hpristine hs hfunc hargv hfollows

/-- In every state reached, the environment is that of what `vty->index` denotes. -/
theorem follows_of_reaches (hsorted : Sorted cmdvec) (dirs : List (CString × List CString))
    (t : Sys W) (hpristine : Pristine t.env) (file : Option CString) {ret : ℤ}
    {s₀ : State (Session W)}
    (hstart : ((cliShell os cmdvec crypt).vtyshConfigFromFile file).result (bootState dirs t) =
      some (ret, s₀))
    (h : (cliShell os cmdvec crypt).Reaches (fun _ _ => True) s₀ s) :
    Consistent s ∧ Follows t.env s := by
  have hline (line : CString) (s : State (Session W)) (hs : Consistent s ∧ Follows t.env s) :
      Ensures ((cliShell os cmdvec crypt).vtyshExecute line)
        (fun _ s' => Consistent s' ∧ Follows t.env s') s :=
    follows_vtyshExecute hsorted hpristine hs line
  have hboot : Consistent (bootState dirs t) ∧ Follows t.env (bootState dirs t) :=
    ⟨consistent_bootState dirs t, EnvAt.null rfl⟩
  have hs₀ : Consistent s₀ ∧ Follows t.env s₀ :=
    Shell.ensures_vtyshConfigFromFile hsorted.config (fun s hs => hs.1.file) (hline _) (hline _)
      file hboot ret s₀ hstart
  exact h.invariant hs₀ fun line s hs _ => hline line s hs

/-- What may have changed in the environment, apart from the variables of the tools. -/
theorem Follows.apply_eq (h : Follows env₀ s) {v : CString} (hv : v ∉ managedVars) :
    s.world.sys.env v = env₀ v ∨
      v = pathVar ∧ s.world.sys.env v = (env₀ v).map (· ++ crossarmBin) := by
  have hvars (attr : VersionAttr) : v ∉ attr.vars := fun hmem => hv (mem_managedVars hmem)
  have hroot : v ≠ "CLI_ROOT".toList := by
    rintro rfl
    exact hv (by decide)
  rw [Follows] at h
  generalize s.world.shellIndex = index at h
  cases h with
  | null henv => exact .inl (congrFun henv v)
  | version _ hentered => exact hentered.apply_eq hvars
  | project _ _ hentered =>
    have heq := hentered.apply_eq hvars
    rwa [leaveEnv_apply _ _ hroot] at heq

/-- The directories that the tools build from, and install to. -/
theorem Follows.roots (h : Follows env₀ s) (howner : s.world.shellIndex.owner = some i)
    (hvi : s.world.versions[i]? = some vi) (hattr : vi.attribute = some attr) :
    s.world.sys.env "INSTALL_ROOT".toList = some (attr.installRoot vi) ∧
      s.world.sys.env "SRC_ROOT".toList = some vi.srcRoot := by
  have hfamily {env : Env} (hentered : Entered vi env₀ env) : VersionEnv attr vi env₀ env := by
    cases hentered with
    | plain hnone _ => cases hattr.symm.trans hnone
    | family hattr' henv => exact Option.some.inj (hattr'.symm.trans hattr) ▸ henv
  rw [Follows] at h
  generalize s.world.shellIndex = index at h howner
  cases h with
  | null henv => cases howner
  | version hvi' hentered =>
    obtain rfl := Option.some.inj howner
    obtain rfl := Option.some.inj (hvi.symm.trans hvi')
    exact ⟨(hfamily hentered).installRoot, (hfamily hentered).srcRoot⟩
  | project hvi' _ hentered =>
    obtain rfl := Option.some.inj howner
    obtain rfl := Option.some.inj (hvi.symm.trans hvi')
    obtain ⟨-, -, hinstall, hsrc⟩ := hfamily hentered
    rw [leaveEnv_apply _ _ (by decide)] at hinstall hsrc
    exact ⟨hinstall, hsrc⟩

theorem pristine_pathSys : Pristine (pathSys "/bin".toList).env := by
  refine ⟨fun v hv => pathSys_env_of_ne fun h => absurd (h ▸ hv) (by decide), ?_⟩
  rintro path ⟨⟩
  rw [← strstr_isSome]
  decide

end Mksh
