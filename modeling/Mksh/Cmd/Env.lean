import Mksh.Cmd.Arch

/-!
# The environment of a version

Setting up the environment of a version, and tearing it down, masks the
variables of its family (`mask`), and may change the path (`initPath`,
`finitPath`). The environment is what it was before (`achieves_initEnv_finitEnv_iff`)
unless the path already has the cross compiler, at which it is then cut, or has
no room for it in its buffer.
-/

namespace Mksh

open CString Process

variable {W : Type} {names : List CString} {name : CString} {env env' : Env} {vi : VersionInf}
  {attr : VersionAttr} {t : Sys W}

/-! ## Masking variables -/

/-- The environment with some variables unset. -/
def mask (names : List CString) (env : Env) : Env := fun v => if v ∈ names then none else env v

/-- A variable that is masked may be set to anything. -/
theorem mask_update (h : name ∈ names) (value : Option CString) (env : Env) :
    mask names (Function.update env name value) = mask names env := by
  funext v
  rw [mask, mask]
  split_ifs with hv
  · rfl
  · rw [Function.update_of_ne]
    rintro rfl
    exact hv h

/-- Masking gives an environment that is the same at the variables if and only if
    it has none of them, and is the same elsewhere. -/
theorem mask_eq_iff (h : ∀ v ∈ names, env' v = env v) :
    mask names env' = env ↔ (∀ v ∈ names, env v = none) ∧ env' = env := by
  constructor
  · intro hm
    refine ⟨fun v hv => ?_, funext fun v => ?_⟩
    · rw [← hm, mask, if_pos hv]
    · by_cases hv : v ∈ names
      · exact h v hv
      · rw [← hm, mask, if_neg hv]
  · rintro ⟨hnone, rfl⟩
    funext v
    rw [mask]
    split_ifs with hv
    · exact (hnone v hv).symm
    · rfl

/-- Unsetting variables one after the other masks them. -/
theorem unsetenvs_eq (names : List CString) : unsetenvs names =
    (Process.modify fun t => { t with env := mask names t.env } : Action W Unit) := by
  induction names with
  | nil => rfl
  | cons name names ih =>
    have hcons (env : Env) : mask names (Function.update env name none) =
        mask (name :: names) env := by
      funext v
      by_cases hv : v = name
      · simp [mask, hv]
      · simp [mask, hv]
    rw [unsetenvs, ih]
    funext t
    simp only [← hcons]
    rfl

/-! ## The path -/

/-- The search path of commands, the only variable that is changed, and not just set. -/
def pathVar : CString := "PATH".toList

/-- What is left of a path that is cut at the cross compiler. -/
def cutPath (path : CString) : CString := path.take ((strstr path crossarmBin).getD path.length)

/-- There is room for the cross compiler in the buffer for the path. -/
def PathFits (env : Env) : Prop :=
  ∀ path, env pathVar = some path → (path ++ crossarmBin).length < mkMaxStrLen

/-- The path, changed. -/
def mapPath (f : CString → CString) (env : Env) : Env :=
  Function.update env pathVar ((env pathVar).map f)

/-- Cutting what has been added leaves the path, unless it was there before. -/
theorem cutPath_append {path : CString} :
    cutPath (path ++ crossarmBin) = path ↔ ¬crossarmBin <:+: path := by
  have hstr : strstr (path ++ crossarmBin) crossarmBin =
      some ((strstr path crossarmBin).getD path.length) := strstr_append_self (by decide) path
  rw [cutPath, hstr, Option.getD_some, ← strstr_isSome]
  rcases hs : strstr path crossarmBin with _ | n
  · simp
  · -- The path is cut before an occurrence of its own, and gets shorter.
    have hlen := add_length_le_of_strstr hs
    have hpos : 0 < crossarmBin.length := by decide
    simp only [Option.getD_some, Option.isSome_some, not_true, iff_false]
    intro h
    have hl := congrArg List.length h
    rw [List.length_take, List.length_append] at hl
    omega

/-- Only the path itself has to fit. -/
theorem pathFits_update (h : name ≠ pathVar) (value : Option CString) (env : Env) :
    PathFits (Function.update env name value) ↔ PathFits env := by
  rw [PathFits, Function.update_of_ne h.symm, PathFits]

/-- When adding the cross compiler to the path works, and what it does. -/
theorem achieves_addCrossarm {Q : Unit → Sys W → Prop} : Achieves addCrossarm Q t ↔
    PathFits t.env ∧ Q () { t with env := mapPath (· ++ crossarmBin) t.env } := by
  rw [addCrossarm, ← pathVar, achieves_bind, achieves_getenv, PathFits, mapPath]
  rcases ht : t.env pathVar with _ | path
  · have hsame : Function.update t.env pathVar none = t.env := by
      rw [← ht, Function.update_eq_self]
    simp [hsame]
  · simp only [achieves_bind, achieves_fill, achieves_setenv, Option.map_some, Option.some.injEq,
      forall_eq']
    refine ⟨fun h => h.2, fun h => ⟨?_, h⟩⟩
    exact (List.length_append ▸ Nat.le_add_right _ _ : path.length ≤ _).trans_lt h.1

/-- When cutting the path works, and what it does. -/
theorem achieves_cutCrossarm {Q : Unit → Sys W → Prop} : Achieves cutCrossarm Q t ↔
    (∀ path, t.env pathVar = some path → path.length < mkMaxStrLen) ∧
      Q () { t with env := mapPath cutPath t.env } := by
  rw [cutCrossarm, ← pathVar, achieves_bind, achieves_getenv, mapPath]
  rcases ht : t.env pathVar with _ | path
  · have hsame : Function.update t.env pathVar none = t.env := by
      rw [← ht, Function.update_eq_self]
    simp [hsame]
  · simp only [achieves_bind, achieves_fill, Option.some.injEq, forall_eq']
    refine and_congr_right fun _ => ?_
    rw [Option.map_some, cutPath]
    rcases strstr path crossarmBin with _ | n
    · have hsame : Function.update t.env pathVar (some path) = t.env := by
        rw [← ht, Function.update_eq_self]
      simp [hsame]
    · exact achieves_setenv

/-- What adding the cross compiler does, if it returns. -/
theorem ensures_addCrossarm {Q : Unit → Sys W → Prop} : Ensures addCrossarm Q t ↔
    (PathFits t.env → Q () { t with env := mapPath (· ++ crossarmBin) t.env }) :=
  ensures_of_achieves_iff fun _ => achieves_addCrossarm

/-- What cutting the path does, if it returns. -/
theorem ensures_cutCrossarm {Q : Unit → Sys W → Prop} : Ensures cutCrossarm Q t ↔
    ((∀ path, t.env pathVar = some path → path.length < mkMaxStrLen) →
      Q () { t with env := mapPath cutPath t.env }) :=
  ensures_of_achieves_iff fun _ => achieves_cutCrossarm

/-- Changing the path goes with masking other variables. -/
theorem mask_mapPath (f : CString → CString) (hp : pathVar ∉ names)
    (h : mask names env = mask names env') :
    mask names (mapPath f env) = mask names (mapPath f env') := by
  have hmask {v : CString} (hv : v ∉ names) : env v = env' v := by
    have heq := congrFun h v
    rwa [mask, mask, if_neg hv, if_neg hv] at heq
  funext v
  rw [mask, mask]
  split_ifs with hv
  · rfl
  · by_cases hpath : v = pathVar
    · rw [hpath, mapPath, mapPath, Function.update_self, Function.update_self, hmask hp]
    · rw [mapPath, mapPath, Function.update_of_ne hpath, Function.update_of_ne hpath, hmask hv]

/-! ## Setting up and tearing down -/

/-- The variables of a family of versions. -/
def VersionAttr.vars : VersionAttr → List CString
  | .v3602 => version3602Vars
  | .appctl => versionAppctlVars

/-- The path is not one of the variables that are unset. -/
theorem pathVar_notMem_vars (attr : VersionAttr) : pathVar ∉ attr.vars := by
  rcases attr with _ | _
  · decide
  · decide

/-- The version is cross-compiled. -/
def Crosses (attr : VersionAttr) (vi : VersionInf) : Prop :=
  attr = .appctl ∧ vi.arch = "arm_32".toList

instance (attr : VersionAttr) (vi : VersionInf) : Decidable (Crosses attr vi) :=
  inferInstanceAs (Decidable (attr = .appctl ∧ vi.arch = "arm_32".toList))

/-- What setting up the environment does to the path. -/
def initPath (attr : VersionAttr) (vi : VersionInf) (env : Env) : Env :=
  if Crosses attr vi then mapPath (· ++ crossarmBin) env else env

/-- What tearing down the environment does to the path. -/
def finitPath (attr : VersionAttr) (vi : VersionInf) (env : Env) : Env :=
  if Crosses attr vi then mapPath cutPath env else env

/-- Setting up the environment changes the variables of the family, and the path. -/
theorem ensures_initEnv_env (attr : VersionAttr) (vi : VersionInf) (t : Sys W) :
    Ensures (attr.initEnv vi) (fun _ t' => t'.cwd = t.cwd ∧ t'.world = t.world ∧
      mask attr.vars t'.env = mask attr.vars (initPath attr vi t.env)) t := by
  rcases attr with _ | _
  · have hpath : initPath .v3602 vi t.env = t.env := if_neg fun h => nomatch h.1
    simp only [VersionAttr.initEnv, version3602InitEnv, ensures_bind, ensures_versionSrcRootDir,
      ensures_versionInstallDir, ensures_fill, ensures_setenv, ensures_ite, ensures_pure, hpath]
    intros
    split_ifs
    · simp (disch := decide) only [VersionAttr.vars, mask_update, and_self]
    · simp (disch := decide) only [VersionAttr.vars, mask_update, and_self]
  · -- Every branch sets the same variables, which the mask hides. Only `PATH` is left, that the
    -- cross compiler is added to for `arm_32`.
    simp only [VersionAttr.initEnv, versionAppctlInitEnv, ensures_bind, ensures_versionSrcRootDir,
      ensures_versionInstallDir, ensures_fill, ensures_setenv, ensures_ite, ensures_pure,
      strcmp_eq_zero]
    intros
    split_ifs with harm
    · have hpath : initPath .appctl vi t.env = mapPath (· ++ crossarmBin) t.env :=
        if_pos ⟨rfl, harm⟩
      rw [crossInitEnv, ensures_bind, ensures_addCrossarm, hpath]
      intro _
      simp (disch := decide) only [ensures_bind, ensures_setenv, VersionAttr.vars, mask_update,
        true_and]
      refine mask_mapPath _ (by decide) ?_
      simp (disch := decide) only [mask_update]
    · have hpath : initPath .appctl vi t.env = t.env := if_neg fun h => harm h.2
      rw [hpath]
      simp (disch := decide) only [VersionAttr.vars, mask_update, and_self]

/-- Tearing down the environment masks the variables of the family. -/
theorem ensures_finitEnv_env (attr : VersionAttr) (vi : VersionInf) (t : Sys W) :
    Ensures (attr.finitEnv vi) (fun _ t' =>
      t' = { t with env := mask attr.vars (finitPath attr vi t.env) }) t := by
  rcases attr with _ | _
  · have hpath : finitPath .v3602 vi t.env = t.env := if_neg fun h => nomatch h.1
    rw [VersionAttr.finitEnv, version3602FinitEnv, unsetenvs_eq, ensures_modify, hpath]
    rfl
  · rw [VersionAttr.finitEnv, versionAppctlFinitEnv, ensures_bind, unsetenvs_eq, ensures_ite]
    simp only [strcmp_eq_zero]
    split_ifs with harm
    · have hpath : finitPath .appctl vi t.env = mapPath cutPath t.env := if_pos ⟨rfl, harm⟩
      rw [ensures_cutCrossarm, hpath]
      exact fun _ => ensures_modify.2 rfl
    · have hpath : finitPath .appctl vi t.env = t.env := if_neg fun h => harm h.2
      rw [ensures_pure, ensures_modify, hpath]
      rfl

/-! ## The environment before -/

/-- The path is the same, after adding the cross compiler to it and cutting it,
    unless it had the cross compiler. -/
theorem mapPath_cutPath_append_eq_iff : mapPath cutPath (mapPath (· ++ crossarmBin) env) = env ↔
    ∀ path, env pathVar = some path → ¬crossarmBin <:+: path := by
  rw [mapPath, mapPath, Function.update_idem, Function.update_self, Option.map_map,
    Function.update_eq_self_iff]
  rcases env pathVar with _ | path
  · simp
  · simp [cutPath_append]

/-- What setting up and tearing down leave is the environment before, if and
    only if it did not have the variables, nor the cross compiler in its path. -/
theorem mask_finitPath_initPath_eq_iff :
    mask attr.vars (finitPath attr vi (initPath attr vi env)) = env ↔
      (∀ v ∈ attr.vars, env v = none) ∧
        (Crosses attr vi → ∀ path, env pathVar = some path → ¬crossarmBin <:+: path) := by
  rw [finitPath, initPath]
  split_ifs with hc
  · have hsame : ∀ v ∈ attr.vars, mapPath cutPath (mapPath (· ++ crossarmBin) env) v = env v := by
      intro v hv
      have hne : v ≠ pathVar := fun h => pathVar_notMem_vars attr (h ▸ hv)
      rw [mapPath, mapPath, Function.update_of_ne hne, Function.update_of_ne hne]
    rw [mask_eq_iff hsame, mapPath_cutPath_append_eq_iff]
    exact and_congr_right fun _ => (imp_iff_right hc).symm
  · rw [mask_eq_iff fun _ _ => rfl]
    exact and_congr_right fun _ => iff_of_true rfl fun h => absurd h hc

/-! ## Returning -/

/-- The environment of a version that has been created is set up, if there is
    room for the path. -/
theorem achieves_initEnv (hattr : vi.attribute = some attr)
    (hdir : vi.dirName.length = vi.name.length) (hacc : Accepted vi.arch) :
    Achieves (attr.initEnv vi) (fun _ _ => True) t ↔ (Crosses attr vi → PathFits t.env) := by
  -- Only the versions of two names have an environment, and what is accepted is part of
  -- a list, so that the names of all the directories are short.
  have hname : vi.name.length < 64 := by
    have h := List.find?_some hattr
    rw [decide_eq_true_eq, strcmp_eq_zero] at h
    rw [h]
    rcases attr with _ | _
    · decide
    · decide
  have harch : vi.arch.length < 23 := by
    rcases hacc with h | h
    · exact h.length_le.trans_lt (by decide)
    · exact h.length_le.trans_lt (by decide)
  have hroot : rootDir.length = 14 := rfl
  have hdest : destDir.length = 14 := rfl
  rcases attr with _ | _
  · refine iff_of_true ?_ fun h => nomatch h.1
    simp only [VersionAttr.initEnv, version3602InitEnv, achieves_bind, achieves_versionSrcRootDir,
      achieves_versionInstallDir, achieves_fill, achieves_setenv, achieves_ite, achieves_pure,
      ite_self, and_true, List.length_append, List.length_cons, hdir, hroot, hdest]
    have hkernel : "/themis.kernel".toList.length = 14 := rfl
    rw [hkernel, mkMaxStrLen]
    omega
  · simp (disch := decide) only [VersionAttr.initEnv, versionAppctlInitEnv, crossInitEnv,
      achieves_bind, achieves_versionSrcRootDir, achieves_addCrossarm, pathFits_update,
      achieves_versionInstallDir, achieves_fill, achieves_setenv, achieves_ite, achieves_pure,
      and_true, List.length_append, List.length_cons, hdir, hroot, hdest, strcmp_eq_zero]
    have hupper : (mkStringToUpper (vi.arch.take (mkArchStrLen - 1))).length ≤ vi.arch.length := by
      rw [mkStringToUpper, List.length_map]
      exact List.length_take_le' _ _
    have hpath : (if vi.arch = "arm_32".toList then PathFits t.env else True) ↔
        (Crosses .appctl vi → PathFits t.env) := by
      by_cases harm : vi.arch = "arm_32".toList
      · rw [if_pos harm]
        exact (imp_iff_right ⟨rfl, harm⟩).symm
      · rw [if_neg harm]
        exact iff_of_true trivial fun h => absurd h.2 harm
    have hplatform : "PLATFORM_".toList.length = 9 := rfl
    have hcompile : "/public/compile/".toList.length = 16 := rfl
    have hinclude : "/include".toList.length = 8 := rfl
    have hlib : "/lib".toList.length = 4 := rfl
    have hinstall : "/install/".toList.length = 9 := rfl
    have hflags : "-D".toList.length = 2 ∧ " -Wall -I".toList.length = 9 ∧
        "/public/include -I".toList.length = 18 ∧ "/include -L".toList.length = 11 :=
      ⟨rfl, rfl, rfl, rfl⟩
    simp only [hplatform, hcompile, hinclude, hlib, hinstall, hflags, mkMaxStrLen, mkArchStrLen,
      ← and_assoc] at hupper ⊢
    exact (and_iff_right (by omega)).trans hpath

/-- When a version can be torn down: the path has to fit, if it is cut. -/
theorem achieves_finitEnv : Achieves (attr.finitEnv vi) (fun _ _ => True) t ↔
    (Crosses attr vi → ∀ path, t.env pathVar = some path → path.length < mkMaxStrLen) := by
  rcases attr with _ | _
  · rw [VersionAttr.finitEnv, version3602FinitEnv, unsetenvs_eq, achieves_modify]
    exact iff_of_true trivial fun h => nomatch h.1
  · rw [VersionAttr.finitEnv, versionAppctlFinitEnv, achieves_bind, unsetenvs_eq, achieves_ite]
    simp only [strcmp_eq_zero]
    split_ifs with harm
    · rw [achieves_cutCrossarm, achieves_modify]
      exact ⟨fun h _ => h.1, fun h => ⟨h ⟨rfl, harm⟩, trivial⟩⟩
    · rw [achieves_pure, achieves_modify]
      exact iff_of_true trivial fun h => absurd h.2 harm

/-- The variables that are unset do not matter to what becomes of the others. -/
theorem mask_finitPath (henv : mask attr.vars env' = mask attr.vars env) :
    mask attr.vars (finitPath attr vi env') = mask attr.vars (finitPath attr vi env) := by
  rw [finitPath, finitPath]
  split_ifs with hc
  · exact mask_mapPath cutPath (pathVar_notMem_vars attr) henv
  · exact henv

/-- Setting up and tearing down the environment of a version. -/
theorem ensures_initEnv_finitEnv : Ensures (attr.initEnv vi >>= fun _ => attr.finitEnv vi)
    (fun _ t' => t' = { t with
      env := mask attr.vars (finitPath attr vi (initPath attr vi t.env)) }) t := by
  rw [ensures_bind]
  refine (ensures_initEnv_env attr vi t).mono ?_
  rintro _ ⟨_, env, _⟩ ⟨rfl, rfl, henv⟩
  refine (ensures_finitEnv_env attr vi _).mono ?_
  rintro _ _ rfl
  rw [mask_finitPath henv]

/-- When setting up and tearing down works: the path has to fit with the cross compiler. -/
theorem achieves_initEnv_finitEnv (hattr : vi.attribute = some attr)
    (hdir : vi.dirName.length = vi.name.length) (hacc : Accepted vi.arch) :
    Achieves (attr.initEnv vi >>= fun _ => attr.finitEnv vi) (fun _ _ => True) t ↔
      (Crosses attr vi → PathFits t.env) := by
  rw [achieves_bind, ← achieves_initEnv hattr hdir hacc]
  refine ⟨fun h => h.mono fun _ _ _ => trivial, fun h => ?_⟩
  have hfits := (achieves_initEnv hattr hdir hacc).1 h
  -- The path that is copied to be cut is the one that has been extended, for which
  -- there was room.
  obtain ⟨ret, t', hr, -⟩ := h
  refine ⟨ret, t', hr, achieves_finitEnv.2 fun hc path hpath => ?_⟩
  obtain ⟨-, -, henv⟩ := ensures_initEnv_env attr vi t ret t' hr
  have hpath' := congrFun henv pathVar
  rw [mask, mask, if_neg (pathVar_notMem_vars attr), if_neg (pathVar_notMem_vars attr), hpath,
    initPath, if_pos hc, mapPath, Function.update_self, eq_comm, Option.map_eq_some_iff] at hpath'
  obtain ⟨path', hpath', rfl⟩ := hpath'
  exact hfits hc path' hpath'

/-- Setting up and tearing down the environment of a version, for which the
    variables of its family are not set, leave the system as it was if and only
    if the version is not cross-compiled, or else the path does not have the
    cross compiler yet, and there is room for it. -/
theorem achieves_initEnv_finitEnv_iff {name arch : CString}
    (hattr : (versionCreate name).attribute = some attr) (hacc : Accepted arch)
    (hnone : ∀ v ∈ attr.vars, t.env v = none) :
    Achieves (attr.initEnv ((versionCreate name).setArch arch) >>= fun _ =>
        attr.finitEnv ((versionCreate name).setArch arch)) (fun _ t' => t' = t) t ↔
      (attr = .appctl ∧ arch = "arm_32".toList → ∀ path, t.env pathVar = some path →
        ¬crossarmBin <:+: path ∧ (path ++ crossarmBin).length < mkMaxStrLen) := by
  obtain ⟨vi, hvi⟩ : ∃ vi, (versionCreate name).setArch arch = vi := ⟨_, rfl⟩
  have hattr : vi.attribute = some attr := hvi ▸ hattr
  have hacc : Accepted vi.arch := hvi ▸ hacc
  have hdir : vi.dirName.length = vi.name.length := by
    simp [← hvi, VersionInf.setArch, versionCreate]
  have harch : vi.arch = arch := by
    rw [← hvi, VersionInf.setArch]
  have henv : (⟨t.cwd, mask attr.vars (finitPath attr vi (initPath attr vi t.env)), t.world⟩ :
      Sys W) = t ↔ mask attr.vars (finitPath attr vi (initPath attr vi t.env)) = t.env := by
    constructor
    · exact congrArg Sys.env
    · intro h
      rw [h]
  -- Both functions together leave the masked environment, in which `PATH` is added to and cut. It
  -- is the one before if nothing was hidden, and the cut undoes the addition.
  rw [hvi, achieves_iff_of_ensures (a := ()) (ensures_initEnv_finitEnv.mono fun _ _ h => ⟨rfl, h⟩),
    achieves_initEnv_finitEnv hattr hdir hacc, henv, mask_finitPath_initPath_eq_iff,
    and_iff_right hnone, Crosses, harch]
  constructor
  · intro h hc path hpath
    exact ⟨h.2 hc path hpath, h.1 hc path hpath⟩
  · intro h
    exact ⟨fun hc path hpath => (h hc path hpath).2, fun hc path hpath => (h hc path hpath).1⟩

/-- A system in which only the path is set. -/
def pathSys (path : CString) : Sys Unit :=
  ⟨[], fun v => if v = pathVar then some path else none, ()⟩

theorem pathSys_env_of_ne {path v : CString} (h : v ≠ pathVar) : (pathSys path).env v = none :=
  if_neg h

/-- With a short path, the environment is back as it was. -/
theorem achieves_initEnv_finitEnv_iff_bin :
    Achieves (VersionAttr.appctl.initEnv
        ((versionCreate VersionAttr.appctl.name).setArch "arm_32".toList) >>= fun _ =>
      VersionAttr.appctl.finitEnv
        ((versionCreate VersionAttr.appctl.name).setArch "arm_32".toList))
      (fun _ t' => t' = pathSys "/bin".toList) (pathSys "/bin".toList) := by
  have hattr : (versionCreate VersionAttr.appctl.name).attribute = some .appctl := by decide
  have hacc : Accepted "arm_32".toList := by decide
  refine (achieves_initEnv_finitEnv_iff hattr hacc fun v hv => ?_).2 ?_
  · exact pathSys_env_of_ne fun h => pathVar_notMem_vars .appctl (h ▸ hv)
  · rintro - path ⟨⟩
    rw [← strstr_isSome]
    decide

/-- The path had the cross compiler, and something after it, which is lost. -/
theorem initEnv_finitEnv_crossarm :
    Accepted "arm_32".toList ∧
      (∀ v ∈ version3602Vars ++ versionAppctlVars,
        (pathSys "/opt:/opt/crossarm/bin:/bin".toList).env v = none) ∧
      ∃ t', (VersionAttr.appctl.initEnv
            ((versionCreate VersionAttr.appctl.name).setArch "arm_32".toList) >>= fun _ =>
          VersionAttr.appctl.finitEnv
            ((versionCreate VersionAttr.appctl.name).setArch "arm_32".toList)).result
          (pathSys "/opt:/opt/crossarm/bin:/bin".toList) = some ((), t') ∧
        t'.env pathVar = some "/opt".toList ∧
        t'.env ≠ (pathSys "/opt:/opt/crossarm/bin:/bin".toList).env := by
  have hattr : ((versionCreate VersionAttr.appctl.name).setArch "arm_32".toList).attribute =
    some .appctl := by decide
  have hacc : Accepted "arm_32".toList := by decide
  have hacc' : Accepted ((versionCreate VersionAttr.appctl.name).setArch "arm_32".toList).arch :=
    hacc
  have hfits : PathFits (pathSys "/opt:/opt/crossarm/bin:/bin".toList).env := by
    rintro path ⟨⟩
    decide
  refine ⟨hacc, fun v hv => pathSys_env_of_ne ?_, ?_⟩
  · rintro rfl
    exact absurd hv (by decide)
  · have hset : Achieves (VersionAttr.appctl.initEnv
          ((versionCreate VersionAttr.appctl.name).setArch "arm_32".toList) >>= fun _ =>
        VersionAttr.appctl.finitEnv
          ((versionCreate VersionAttr.appctl.name).setArch "arm_32".toList)) (fun _ _ => True)
        (pathSys "/opt:/opt/crossarm/bin:/bin".toList) :=
      (achieves_initEnv_finitEnv hattr rfl hacc').2 fun _ => hfits
    obtain ⟨_, t', hr, -⟩ := hset
    -- The path is cut at the first compiler, which was there before.
    have ht' := ensures_initEnv_finitEnv _ _ hr
    have hopt : t'.env pathVar = some "/opt".toList := by
      rw [ht']
      rfl
    refine ⟨t', hr, hopt, fun h => ?_⟩
    rw [h] at hopt
    exact absurd hopt (by decide)

end Mksh
