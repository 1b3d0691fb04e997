import Mksh.Cmd.Session
import Mksh.Command.Strvec
import Mksh.Command.Execute

/-!
# What reaches a shell

The name of a version or a project that is not known yet is looked up on the
server, by a command line given to a shell (`svnLs`). Nothing is escaped on the
way: the command line is the one intended if and only if the name has no
metacharacter (`logs_restricted_iff`). Nor is the length of anything checked:
the buffers hold what is written to them if and only if the names are short
enough (`logs_fitsBuffer_iff`).
-/

namespace Mksh

open CString Process

variable {W : Type} {os : Os W} {site : Site W} {name url : CString} {vi : VersionInf} {w : W}
  {P : SysEvent → Prop} {s : State (Session W)}

/-! ## Looking up a URL -/

/-- The command line that looks up a URL. -/
def svnLs (url : CString) : CString := "svn ls ".toList ++ url ++ Site.devNull

/-- The URL of a name, before it is copied to a buffer. -/
def nameUrl (name : CString) : CString := svnPrefix ++ '/' :: name

/-- The length of the command that lists a URL. -/
theorem length_svnLs (url : CString) : (svnLs url).length = url.length + 19 := by
  have hsvn : "svn ls ".toList.length = 7 := rfl
  have hnull : Site.devNull.length = 12 := rfl
  unfold svnLs
  simp only [List.length_append, hsvn, hnull]
  omega

/-- The length of the URL of a name. -/
theorem length_nameUrl (name : CString) : (nameUrl name).length = name.length + 24 := by
  have hprefix : svnPrefix.length = 23 := rfl
  simp only [nameUrl, List.length_append, List.length_cons, hprefix]
  omega

theorem length_svnLs_nameUrl (name : CString) :
    (svnLs (nameUrl name)).length = name.length + 43 := by
  rw [length_svnLs, length_nameUrl]

/-- What is logged, apart from buffers, when a URL is looked up. -/
theorem logs_svnLsCmd (hP : ∀ size text, P (.buffer size text)) :
    Logs P (site.svnLsCmd url) w ↔
      ((svnLs url).length < mkMaxStrLen → P (.system (svnLs url))) := by
  have hcmd : "svn ls ".toList ++ url ++ Site.devNull = svnLs url := rfl
  have hlt : (svnLs url).length < mkMaxStrLen → ("svn ls ".toList ++ url).length < mkMaxStrLen :=
    (List.prefix_append _ _).length_le.trans_lt
  simp only [Site.svnLsCmd, logs_bind, logs_fill, ensures_fill,
    Site.logs_cmdExecuteSystemCommand2, hP, true_and, hcmd]
  exact ⟨fun h hl => h (hlt hl) hl, fun h _ => h⟩

/-! ## Looking up names -/

section Names

variable (hP : ∀ size text, P (.buffer size text))
include hP

/-- The command that looks for a version, if it fits. -/
theorem logs_versionExists : Logs P (site.versionExists name) w ↔
    ((svnLs (nameUrl name)).length < mkMaxStrLen → P (.system (svnLs (nameUrl name)))) := by
  -- The URL is written to a buffer first. It fits if the command line does.
  have hurl : svnPrefix ++ '/' :: name = nameUrl name := rfl
  have hlt : (svnLs (nameUrl name)).length < mkMaxStrLen →
      (nameUrl name).length < mkMaxStrLen := by
    rw [length_svnLs]
    exact (Nat.le_add_right _ _).trans_lt
  simp only [Site.versionExists, logs_bind, logs_strcatName, ensures_strcatName, hP, hurl,
    logs_svnLsCmd hP, logs_pure, ensures_true, true_and, and_true, implies_true]
  exact ⟨fun h hl => h (hlt hl) hl, fun h _ => h⟩

/-- The command that looks for a project, if it fits. -/
theorem logs_versionHasProject : Logs P (site.versionHasProject vi name) w ↔
    ((svnLs (nameUrl (vi.name ++ '/' :: name))).length < mkMaxStrLen →
      P (.system (svnLs (nameUrl (vi.name ++ '/' :: name))))) := by
  have hurl : svnPrefix ++ '/' :: vi.name ++ '/' :: name = nameUrl (vi.name ++ '/' :: name) := by
    rw [nameUrl, List.append_assoc, List.cons_append]
  have hlt : (svnLs (nameUrl (vi.name ++ '/' :: name))).length < mkMaxStrLen →
      (nameUrl (vi.name ++ '/' :: name)).length < mkMaxStrLen := by
    rw [length_svnLs]
    exact (Nat.le_add_right _ _).trans_lt
  have hlt' : (nameUrl (vi.name ++ '/' :: name)).length < mkMaxStrLen →
      (svnPrefix ++ '/' :: vi.name).length < mkMaxStrLen := by
    rw [← hurl]
    exact (List.prefix_append _ _).length_le.trans_lt
  simp only [Site.versionHasProject, logs_bind, logs_strcatName, ensures_strcatName, hP, hurl,
    logs_svnLsCmd hP, logs_pure, ensures_true, true_and, and_true, implies_true]
  exact ⟨fun h hl => h (hlt' (hlt hl)) (hlt hl) hl, fun h _ _ => h⟩

end Names

/-- What is logged when a version is looked up, in the registry and then on the server. -/
theorem logs_versionGet : Logs (OnSys P) (versionGet os name) s ↔
    (versionFind name s.world.versions = none →
      Logs P (Site.versionExists ⟨os, s.world.sys.cwd, s.world.sys.env⟩ name)
        s.world.sys.world) := by
  simp only [versionGet, logs_bind, logs_get, true_and, ensures_get]
  rcases versionFind name s.world.versions with _ | i
  · simp [logs_ite]
  · simp

/-- A project is looked for in the repository if it is not registered. -/
theorem logs_projectGet {i : ℕ} (hvi : s.world.versions[i]? = some vi) :
    Logs (OnSys P) (projectGet os name i) s ↔ (projectFind name vi.projects = none →
      Logs P (Site.versionHasProject ⟨os, s.world.sys.cwd, s.world.sys.env⟩ vi name)
        s.world.sys.world) := by
  simp only [projectGet, logs_bind, logs_versionAt, true_and, ensures_versionAt, hvi,
    Option.some.injEq, forall_eq']
  rcases projectFind name vi.projects with _ | j
  · simp [logs_ite]
  · simp

/-! ## Metacharacters -/

/-- The characters that mean something to a shell. -/
def shellMeta : CString := ";&|<>`$()\\\"'*?~\n".toList

/-- A command line is the one that looks up a URL, without metacharacters. -/
def Restricted : SysEvent → Prop
  | .system command => ∃ url, command = svnLs url ∧ ∀ c ∈ url, c ∉ shellMeta
  | _ => True

/-- The command is restricted if the name has no characters of the shell. -/
theorem restricted_svnLs_nameUrl :
    Restricted (.system (svnLs (nameUrl name))) ↔ ∀ c ∈ name, c ∉ shellMeta := by
  have hall : svnPrefix.all (fun c => c ∉ shellMeta) := by decide
  have hprefix : ∀ c ∈ svnPrefix, c ∉ shellMeta := fun c hc =>
    of_decide_eq_true (List.all_eq_true.1 hall c hc)
  have hslash : '/' ∉ shellMeta := by decide
  constructor
  · rintro ⟨url, heq, hurl⟩ c hc
    obtain rfl : nameUrl name = url :=
      List.append_cancel_left (List.append_cancel_right heq)
    exact hurl c (List.mem_append_right _ (List.mem_cons_of_mem _ hc))
  · intro hname
    refine ⟨_, rfl, fun c hc => ?_⟩
    rcases List.mem_append.1 hc with hc | hc
    · exact hprefix c hc
    · rcases List.mem_cons.1 hc with rfl | hc
      · exact hslash
      · exact hname c hc

/-- Looking up the name of a version or a project gives a shell only the command
    line that is meant, if and only if the name is known, or is too long, or has
    no metacharacter. -/
theorem logs_restricted_iff (os : Os W) (name : CString) (s : State (Session W)) :
    (Logs (OnSys Restricted) (versionGet os name) s ↔
      (versionFind name s.world.versions = none → name.length + 43 < mkMaxStrLen →
        ∀ c ∈ name, c ∉ shellMeta)) ∧
    ∀ i vi, s.world.versions[i]? = some vi → (Logs (OnSys Restricted) (projectGet os name i) s ↔
      (projectFind name vi.projects = none → vi.name.length + name.length + 44 < mkMaxStrLen →
        ∀ c ∈ vi.name ++ name, c ∉ shellMeta)) := by
  have hP (size : ℕ) (text : CString) : Restricted (.buffer size text) := trivial
  constructor
  · rw [logs_versionGet, logs_versionExists hP, restricted_svnLs_nameUrl, length_svnLs_nameUrl]
  · intro i vi hvi
    have hlen : (vi.name ++ '/' :: name).length + 43 = vi.name.length + name.length + 44 := by
      rw [List.length_append, List.length_cons]
      omega
    have hslash : '/' ∉ shellMeta := by decide
    rw [logs_projectGet hvi, logs_versionHasProject hP, restricted_svnLs_nameUrl,
      length_svnLs_nameUrl, hlen]
    simp only [List.forall_mem_append, List.forall_mem_cons, hslash, not_false_eq_true, true_and]

/-- The name is read as a second command. -/
theorem versionGet_reboot :
    cmdMakeStrvec "version a;reboot soho".toList = some (words ["version", "a;reboot", "soho"]) ∧
    cmdExecuteCommand enableNode (words ["version", "a;reboot", "soho"]) =
      .call getVersionCmd (words ["a;reboot", "soho"]) ∧
    ToolEvent.sys (.system "svn ls https://10.50.10.30/svn/a;reboot &>/dev/null".toList) ∈
      (getVersion Os.permissive .shell (words ["a;reboot", "soho"])).log
        (bootState [] ⟨[], fun _ => none, ()⟩) ∧
    ¬Logs (OnSys Restricted) (versionGet Os.permissive "a;reboot".toList)
      (bootState [] ⟨[], fun _ => none, ()⟩) := by
  refine ⟨by decide +kernel, by decide +kernel, by decide +kernel, fun h => ?_⟩
  have hP (size : ℕ) (text : CString) : Restricted (.buffer size text) := trivial
  rw [logs_versionGet, logs_versionExists hP, restricted_svnLs_nameUrl,
    length_svnLs_nameUrl] at h
  exact absurd (h rfl (by decide) ';' (by decide)) (by decide)

/-! ## Lengths -/

/-- A buffer holds what is written to it. -/
def FitsBuffer : SysEvent → Prop
  | .buffer size text => text.length < size
  | _ => True

/-- A directory and a name have to fit, with the slash. -/
theorem fits_strcatName {dir : CString} : Logs FitsBuffer (strcatName dir name) w ↔
    (dir ++ '/' :: name).length < mkMaxStrLen := by
  have hlt : (dir ++ '/' :: name).length < mkMaxStrLen → (dir ++ ['/']).length < mkMaxStrLen := by
    simp only [List.length_append, List.length_cons, List.length_nil]
    omega
  rw [logs_strcatName]
  exact ⟨fun h => h.2 h.1, fun h => ⟨hlt h, fun _ => h⟩⟩

/-- The command has to fit. -/
theorem fits_svnLsCmd : Logs FitsBuffer (site.svnLsCmd url) w ↔
    (svnLs url).length < mkMaxStrLen := by
  have hcmd : "svn ls ".toList ++ url ++ Site.devNull = svnLs url := rfl
  have hlt : (svnLs url).length < mkMaxStrLen → ("svn ls ".toList ++ url).length < mkMaxStrLen :=
    (List.prefix_append _ _).length_le.trans_lt
  simp only [Site.svnLsCmd, logs_bind, logs_fill, ensures_fill,
    Site.logs_cmdExecuteSystemCommand2, hcmd, FitsBuffer, implies_true, and_true]
  exact ⟨fun h => h.2 h.1, fun h => ⟨hlt h, fun _ => h⟩⟩

/-- How long the name of a version may be. -/
theorem fits_versionExists : Logs FitsBuffer (site.versionExists name) w ↔
    name.length + 43 < mkMaxStrLen := by
  have hurl : svnPrefix ++ '/' :: name = nameUrl name := rfl
  simp only [Site.versionExists, logs_bind, fits_strcatName, ensures_strcatName, fits_svnLsCmd,
    logs_pure, ensures_true, and_true, hurl, length_svnLs_nameUrl, length_nameUrl]
  omega

/-- How long the names of a version and a project may be, together. -/
theorem fits_versionHasProject : Logs FitsBuffer (site.versionHasProject vi name) w ↔
    vi.name.length + name.length + 44 < mkMaxStrLen := by
  have hurl : svnPrefix ++ '/' :: vi.name = nameUrl vi.name := rfl
  have happ : nameUrl vi.name ++ '/' :: name = nameUrl (vi.name ++ '/' :: name) := by
    rw [nameUrl, nameUrl, List.append_assoc, List.cons_append]
  simp only [Site.versionHasProject, logs_bind, fits_strcatName, ensures_strcatName, fits_svnLsCmd,
    logs_pure, ensures_true, and_true, hurl, happ, length_svnLs_nameUrl, length_nameUrl,
    List.length_append, List.length_cons]
  omega

/-- The longest command line for a patch is the one that looks for names in it. -/
theorem fits_systemPatch {argv : List CString} :
    Logs (OnSys FitsBuffer) (systemPatch os (name :: argv)) s ↔
      name.length + 176 < mkMaxStrLen := by
  have hgrep : Site.patchGrep.length = 149 := by decide +kernel
  have hdir : destDir.length = 14 := rfl
  have hslash : "/".toList.length = 1 := rfl
  have hnull : Site.devNull.length = 12 := rfl
  have hpatch : "patch -p0 < ".toList.length = 12 := rfl
  -- The command line of `grep` is written in any case, and is the longest of all.
  simp only [systemPatch, logs_bind, logs_arg, true_and, ensures_arg, logs_fill, ensures_fill,
    logs_sys, onSys_sys, onSys_print, ensures_sys, logs_job, ensures_job, Site.illegalPatchFile,
    List.getElem?_cons_zero, Option.some.injEq, forall_eq', logs_ite, logs_vtyOut, ensures_bind,
    ensures_pure, Site.logs_cmdExecuteSystemCommand2, Site.ensures_cmdExecuteSystemCommand2,
    FitsBuffer, logs_pure, ensures_true, and_true, decide_eq_true_eq]
  simp only [List.length_append, hgrep, hdir, hslash, hnull, hpatch]
  split_ifs
  · simp only [implies_true, and_true]
    omega
  · omega

/-- The buffers hold what is written to them, when the name of a version or of a
    project is looked up, or a patch is applied, if and only if the name is known
    or short enough, or the name of the patch is. -/
theorem logs_fitsBuffer_iff (os : Os W) (name : CString) (s : State (Session W)) :
    (Logs (OnSys FitsBuffer) (versionGet os name) s ↔
      (versionFind name s.world.versions = none → name.length + 43 < mkMaxStrLen)) ∧
    (∀ i vi, s.world.versions[i]? = some vi → (Logs (OnSys FitsBuffer) (projectGet os name i) s ↔
      (projectFind name vi.projects = none →
        vi.name.length + name.length + 44 < mkMaxStrLen))) ∧
    ∀ argv, Logs (OnSys FitsBuffer) (systemPatch os (name :: argv)) s ↔
      name.length + 176 < mkMaxStrLen := by
  refine ⟨?_, fun i vi hvi => ?_, fun argv => fits_systemPatch⟩
  · rw [logs_versionGet, fits_versionExists]
  · rw [logs_projectGet hvi, fits_versionHasProject]

/-- A word of 981 characters is too long for the name of a version. -/
theorem versionGet_overflow :
    (∀ c ∈ List.replicate 981 'V', ¬isspace c) ∧
    ¬Logs (OnSys FitsBuffer) (versionGet Os.permissive (List.replicate 981 'V'))
      (bootState [] ⟨[], fun _ => none, ()⟩) := by
  refine ⟨fun c hc => ?_, ?_⟩
  · rw [List.eq_of_mem_replicate hc]
    decide
  · rw [logs_versionGet, fits_versionExists, List.length_replicate]
    decide

end Mksh
