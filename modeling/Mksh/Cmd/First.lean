import Mksh.Cmd.Directory
import Mksh.Cmd.Restricted

/-!
# Entering a version for the first time

The build directory of a version is checked out when the version is refreshed.
But initialising the version, which comes before, already looks into a file in
that directory. A version that has not been checked out is never entered, nor is
it ever checked out (`getVersion_first`).
-/

namespace Mksh

open CString Process

variable {W : Type} {os : Os W} {vi : VersionInf} {argv : List CString} {s s' : State (Session W)}
  {i : ℕ} {name arch : CString} {w : W} {fwbuild : Dir → W → Prop}

/-- What the system does about the file `build/fwbuild`, given whether a directory
    has it: nothing is found in a file that is not there, and neither making a
    directory nor looking up the URL of the version creates it. -/
structure Os.Builds (os : Os W) (fwbuild : Dir → W → Prop) (name : CString) : Prop where
  grep {d : Dir} {env : Env} {w : W} (args : CString) : ¬fwbuild d w →
    (os.system (Site.grepFwbuild args) d env w).1 ≠ 0
  mkdir {d cwd : Dir} {dir : CString} {env : Env} {w : W} : ¬fwbuild d w →
    ¬fwbuild d (os.exec "mkdir".toList ["-p".toList, dir] cwd env w).2
  svnLs {d cwd : Dir} {env : Env} {w : W} : ¬fwbuild d w →
    ¬fwbuild d (os.system (svnLs (nameUrl name)) cwd env w).2

/-- The version of a name: that in the registry, or a new one. -/
def versionNamed (name : CString) (versions : List VersionInf) : VersionInf :=
  ((versionFind name versions).bind fun i => versions[i]?).getD (versionCreate name)

/-- Nothing is checked out. -/
def NoCheckout : SysEvent → Prop
  | .exec command argv => ¬(command = "svn".toList ∧ argv.head? = some "co".toList)
  | _ => True

/-! ## Getting the version -/

/-- The version of a name that is registered. -/
theorem versionNamed_of_find (h : versionFind name s.world.versions = some i) :
    s.world.versions[i]? = some (versionNamed name s.world.versions) := by
  obtain ⟨hlt, -⟩ := List.findIdx?_eq_some_iff_getElem.1 h
  rw [versionNamed, h, Option.bind_some, List.getElem?_eq_getElem hlt]
  rfl

/-- The version of a name that is not registered yet. -/
theorem versionNamed_of_find_none (h : versionFind name s.world.versions = none) :
    versionNamed name s.world.versions = versionCreate name := by
  rw [versionNamed, h]
  rfl

/-- Getting the version does not check it out. -/
theorem versionGet_first (hos : os.Builds fwbuild name)
    (hnone : ¬fwbuild (versionDir (versionNamed name s.world.versions)) s.world.sys.world) :
    Ensures (versionGet os name) (fun r s₁ => s₁.shell = s.shell ∧
      s₁.world.shellIndex = s.world.shellIndex ∧ ∀ i, r = some i → ∃ vi,
        s₁.world.versions[i]? = some vi ∧ ¬fwbuild (versionDir vi) s₁.world.sys.world) s := by
  simp only [versionGet, ensures_bind, ensures_get]
  rcases hf : versionFind name s.world.versions with _ | i
  · rw [versionNamed_of_find_none hf] at hnone
    simp only [ensures_bind, ensures_sys, ensures_job, Site.versionExists, Site.svnLsCmd,
      ensures_strcatName, ensures_fill, Site.ensures_cmdExecuteSystemCommand2, ensures_ite,
      ensures_addVersion, ensures_pure]
    intro _ _ _
    split_ifs
    · refine ⟨trivial, trivial, ?_⟩
      rintro _ ⟨⟩
    · refine ⟨rfl, rfl, ?_⟩
      rintro _ ⟨⟩
      exact ⟨versionCreate name, List.getElem?_concat_length, hos.svnLs hnone⟩
  · refine ensures_pure.2 ⟨rfl, rfl, ?_⟩
    rintro _ ⟨⟩
    exact ⟨_, versionNamed_of_find hf, hnone⟩

/-! ## Initialising the version -/

/-- Without the file, an architecture is invalid. -/
theorem ensures_versionArchInvalid_first (hos : os.Builds fwbuild name) {d : Dir} {env : Env}
    (hnone : ¬fwbuild d w) (arch : CString) :
    Ensures (Site.versionArchInvalid ⟨os, d, env⟩ arch) (fun ret _ => ret ≠ 0) w := by
  rw [Site.versionArchInvalid]
  split_ifs
  · exact Site.ensures_cmdExecuteSystemCommand2.2 (hos.grep version3602Args hnone)
  · exact Site.ensures_cmdExecuteSystemCommand2.2 (hos.grep version3609Args hnone)
  · exact ensures_pure.2 (by decide)

/-- The directory of the version still does not have the file when it is entered. -/
theorem ensures_enterDir_first (hlex : os.Lexical) (hos : os.Builds fwbuild name) {t : Sys W}
    (hnone : ¬fwbuild (versionDir vi) t.world) :
    Ensures (enterDir os (rootDir ++ '/' :: vi.dirName)) (fun ok t' =>
      ok → ¬fwbuild t'.cwd t'.world) t := by
  rw [enterDir, ensures_bind, ensures_job, Site.mkdirCmd, Site.ensures_cmdExecuteSystemCommand,
    ensures_chdir]
  have hmade : ¬fwbuild (versionDir vi) (os.exec "mkdir".toList
      ["-p".toList, rootDir ++ '/' :: vi.dirName] t.cwd t.env t.world).2 := hos.mkdir hnone
  generalize (os.exec "mkdir".toList ["-p".toList, rootDir ++ '/' :: vi.dirName] t.cwd t.env
    t.world).2 = w at hmade
  rcases hd : os.chdir t.cwd (rootDir ++ '/' :: vi.dirName) w with _ | d
  · rintro ⟨⟩
  · exact fun _ => chdir_versionDir hlex hd ▸ hmade

/-- A version that is not checked out is not initialised. -/
theorem versionInit_first (hlex : os.Lexical) (hos : os.Builds fwbuild name)
    (hvi : s.world.versions[i]? = some vi)
    (hnone : ¬fwbuild (versionDir vi) s.world.sys.world) (arch : CString) :
    Ensures (versionInit os i arch) (fun ret s' => ret ≠ 0 ∧ s'.shell = s.shell ∧
      s'.world.shellIndex = s.world.shellIndex) s ∧
    Logs (OnSys NoCheckout) (versionInit os i arch) s := by
  refine ensures_and_logs_bind.2 ⟨logs_versionAt.2 trivial, ensures_versionAt.2 fun vi' hvi' => ?_⟩
  obtain rfl := Option.some.inj (hvi.symm.trans hvi')
  refine ensures_and_logs_bind.2 ⟨logs_sys.2 (logs_strcatName.2 ⟨trivial, fun _ => trivial⟩),
    ensures_sys.2 (ensures_strcatName.2 fun _ => ?_)⟩
  have hlogs : Logs (fun e => OnSys NoCheckout (.sys e))
      (enterDir os (rootDir ++ '/' :: vi.dirName)) s.world.sys := by
    simp [enterDir, Site.mkdirCmd, NoCheckout]
  refine ensures_and_logs_bind.2 ⟨logs_sys.2 hlogs,
    ensures_sys.2 ((ensures_enterDir_first hlex hos hnone).mono fun ok t ht => ?_)⟩
  rcases ok with _ | _
  · exact ⟨ensures_pure.2 ⟨by decide, rfl, rfl⟩, logs_pure.2 trivial⟩
  have hlogs : Logs (fun e => OnSys NoCheckout (.sys e))
      (Site.versionArchInvalid ⟨os, t.cwd, t.env⟩ arch) t.world := by
    rw [Site.versionArchInvalid]
    split_ifs
    · exact Site.logs_cmdExecuteSystemCommand2.2 trivial
    · exact Site.logs_cmdExecuteSystemCommand2.2 trivial
    · exact logs_pure.2 trivial
  -- Making the directory has not created the file, so that nothing is found in it.
  refine ensures_and_logs_bind.2 ⟨logs_sys.2 (logs_job.2 hlogs), ensures_sys.2 (ensures_job.2
    ((ensures_versionArchInvalid_first hos (ht rfl) arch).mono fun ret w hret => ?_))⟩
  rw [if_pos hret]
  exact ⟨ensures_pure.2 ⟨by decide, rfl, rfl⟩, logs_pure.2 trivial⟩

/-! ## The command -/

/-- A version of which the build directory has not been checked out is not
    entered, and the directory is not checked out. -/
theorem getVersion_first (hlex : os.Lexical) (hname : argv[0]? = some name)
    (hos : os.Builds fwbuild (name.rdropWhile (· = '/')))
    (hnone : ¬fwbuild (versionDir (versionNamed (name.rdropWhile (· = '/')) s.world.versions))
      s.world.sys.world) :
    Ensures (getVersion os .shell argv) (fun _ s' => s'.shell = s.shell ∧
      s'.world.shellIndex = s.world.shellIndex) s ∧
    Logs (OnSys NoCheckout) (getVersion os .shell argv) s := by
  refine ensures_and_logs_bind.2 ⟨logs_arg.2 trivial, ensures_arg.2 fun name' hname' => ?_⟩
  obtain rfl := Option.some.inj (hname.symm.trans hname')
  have hlogs : Logs (fun e => OnSys NoCheckout (.sys e)) (mkFixName name) s.world.sys := by
    rw [mkFixName]
    split_ifs
    · exact logs_bind.2 ⟨logs_emit.2 trivial, ensures_emit.2 (logs_pure.2 trivial)⟩
    · exact logs_pure.2 trivial
  refine ensures_and_logs_bind.2 ⟨logs_sys.2 hlogs, ensures_sys.2 (ensures_mkFixName.2 ?_)⟩
  have hlogs : Logs (OnSys NoCheckout) (versionGet os (name.rdropWhile (· = '/'))) s :=
    logs_versionGet.2 fun _ => (logs_versionExists fun _ _ => trivial).2 fun _ => trivial
  refine ensures_and_logs_bind.2 ⟨hlogs, (versionGet_first hos hnone).mono ?_⟩
  rintro r s₁ ⟨hshell, hindex, hget⟩
  rcases r with _ | i
  · refine ensures_and_logs_bind.2 ⟨logs_vtyOut.2 trivial, ensures_vtyOut.2 ?_⟩
    exact ⟨ensures_pure.2 ⟨hshell, hindex⟩, logs_pure.2 trivial⟩
  obtain ⟨vi, hvi, hnone₁⟩ := hget i rfl
  refine ensures_and_logs_bind.2 ⟨logs_arg.2 trivial, ensures_arg.2 fun arch _ => ?_⟩
  -- The version would be refreshed after it has been initialised, which fails.
  obtain ⟨hinit, hlogs⟩ := versionInit_first hlex hos hvi hnone₁ arch
  refine ensures_and_logs_bind.2 ⟨hlogs, hinit.mono ?_⟩
  rintro ret s₂ ⟨hret, hshell₂, hindex₂⟩
  rw [if_pos hret]
  refine ensures_and_logs_bind.2 ⟨logs_vtyOut.2 trivial, ensures_vtyOut.2 ?_⟩
  exact ⟨ensures_pure.2 ⟨hshell₂.trans hshell, hindex₂.trans hindex⟩, logs_pure.2 trivial⟩

/-- A system that knows in which directories the build directory has been checked
    out; everything else succeeds. -/
def svnOs : Os (List Dir) where
  exec command argv d _ w :=
    (0, if command = "svn".toList ∧ argv.head? = some "co".toList then d :: w else w)
  system command d _ w := (if "grep".toList <+: command ∧ d ∉ w then 1 else 0, w)
  chdir d path _ := some (d.walk path)
  getcwd _ _ := none

/-- This system changes directories along their paths. -/
theorem svnOs_lexical : svnOs.Lexical where
  chdir h := (Option.some.inj h).symm
  getcwd h := nomatch h

/-- On this system, nothing but a checkout makes the build directory. -/
theorem svnOs_builds (name : CString) : svnOs.Builds (fun d w => d ∈ w) name where
  grep args hnone := by
    have hgrep : "grep".toList <+: Site.grepFwbuild args :=
      ⟨" '".toList ++ args ++ "' build/fwbuild".toList ++ Site.devNull, rfl⟩
    change (if _ then (1 : ℤ) else 0) ≠ 0
    rw [if_pos ⟨hgrep, hnone⟩]
    decide
  mkdir hnone := hnone
  svnLs hnone := hnone

/-- The state at the start, without versions, where `w` has been checked out. -/
def svnBoot (w : List Dir) : State (Session (List Dir)) := bootState [] ⟨[], fun _ => none, w⟩

/-- A version that has no build directory is not entered. -/
theorem getVersion_first_soho :
    Ensures (getVersion svnOs .shell (words ["trunk", "soho"])) (fun _ s' =>
      s'.shell = (svnBoot []).shell ∧ s'.world.shellIndex = (svnBoot []).world.shellIndex)
      (svnBoot []) ∧
    Logs (OnSys NoCheckout) (getVersion svnOs .shell (words ["trunk", "soho"])) (svnBoot []) :=
  getVersion_first svnOs_lexical rfl (svnOs_builds _) List.not_mem_nil

/-- The version is found on the server, and would be entered if it had been checked
    out. But it is not, and it is not entered. -/
theorem getVersion_soho :
    ((getVersion svnOs .shell (words ["trunk", "soho"])).result
      (svnBoot [words ["home", "Bane", "src", "trunk"]])).any
        (fun r => r.2.shell.node = .version ∧ r.2.world.shellIndex = .version 0) ∧
    ((getVersion svnOs .shell (words ["trunk", "soho"])).result (svnBoot [])).any
      (fun r => r.2.shell.node = .enable ∧ r.2.world.versions.length = 1 ∧
        r.2.world.sys.world = []) := by
  decide +kernel

end Mksh
