import Mathlib.Data.List.DropRight
import Mksh.Cmd.System

/-!
# Versions and projects

The part of `mk.c` below the registry: the versions and the projects, what they
are called on the file system and on the server, and the jobs that the tools do
for them. The functions that `version_inf` and `project_inf` point to are the
same for all, and are called directly; the attributes are found by the name.
-/

namespace Mksh

open CString Process

variable {W σ : Type}

/-! ## Constants -/

/-- `ROOT_DIR`: the working copies of the versions are below it. -/
def rootDir : CString := "/home/Bane/src".toList

/-- `DEST_DIR`: what is built is installed below it. -/
def destDir : CString := "/home/Bane_ftp".toList

/-- `SVN_PREFIX`: the repository. -/
def svnPrefix : CString := "https://10.50.10.30/svn".toList

/-- `VERSION_2_6_BRANCHES`: where the branches are in the repository. -/
def version26Branches : CString := "2.6/branches".toList

/-- The architectures of 3.6.0.2, as one string in which an architecture is looked for. -/
def version3602Args : CString := "(soho/themis/sag)".toList

/-- The architectures of 3.6.0.9, as one string. -/
def version3609Args : CString := "(arm_32/x86_32/x86_64)".toList

/-- The project with the scripts that build the packages. -/
def projectBuildName : CString := "build".toList

/-- The version does not have the architecture. -/
def mkErrVerArchInval : ℤ := 100

/-- An error of the version control. -/
def mkErrSvn : ℤ := 101

/-- A command failed, or a variable that is needed is not set. -/
def mkErrSystem : ℤ := 102

/-- Memory ran out. -/
def mkErrOom : ℤ := 103

/-- A file must not be changed. -/
def mkErrHack : ℤ := 104

/-- The version has no attribute that builds it. -/
def mkErrBuild : ℤ := 105

/-- The architecture is of no family. -/
def mkErrMax : ℤ := 106

/-- The text of an error, which is passed as a negative number. -/
def mkStrerror (mkErrno : ℤ) : CString :=
  if mkErrno = -mkErrVerArchInval then "version and arch not match".toList
  else if mkErrno = -mkErrSvn then "svn commond error".toList
  else if mkErrno = -mkErrSystem then "system commond error".toList
  else if mkErrno = -mkErrOom then "out of memory".toList
  else if mkErrno = -mkErrHack then "illegal operation".toList
  else "unknown".toList

/-- The families of versions, as the architecture tells. -/
inductive MkVersionNum
  | v3602
  | v3609
  | non
  deriving DecidableEq

/-! ## Data -/

/-- The attributes of a version. -/
inductive VersionAttr
  | v3602
  | appctl
  deriving DecidableEq

/-- The name of the version in the repository, by which its attribute is found. -/
def VersionAttr.name : VersionAttr → CString
  | .v3602 => version26Branches ++ "/Branch_3.6.0.2_Maintain_20131011".toList
  | .appctl => version26Branches ++ "/Branch_AppControl_20140103".toList

/-- The table of the attributes of versions, in the order in which it is searched. -/
def versionAttrs : List VersionAttr := [.v3602, .appctl]

/-- The attributes of a project. -/
inductive ProjectAttr
  | fcms
  | themisKernel
  | library
  | ntop
  | iptables
  | quagga
  | publicProject
  deriving DecidableEq

/-- The name of the project, by which its attribute is found. -/
def ProjectAttr.name : ProjectAttr → CString
  | .fcms => "fcms".toList
  | .themisKernel => "themis.kernel".toList
  | .library => "library".toList
  | .ntop => "ntop".toList
  | .iptables => "iptables".toList
  | .quagga => "quagga".toList
  | .publicProject => "public".toList

/-- The table of the attributes of projects, in the order in which it is searched. -/
def projectAttrs : List ProjectAttr :=
  [.fcms, .themisKernel, .library, .ntop, .iptables, .quagga, .publicProject]

/-- `struct project_inf`. Its version is the one in whose list it is. -/
structure ProjectInf where
  name : CString
  deriving DecidableEq

/-- `struct version_inf`: the architecture for which it was entered last, its name in the
    repository and its directory, and its projects. -/
structure VersionInf where
  arch : CString
  name : CString
  dirName : CString
  projects : List ProjectInf
  deriving DecidableEq

/-- The first attribute of the table that has the name; `none` for a `NULL` pointer. -/
def VersionInf.attribute (vi : VersionInf) : Option VersionAttr :=
  versionAttrs.find? fun attr => strcmp vi.name attr.name = 0

/-- The first attribute of the table that has the name; `none` for a `NULL` pointer. -/
def ProjectInf.attribute (pi : ProjectInf) : Option ProjectAttr :=
  projectAttrs.find? fun attr => strcmp pi.name attr.name = 0

/-- Slashes in the name of a version on the server are pluses in that of its
    directory. -/
def versionCreate (name : CString) : VersionInf where
  arch := []
  name := name.map fun c => if c = '+' then '/' else c
  dirName := name.map fun c => if c = '/' then '+' else c
  projects := []

/-- A new project. Its attribute is found by its name. -/
def projectCreate (name : CString) : ProjectInf := ⟨name⟩

/-- Dropping the slashes at the end. For a name without anything else, this
    goes on before its start. -/
def mkFixName (name : CString) : Process σ SysEvent CString := do
  let fixed := name.rdropWhile (· = '/')
  if fixed = [] then
    -- The loop of the source passes the start of the name here.
    emit .underrun
    return []
  else return fixed

/-- The letters made capitals, in place. -/
def mkStringToUpper (string : CString) : CString := string.map toupper

/-! ## Names -/

/-- The family of the architecture, if it is a part of one of the two strings. -/
def versionType (vi : VersionInf) : MkVersionNum :=
  -- The architecture is looked for as a substring of the lists.
  if (strstr version3602Args vi.arch).isSome then .v3602
  else if (strstr version3609Args vi.arch).isSome then .v3609
  else .non

/-- `dir/name` in a buffer that holds `dir`. -/
def strcatName (dir name : CString) : Process σ SysEvent CString := do
  let dir ← strcat mkMaxStrLen dir "/".toList
  strcat mkMaxStrLen dir name

/-- The URL of the version: its name below the repository. -/
def versionUrl (vi : VersionInf) : Process σ SysEvent CString := do
  let url ← strcpy mkMaxStrLen svnPrefix
  strcatName url vi.name

/-- Where the version is installed. -/
def versionInstallDir (vi : VersionInf) : Process σ SysEvent CString := do
  let dir ← strcpy mkMaxStrLen destDir
  strcatName dir vi.name

/-- The working copy of the version. -/
def versionSrcRootDir (vi : VersionInf) : Process σ SysEvent CString := do
  let dir ← strcpy mkMaxStrLen rootDir
  strcatName dir vi.dirName

/-- The URL of the project, below that of the version. -/
def projectUrl (vi : VersionInf) (pi : ProjectInf) : Process σ SysEvent CString := do
  let url ← strcpy mkMaxStrLen svnPrefix
  let url ← strcatName url vi.name
  strcatName url pi.name

/-- Where the project is installed, below the directory of the version. -/
def projectInstallDir (vi : VersionInf) (pi : ProjectInf) : Process σ SysEvent CString := do
  let dir ← strcpy mkMaxStrLen destDir
  let dir ← strcatName dir vi.name
  strcatName dir pi.name

section Rules

variable {vi : VersionInf} {pi : ProjectInf} {dir name : CString} {s : σ}
  {Q : CString → σ → Prop} {P : SysEvent → Prop}

/-- What is left of a name are the characters before its last slashes. -/
@[simp]
theorem ensures_mkFixName :
    Ensures (mkFixName name) Q s ↔ Q (name.rdropWhile (· = '/')) s := by
  rw [mkFixName]
  rw [ensures_ite, ensures_bind, ensures_emit, ensures_pure, ensures_pure]
  split_ifs with h
  · rw [h]
  · exact Iff.rfl

/-- A directory and a name with a slash between them, if they fit. -/
@[simp]
theorem ensures_strcatName : Ensures (strcatName dir name) Q s ↔
    ((dir ++ '/' :: name).length < mkMaxStrLen → Q (dir ++ '/' :: name) s) := by
  have hlen : (dir ++ '/' :: name).length < mkMaxStrLen → (dir ++ ['/']).length < mkMaxStrLen := by
    simp only [List.length_append, List.length_cons, List.length_nil]
    omega
  have happ : dir ++ ['/'] ++ name = dir ++ '/' :: name := List.append_cons dir '/' name |>.symm
  rw [strcatName, ensures_bind, ensures_fill, ensures_fill]
  change (_ → (dir ++ ['/'] ++ name).length < mkMaxStrLen → Q (dir ++ ['/'] ++ name) s) ↔ _
  rw [happ]
  exact ⟨fun h hl => h (hlen hl) hl, fun h _ hl => h hl⟩

/-- The directory, the slash and the name have to fit. -/
@[simp]
theorem achieves_strcatName : Achieves (strcatName dir name) Q s ↔
    (dir ++ '/' :: name).length < mkMaxStrLen ∧ Q (dir ++ '/' :: name) s := by
  have hlen : (dir ++ '/' :: name).length < mkMaxStrLen → (dir ++ ['/']).length < mkMaxStrLen := by
    simp only [List.length_append, List.length_cons, List.length_nil]
    omega
  have happ : dir ++ ['/'] ++ name = dir ++ '/' :: name := List.append_cons dir '/' name |>.symm
  rw [strcatName, achieves_bind, achieves_fill, achieves_fill]
  change (_ ∧ (dir ++ ['/'] ++ name).length < mkMaxStrLen ∧ Q (dir ++ ['/'] ++ name) s) ↔ _
  rw [happ]
  exact ⟨fun h => h.2, fun h => ⟨hlen h.1, h⟩⟩

/-- What is put into the buffer: the directory with the slash, and then the name. -/
@[simp]
theorem logs_strcatName : Logs P (strcatName dir name) s ↔
    P (.buffer mkMaxStrLen (dir ++ ['/'])) ∧ ((dir ++ ['/']).length < mkMaxStrLen →
      P (.buffer mkMaxStrLen (dir ++ '/' :: name))) := by
  have happ : dir ++ ['/'] ++ name = dir ++ '/' :: name := List.append_cons dir '/' name |>.symm
  rw [strcatName, logs_bind, logs_fill, ensures_fill, logs_fill]
  change (_ ∧ (_ → P (.buffer mkMaxStrLen (dir ++ ['/'] ++ name)))) ↔ _
  rw [happ]
  exact Iff.rfl

/-- The URL of a version. -/
@[simp]
theorem ensures_versionUrl : Ensures (versionUrl vi) Q s ↔
    ((svnPrefix ++ '/' :: vi.name).length < mkMaxStrLen → Q (svnPrefix ++ '/' :: vi.name) s) := by
  rw [versionUrl, ensures_bind, ensures_fill, ensures_strcatName]
  exact forall_prop_of_true (by decide)

/-- Where a version is installed. -/
@[simp]
theorem ensures_versionInstallDir : Ensures (versionInstallDir vi) Q s ↔
    ((destDir ++ '/' :: vi.name).length < mkMaxStrLen → Q (destDir ++ '/' :: vi.name) s) := by
  rw [versionInstallDir, ensures_bind, ensures_fill, ensures_strcatName]
  exact forall_prop_of_true (by decide)

/-- The directory of a version. -/
@[simp]
theorem ensures_versionSrcRootDir : Ensures (versionSrcRootDir vi) Q s ↔
    ((rootDir ++ '/' :: vi.dirName).length < mkMaxStrLen →
      Q (rootDir ++ '/' :: vi.dirName) s) := by
  rw [versionSrcRootDir, ensures_bind, ensures_fill, ensures_strcatName]
  exact forall_prop_of_true (by decide)

@[simp]
theorem achieves_versionInstallDir : Achieves (versionInstallDir vi) Q s ↔
    (destDir ++ '/' :: vi.name).length < mkMaxStrLen ∧ Q (destDir ++ '/' :: vi.name) s := by
  rw [versionInstallDir, achieves_bind, achieves_fill, achieves_strcatName]
  exact and_iff_right (by decide)

@[simp]
theorem achieves_versionSrcRootDir : Achieves (versionSrcRootDir vi) Q s ↔
    (rootDir ++ '/' :: vi.dirName).length < mkMaxStrLen ∧ Q (rootDir ++ '/' :: vi.dirName) s := by
  rw [versionSrcRootDir, achieves_bind, achieves_fill, achieves_strcatName]
  exact and_iff_right (by decide)

end Rules

/-! ## Jobs -/

namespace Site

variable (site : Site W)

/-- The names of files that a patch must not touch. -/
def patchGrep : CString :=
  ("grep '^\\(+\\\x7b3\\\x7d\\|-\\\x7b3\\\x7d\\) [a-zA-Z0-9/]*" ++
    "\\([Mm]akefile\\|configure\\|install.sh\\|" ++
    "platform_[a-zA-Z0-9_]*_compile.sh\\|build_functions\\|" ++
    "fwbuild\\|manupkg\\)' ").toList

/-- What is put at the end of a command to silence it. -/
def devNull : CString := " &>/dev/null".toList

/-- The patch is for one of the files that a patch must not touch. -/
def illegalPatchFile (filename : CString) : Job W Bool := do
  let cmd ← sprintf mkMaxStrLen (patchGrep ++ filename ++ devNull)
  let ret ← site.cmdExecuteSystemCommand2 cmd
  return ret = 0

/-- The file is made readable and executable for all. -/
def changeSingleFileRx (file : CString) : Job W ℤ := do
  let cmd ← sprintf mkMaxStrLen ("chmod 555 ".toList ++ file ++ devNull)
  site.cmdExecuteSystemCommand2 cmd

/-- There is a file of that name, as `ls` says. -/
def dirOrFileExist (name : CString) : Job W Bool := do
  let cmd ← strcat mkMaxStrLen "ls ".toList name
  let cmd ← strcat mkMaxStrLen cmd devNull
  let ret ← site.cmdExecuteSystemCommand2 cmd
  return ret = 0

/-- Running `make` in the current directory. -/
def makeCmd (argv : List CString) : Job W ℤ := site.cmdExecuteSystemCommand "make".toList argv

/-- Making a directory, and those that it is in. -/
def mkdirCmd (dir : CString) : Job W ℤ :=
  site.cmdExecuteSystemCommand "mkdir".toList ["-p".toList, dir]

/-- Checking out into the current directory. -/
def svnCoCmd (url : CString) : Job W ℤ :=
  site.cmdExecuteSystemCommand "svn".toList ["co".toList, url]

/-- Looking whether a URL is there, without printing what is found. -/
def svnLsCmd (url : CString) : Job W ℤ := do
  let cmd ← strcat mkMaxStrLen "svn ls ".toList url
  let cmd ← strcat mkMaxStrLen cmd devNull
  site.cmdExecuteSystemCommand2 cmd

/-! ### Projects -/

/-- The variable by which the projects find where to install. -/
def installRoot : CString := "INSTALL_ROOT".toList

/-- A command line that must succeed. -/
def command (cmd : CString) : Job W ℤ := do
  if (← site.cmdExecuteSystemCommand2 cmd) ≠ 0 then return -mkErrSystem
  return 0

/-- The command lines `cmds`, written to a buffer and executed one after the
    other, until one fails. -/
def commands : List CString → Job W ℤ
  | [] => return 0
  | cmd :: cmds => do
    let cmd ← sprintf mkMaxStrLen cmd
    if (← site.command cmd) ≠ 0 then return -mkErrSystem
    commands cmds

/-- The kernel is configured, unless it has been, for the family of the architecture. -/
def projectThemisKernelInitEnv (vi : VersionInf) : Job W ℤ := do
  if ← site.dirOrFileExist ".config".toList then return 0
  match versionType vi with
  | .v3602 => site.commands ["cp config-2.6.35.6 .config".toList]
  | .v3609 => do
    let config ← strcat mkMaxStrLen "config.".toList vi.arch
    site.commands ["cp ".toList ++ config ++ " .config".toList]
  -- An architecture of no family has no configuration.
  | .non => return -mkErrMax

/-- The directory of the architecture in the sources of the kernel. -/
def projectThemisArchDir (vi : VersionInf) : CString :=
  if strcmp vi.arch "x86_32".toList = 0 ∨ strcmp vi.arch "x86_64".toList = 0 ∨
      strcmp vi.arch "themis".toList = 0 ∨ strcmp vi.arch "sag".toList = 0 then "x86".toList
  else if strcmp vi.arch "arm_32".toList = 0 then "arm".toList
  else "null".toList

/-- Installing the modules and the image of the kernel. -/
def projectThemisKernelInstall (vi : VersionInf) : Job W ℤ :=
  match site.env installRoot with
  | none => return -mkErrSystem
  | some installDir =>
    site.commands ["make modules_install".toList,
      "cp arch/".toList ++ projectThemisArchDir vi ++ "/boot/bzImage ".toList ++ installDir,
      "cp -a install/lib/* ".toList ++ installDir ++ "/lib/".toList]

/-- Installing the package of the library. -/
def projectLibraryInstall : Job W ℤ :=
  match site.env installRoot with
  | none => return -mkErrSystem
  | some installDir =>
    site.commands ["cp -f utmsiglib.pkg ".toList ++ installDir ++ "/tmp".toList]

/-- The script that installs `ntop` is made executable. -/
def projectNtopInitEnv : Job W ℤ := site.changeSingleFileRx "ntopmakeinstall.sh".toList

/-- Running the script that installs `ntop`. -/
def projectNtopInstall : Job W ℤ := site.cmdExecuteSystemCommand2 "./ntopmakeinstall.sh".toList

/-- Configuring `iptables`. -/
def projectIptablesInitEnv : Job W ℤ :=
  site.command "./configure --enable-static --disable-shared".toList

/-- Configuring `quagga`. -/
def projectQuaggaInitEnv : Job W ℤ :=
  site.command ("./configure --enable-vtysh --enable-user='root' " ++
    "--enable-group='root' --enable-vty-group='root' --enable-isisd --enable-multipath=8").toList

/-- Installing `quagga` below the root of the installation. -/
def projectQuaggaInstall : Job W ℤ :=
  match site.env installRoot with
  | none => return -mkErrSystem
  | some dir => site.commands ["make install DESTDIR=".toList ++ dir]

/-- The public project has no variables. -/
def projectPublicInitEnv : Job W ℤ := return 0

/-- The projects with a `configure` script are compiled by `make` as well. -/
def projectHasConfigureCompile (argv : List CString) : Job W ℤ := site.makeCmd argv

/-- Compiling the project, by the function of its attribute if it has one. -/
def projectCompile (pi : ProjectInf) (argv : List CString) : Job W ℤ :=
  match pi.attribute with
  | some .iptables | some .quagga => site.projectHasConfigureCompile argv
  | _ => site.makeCmd argv

/-- Cleaning the project, with the same arguments for `make` as compiling it. -/
def projectClean (argv : List CString) : Job W ℤ := site.makeCmd argv

/-- Checking out the project again. -/
def projectRefresh (vi : VersionInf) (pi : ProjectInf) : Job W ℤ := do
  let url ← projectUrl vi pi
  if (← site.svnCoCmd url) ≠ 0 then return -mkErrSvn
  return 0

/-! ### Versions -/

/-- The checkout of the directory `arch` of a version, and its installation. -/
def refreshRootdir (vi : VersionInf) (arch : CString) : Job W ℤ := do
  let url ← versionUrl vi
  let url ← strcatName url arch
  -- The checkout is made in the directory of the version.
  if (← site.svnCoCmd url) ≠ 0 then return -mkErrSvn
  match site.env installRoot with
  | none => return -mkErrSystem
  | some installDir => do
    let cmd ← sprintf mkMaxStrLen
      ("rsync -ua --exclude '.svn' ".toList ++ arch ++ "/rootdir/* ".toList ++ installDir)
    site.cmdExecuteSystemCommand2 cmd

/-- The root file system for an architecture of 3.6.0.2. -/
def version3602Refresh (vi : VersionInf) : Job W ℤ := do
  let arch ← strcpy mkArchStrLen vi.arch
  let arch ← strcat mkArchStrLen arch ".os".toList
  site.refreshRootdir vi arch

/-- The root file system for an architecture of application control. -/
def versionAppctlRefresh (vi : VersionInf) : Job W ℤ := do
  let arch ← strcat mkArchStrLen "os.".toList vi.arch
  site.refreshRootdir vi arch

/-- Copying the packages found in `dir`. -/
def copyPackages (dir : CString) : Job W ℤ :=
  match site.env installRoot with
  | none => return -mkErrSystem
  | some installDir => do
    let cmd ← sprintf mkMaxStrLen ("find ".toList ++ dir ++
      " -name '*.pkg' | xargs --no-run-if-empty -i cp \x7b\x7d ".toList ++ installDir)
    site.cmdExecuteSystemCommand2 cmd

/-- The packages of 3.6.0.2 are copied from where `fwbuild` leaves them. -/
def version3602Build : Job W ℤ := site.copyPackages "/tmp/install_root".toList

/-- The packages of application control are copied from the directory of the architecture. -/
def versionAppctlBuild (vi : VersionInf) : Job W ℤ :=
  site.copyPackages ("install/".toList ++ vi.arch ++ "/".toList)

/-- Checking out the build scripts again, and what the attribute of the version says. -/
def versionRefresh (vi : VersionInf) : Job W ℤ := do
  let dir ← versionUrl vi
  let dir ← strcat mkMaxStrLen dir ("/".toList ++ projectBuildName)
  if (← site.svnCoCmd dir) ≠ 0 then return -mkErrSvn
  match vi.attribute with
  | none => return 0
  | some .v3602 => site.version3602Refresh vi
  | some .appctl => site.versionAppctlRefresh vi

/-- The repository has the project in the version. -/
def versionHasProject (vi : VersionInf) (name : CString) : Job W Bool := do
  let url ← strcatName svnPrefix vi.name
  -- The URL is built as in `projectUrl`, from the name that is asked for.
  let url ← strcatName url name
  let ret ← site.svnLsCmd url
  return ret = 0

/-- Looking for the list of architectures in what the build directory has. -/
def grepFwbuild (args : CString) : CString :=
  "grep '".toList ++ args ++ "' build/fwbuild".toList ++ devNull

/-- Whether `fwbuild` has the list in which the architecture is; the result is 0 if it has. -/
def versionArchInvalid (arch : CString) : Job W ℤ :=
  -- Again as a substring, so that parts of the lists pass.
  if (strstr version3602Args arch).isSome then
    site.cmdExecuteSystemCommand2 (grepFwbuild version3602Args)
  else if (strstr version3609Args arch).isSome then
    site.cmdExecuteSystemCommand2 (grepFwbuild version3609Args)
  else return -mkErrMax

/-- The repository has the version. -/
def versionExists (name : CString) : Job W Bool := do
  let url ← strcatName svnPrefix name
  let ret ← site.svnLsCmd url
  return ret = 0

end Site

end Mksh
