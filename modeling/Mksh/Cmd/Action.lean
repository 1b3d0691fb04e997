import Mksh.Cmd.Mk

/-!
# Entering and leaving

The actions of `mk.c`, which change the current directory or the environment:
entering, building and leaving a version or a project.
-/

namespace Mksh

open CString Process

variable {W : Type} (os : Os W)

/-! ## Projects -/

/-- `CLI_ROOT` names the directory where `fcms` is installed. -/
def projectFcmsInitEnv (vi : VersionInf) (pi : ProjectInf) : Action W ℤ := do
  let dir ← projectInstallDir vi pi
  setenv "CLI_ROOT".toList dir
  return 0

/-- Leaving `fcms` unsets `CLI_ROOT`. -/
def projectFcmsFinitEnv : Action W Unit := unsetenv "CLI_ROOT".toList

/-- Linking the programs in the directory where they are installed, and coming
    back to the directory `cwd`. -/
def linkIptables (cwd dir : CString) : Action W ℤ := do
  let sbin ← strcpy mkMaxStrLen dir
  let sbin ← strcat mkMaxStrLen sbin "/sbin".toList
  let _ ← chdir os sbin
  let ret ← job os fun site =>
    site.commands [("ln -fs iptables-multi iptables && " ++
      "ln -fs iptables-multi iptables-save && " ++ "ln -fs ip6tables-multi ip6tables && " ++
      "ln -fs ip6tables-multi ip6tables-save").toList]
  let _ ← chdir os cwd
  return ret

/-- Installing `iptables`: the programs are copied and linked, and for 3.6.0.9 the headers are
    copied, too. -/
def projectIptablesInstall (vi : VersionInf) : Action W ℤ := do
  match ← getcwd os with
  | none => return -mkErrSystem
  | some cwd => do
    match ← getenv Site.installRoot with
    | none => return -mkErrSystem
    | some dir => do
      let ret ← job os fun site =>
        site.commands ["cp -au iptables-multi ip6tables-multi ".toList ++ dir ++ "/sbin".toList]
      if ret ≠ 0 then return ret
      let ret ← linkIptables os cwd dir
      if ret ≠ 0 then return ret
      if versionType vi ≠ .v3609 then return -mkErrMax
      match ← getenv "COMPILE_INCLUDE_DIR".toList with
      | none => return -mkErrSystem
      | some dir =>
        job os fun site => site.commands ["cp -f include/xtables.h ".toList ++ dir,
          "cp -rf include/libiptc ".toList ++ dir]

/-- The `init_env` of the attribute. -/
def ProjectAttr.initEnv (vi : VersionInf) (pi : ProjectInf) : ProjectAttr → Action W ℤ
  | .fcms => projectFcmsInitEnv vi pi
  | .themisKernel => job os fun site => site.projectThemisKernelInitEnv vi
  | .library => return 0
  | .ntop => job os Site.projectNtopInitEnv
  | .iptables => job os Site.projectIptablesInitEnv
  | .quagga => job os Site.projectQuaggaInitEnv
  | .publicProject => job os fun _ => Site.projectPublicInitEnv

/-- The `finit_env` of the attribute. -/
def ProjectAttr.finitEnv : ProjectAttr → Action W Unit
  | .fcms => projectFcmsFinitEnv
  | _ => return ()

/-- Entering a project: it is checked out unless it is there, and made the current directory;
    then its variables are set up. -/
def projectInit (vi : VersionInf) (pi : ProjectInf) (refresh : Bool) : Action W ℤ := do
  let exist ← (if refresh then pure false else job os fun site => site.dirOrFileExist pi.name)
  let ret ← (if exist then pure 0 else job os fun site => site.projectRefresh vi pi)
  if ret ≠ 0 then return ret
  let _ ← chdir os pi.name
  match pi.attribute with
  | none => return 0
  | some attr => do
    let ret ← attr.initEnv os vi pi
    if ret = 0 then return 0
    let _ ← chdir os "..".toList
    return ret

/-- Leaving a project by the parent directory, which need not be the one it was entered from. -/
def projectFinit (pi : ProjectInf) : Action W Unit := do
  let _ ← chdir os "..".toList
  match pi.attribute with
  | none => return ()
  | some attr => attr.finitEnv

/-- The `install2` of the attribute, or `make`. -/
def projectInstall (vi : VersionInf) (pi : ProjectInf) (argv : List CString) : Action W ℤ :=
  match pi.attribute with
  | some .themisKernel => job os fun site => site.projectThemisKernelInstall vi
  | some .library => job os Site.projectLibraryInstall
  | some .ntop => job os Site.projectNtopInstall
  | some .iptables => projectIptablesInstall os vi
  | some .quagga => job os Site.projectQuaggaInstall
  | _ => job os fun site => site.makeCmd argv

/-! ## Versions -/

/-- The variables of the branch 3.6.0.2, all below the root of the sources. -/
def version3602InitEnv (vi : VersionInf) : Action W ℤ := do
  let dir ← versionSrcRootDir vi
  setenv "SRC_ROOT".toList dir
  let dir ← strcat mkMaxStrLen dir "/themis.kernel".toList
  setenv "THEMIS_KERNEL_DIR".toList dir
  let dir ← versionInstallDir vi
  setenv "TARGET_ROOT".toList dir
  setenv "INSTALL_ROOT".toList dir
  setenv "SNMPLIB".toList "net-snmp".toList
  setenv "INCLUDEDIR".toList "/opt/crossppc/powerpc-linux/usr/local/ssl/include".toList
  if strcmp vi.arch "soho".toList = 0 then
    setenv "FW_PLATFORM".toList "PPC_SMART".toList
    return 0
  else
    setenv "FW_PLATFORM".toList "IA86_POWER".toList
    return 0

/-- Unsetting variables. -/
def unsetenvs : List CString → Action W Unit
  | [] => return ()
  | name :: names => do
    unsetenv name
    unsetenvs names

/-- The variables that `version3602FinitEnv` unsets. -/
def version3602Vars : List CString :=
  ["SRC_ROOT".toList, "TARGET_ROOT".toList, "INSTALL_ROOT".toList, "SNMPLIB".toList,
    "INCLUDEDIR".toList, "FW_PLATFORM".toList, "THEMIS_KERNEL_DIR".toList]

/-- Taking away the variables of the branch 3.6.0.2. -/
def version3602FinitEnv : Action W Unit := unsetenvs version3602Vars

/-- What the path has at its end when the cross compiler is to be found. -/
def crossarmBin : CString := ":/opt/crossarm/bin".toList

/-- Adding the cross compiler to the path, if there is one. -/
def addCrossarm : Action W Unit := do
  match ← getenv "PATH".toList with
  | none => return ()
  | some env => do
    let path ← strcpy mkMaxStrLen env
    let path ← strcat mkMaxStrLen path crossarmBin
    setenv "PATH".toList path

/-- The cross compiler for `arm_32`: the path to it, and the variables that name it. -/
def crossInitEnv : Action W Unit := do
  addCrossarm
  setenv "CROSS".toList "arm-mv5sft-linux-gnueabi-".toList
  setenv "CROSS_HOST".toList "arm-mv5sft-linux-gnueabi".toList

/-- Cutting the path at the cross compiler. -/
def cutCrossarm : Action W Unit := do
  match ← getenv "PATH".toList with
  | none => return ()
  | some env => do
    let path ← strcpy mkMaxStrLen env
    match strstr path crossarmBin with
    | none => return ()
    | some p => setenv "PATH".toList (path.take p)

/-- The variables of the branch of application control, with those of the cross compiler for
    `arm_32`. -/
def versionAppctlInitEnv (vi : VersionInf) : Action W ℤ := do
  let arch := mkStringToUpper (vi.arch.take (mkArchStrLen - 1))
  let platform ← strcat mkArchStrLen "PLATFORM_".toList arch
  setenv "GW_PLATFORM".toList platform
  let compileRoot ← versionSrcRootDir vi
  setenv "SRC_ROOT".toList compileRoot
  let compileRoot ← strcat mkMaxStrLen compileRoot "/public/compile/".toList
  let compileRoot ← strcat mkMaxStrLen compileRoot vi.arch
  setenv "COMPILE_ROOT".toList compileRoot
  let dir ← strcpy mkMaxStrLen compileRoot
  let dir ← strcat mkMaxStrLen dir "/include".toList
  setenv "COMPILE_INCLUDE_DIR".toList dir
  let dir ← strcpy mkMaxStrLen compileRoot
  let dir ← strcat mkMaxStrLen dir "/lib".toList
  setenv "COMPILE_LIB_DIR".toList dir
  setenv "LD_LIBRARY_PATH".toList dir
  let dir ← versionSrcRootDir vi
  let cflags ← sprintf mkMaxStrLen ("-D".toList ++ platform ++ " -Wall -I".toList ++ dir ++
    "/public/include -I".toList ++ compileRoot ++ "/include -L".toList ++ compileRoot ++
    "/lib".toList)
  setenv "CFLAGS".toList cflags
  let dir ← versionInstallDir vi
  let dir ← strcat mkMaxStrLen dir "/install/".toList
  let dir ← strcat mkMaxStrLen dir vi.arch
  setenv "TARGET_ROOT".toList dir
  setenv "INSTALL_ROOT".toList dir
  (if strcmp vi.arch "arm_32".toList = 0 then crossInitEnv else pure ())
  setenv "SNMPLIB".toList "net-snmp".toList
  return 0

/-- The variables that `versionAppctlFinitEnv` unsets. -/
def versionAppctlVars : List CString :=
  ["SRC_ROOT".toList, "TARGET_ROOT".toList, "INSTALL_ROOT".toList, "COMPILE_ROOT".toList,
    "COMPILE_INCLUDE_DIR".toList, "COMPILE_LIB_DIR".toList, "LD_LIBRARY_PATH".toList,
    "CFLAGS".toList, "CROSS".toList, "CROSS_HOST".toList, "GW_PLATFORM".toList, "SNMPLIB".toList]

/-- Taking away the variables of the branch of application control, and for `arm_32` the cross
    compiler from the path. -/
def versionAppctlFinitEnv (vi : VersionInf) : Action W Unit := do
  (if strcmp vi.arch "arm_32".toList = 0 then cutCrossarm else pure ())
  unsetenvs versionAppctlVars

/-- The `init_env` of the attribute. -/
def VersionAttr.initEnv (vi : VersionInf) : VersionAttr → Action W ℤ
  | .v3602 => version3602InitEnv vi
  | .appctl => versionAppctlInitEnv vi

/-- The `finit_env` of the attribute. -/
def VersionAttr.finitEnv (vi : VersionInf) : VersionAttr → Action W Unit
  | .v3602 => version3602FinitEnv
  | .appctl => versionAppctlFinitEnv vi

/-- Building the packages of a version: `build` is checked out and made the current directory,
    `fwbuild` is run there, and its packages are copied from the directory above. -/
def versionBuild (vi : VersionInf) : Action W ℤ := do
  let dir ← versionUrl vi
  let _ ← job os fun site => site.svnCoCmd dir
  let cmd ← strcat mkMaxStrLen "./fwbuild ".toList vi.arch
  let _ ← chdir os "build".toList
  let _ ← job os fun site => site.cmdExecuteSystemCommand2 cmd
  let _ ← chdir os "../".toList
  match vi.attribute with
  | none => return -mkErrBuild
  | some .v3602 => job os Site.version3602Build
  | some .appctl => job os fun site => site.versionAppctlBuild vi

/-- Making the directory `dir`, and changing to it. -/
def enterDir (dir : CString) : Action W Bool := do
  let _ ← job os fun site => site.mkdirCmd dir
  chdir os dir

end Mksh
