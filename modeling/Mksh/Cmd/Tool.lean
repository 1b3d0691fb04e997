import Mksh.Command.Basic

/-!
# The commands of the tools

The commands of `cmd_tool.c`, and that of `cmd_common.c`, as they are declared,
for the enable node and for the nodes of a version, of a project and of its
configuration, in the order in which they are installed. The handlers are only
named here.
-/

namespace Mksh

/-- The handlers. -/
inductive ToolFunc
  | configQuit
  | configPing
  | configPingCount
  | configTraceroute
  | netNetstatInfo
  | systemEnv
  | showVersion
  | showVersionDetail
  | getVersion
  | systemPwd
  | systemPassword
  | projectExit
  | projectEnd
  | projectConf
  | systemPatch
  | systemLs
  | systemLs2
  | systemLs3
  | systemMkdir
  | projectMakeInstallOrClean
  | projectMakeC
  | projectMakeC2
  | projectMake2
  | projectMake
  | projectCmdRefresh
  | getProject
  | versionExit
  | showProject
  | versionCmdRefresh
  | versionBuild
  | proConfExit
  | proConfKernelConfFile
  deriving DecidableEq

/-- A command, declared with its handler and its descriptions, and the items
    and the number of mandatory ones it gets when it is installed. -/
def defun (func : ToolFunc) (cmdstr helpstr : String) (strvec : List (List (String × String)))
    (cmdsize : ℕ) : CmdElement ToolFunc where
  string := cmdstr.toList
  func := some func
  doc := some helpstr.toList
  daemon := 0
  strvec := strvec.map (List.map fun (cmd, str) => ⟨cmd.toList, some str.toList⟩)
  cmdsize

/-- `SHOW_STR`. -/
def showStr : String := "Show running system information\n"

/-! ## Commands of the enable node -/

/-- `quit` ends the session. -/
def configQuitCmd := defun .configQuit "quit"
  "End the current session\n"
  [[("quit", "End the current session")]] 1

/-- `ping` of a host. -/
def configPingCmd := defun .configPing "ping WORD"
  ("Send echo messages\n" ++ "Ping destination address or hostname\n")
  [[("ping", "Send echo messages")], [("WORD", "Ping destination address or hostname")]] 2

/-- `ping` of a host, so many times. -/
def configPingCountCmd := defun .configPingCount "ping WORD NUM"
  ("send count echo messages\n" ++ "Ping destination address or hostname\n" ++
    "Stop after sending NUM ECHO_REQUEST packets\n")
  [[("ping", "send count echo messages")], [("WORD", "Ping destination address or hostname")],
    [("NUM", "Stop after sending NUM ECHO_REQUEST packets")]] 3

/-- `traceroute` to a host. -/
def configTracerouteCmd := defun .configTraceroute "traceroute WORD"
  ("Trace route to destination\n" ++ "Trace route to destination address or hostname\n")
  [[("traceroute", "Trace route to destination")],
    [("WORD", "Trace route to destination address or hostname")]] 2

/-- `show netstat`. -/
def netNetstatInfoCmd := defun .netNetstatInfo "show netstat"
  (showStr ++ "Show netstat\n")
  [[("show", "Show running system information")], [("netstat", "Show netstat")]] 2

/-- `env` shows the environment. -/
def systemEnvCmd := defun .systemEnv "env"
  "Show system environment\n"
  [[("env", "Show system environment")]] 1

/-- `show version`: the versions. -/
def showVersionCmd := defun .showVersion "show version"
  (showStr ++ "Show all versions\n")
  [[("show", "Show running system information")], [("version", "Show all versions")]] 2

/-- `show version detail`: the versions with their projects. -/
def showVersionDetailCmd := defun .showVersionDetail "show version detail"
  (showStr ++ "Version details\n" ++ "Show all versions\n")
  [[("show", "Show running system information")], [("version", "Version details")],
    [("detail", "Show all versions")]] 3

/-- `version` enters a version, for one of the six architectures. -/
def getVersionCmd := defun .getVersion
  "version WORD (soho|themis|sag|x86_32|x86_64|arm_32) [refresh]"
  ("Enter the version node\n" ++ "Version name\n" ++ "soho version\n" ++ "themis version\n" ++
    "sag version\n" ++ "x86 architecture\n" ++ "x64 architecture\n" ++ "arm architecture\n" ++
    "Refresh the version.\n")
  [[("version", "Enter the version node")], [("WORD", "Version name")], [("soho", "soho version"),
    ("themis", "themis version"), ("sag", "sag version"), ("x86_32", "x86 architecture"),
    ("x86_64", "x64 architecture"), ("arm_32", "arm architecture")],
    [("[refresh]", "Refresh the version.")]] 3

/-- `pwd` shows the current directory. -/
def systemPwdCmd := defun .systemPwd "pwd"
  "Show current directory\n"
  [[("pwd", "Show current directory")]] 1

/-- `password` changes the password. -/
def systemPasswordCmd := defun .systemPassword "password"
  "Change password of myself.\n"
  [[("password", "Change password of myself.")]] 1

/-! ## Commands of the node of a project -/

/-- `exit` leaves a project for its version. -/
def projectExitCmd := defun .projectExit "exit"
  "Exit current mode and down to previous mode\n"
  [[("exit", "Exit current mode and down to previous mode")]] 1

/-- `end` leaves a project and its version. Its help has no newline. -/
def projectEndCmd := defun .projectEnd "end"
  "End current mode and change to enable mode."
  [[("end", "End current mode and change to enable mode.")]] 1

/-- `configure-project` leads to the configuration of a project. -/
def projectConfCmd := defun .projectConf "configure-project"
  "Enter the project-configure node\n"
  [[("configure-project", "Enter the project-configure node")]] 1

/-- `patch` of the sources. -/
def systemPatchCmd := defun .systemPatch "patch WORD"
  ("Patch the project.\n" ++ "Patch file in the ftpserver path.\n")
  [[("patch", "Patch the project.")], [("WORD", "Patch file in the ftpserver path.")]] 2

/-- `ls` of the current directory. -/
def systemLsCmd := defun .systemLs "ls"
  "List current directories.\n"
  [[("ls", "List current directories.")]] 1

/-- `ls` of a directory. -/
def systemLs2Cmd := defun .systemLs2 "ls WORD"
  ("List current directories.\n" ++ "Directories\n")
  [[("ls", "List current directories.")], [("WORD", "Directories")]] 2

/-- `ls` of a directory, with options. -/
def systemLs3Cmd := defun .systemLs3 "ls WORD WORD"
  ("List current directories.\n" ++ "Options\n" ++ "Directories\n")
  [[("ls", "List current directories.")], [("WORD", "Options")], [("WORD", "Directories")]] 3

/-- `mkdir -p` of a directory. -/
def systemMkdirCmd := defun .systemMkdir "mkdir -p WORD"
  ("Make directory.\n" ++ "Argument of the command.\n" ++ "Directory name.\n")
  [[("mkdir", "Make directory.")], [("-p", "Argument of the command.")],
    [("WORD", "Directory name.")]] 3

/-- `make install` and `make clean`, one element. -/
def projectMakeInstallOrCleanCmd := defun .projectMakeInstallOrClean "make (install|clean)"
  ("Compile the project.\n" ++ "Export the binary files.\n" ++ "Clean the binary files.\n")
  [[("make", "Compile the project.")], [("install", "Export the binary files."),
    ("clean", "Clean the binary files.")]] 2

/-- `make` in a directory. -/
def projectMakeCCmd := defun .projectMakeC "make -C WORD"
  ("Compile the project.\n" ++ "Change to directory.\n" ++ "Directory name.\n")
  [[("make", "Compile the project.")], [("-C", "Change to directory.")],
    [("WORD", "Directory name.")]] 3

/-- `make` of a target in a directory. -/
def projectMakeC2Cmd := defun .projectMakeC2 "make -C WORD WORD"
  ("Compile the project.\n" ++ "Change to directory.\n" ++ "Directory name.\n" ++
    "Argument of make.\n")
  [[("make", "Compile the project.")], [("-C", "Change to directory.")],
    [("WORD", "Directory name.")], [("WORD", "Argument of make.")]] 4

/-- `make` of a target. -/
def projectMake2Cmd := defun .projectMake2 "make WORD"
  ("Compile the project.\n" ++ "Argument of make.\n")
  [[("make", "Compile the project.")], [("WORD", "Argument of make.")]] 2

/-- `make` of the project. -/
def projectMakeCmd := defun .projectMake "make"
  "Compile the project.\n"
  [[("make", "Compile the project.")]] 1

/-- `refresh` of a project. -/
def projectCmdRefreshCmd := defun .projectCmdRefresh "refresh"
  "Refresh the project.\n"
  [[("refresh", "Refresh the project.")]] 1

/-! ## Commands of the node of a version -/

/-- `project` enters a project. -/
def getProjectCmd := defun .getProject "project WORD [refresh]"
  ("Enter the project node\n" ++ "Project name\n" ++ "Refresh the project.\n")
  [[("project", "Enter the project node")], [("WORD", "Project name")],
    [("[refresh]", "Refresh the project.")]] 2

/-- `exit` leaves a version. -/
def versionExitCmd := defun .versionExit "exit"
  "Exit current mode and down to previous mode\n"
  [[("exit", "Exit current mode and down to previous mode")]] 1

/-- `show project`: the projects of the version. -/
def showProjectCmd := defun .showProject "show project"
  (showStr ++ "Show all projects\n")
  [[("show", "Show running system information")], [("project", "Show all projects")]] 2

/-- `refresh` of a version. -/
def versionCmdRefreshCmd := defun .versionCmdRefresh "refresh"
  "Refresh the version.\n"
  [[("refresh", "Refresh the version.")]] 1

/-- `build` of a version. -/
def versionBuildCmd := defun .versionBuild "build"
  "Build the whole image.\n"
  [[("build", "Build the whole image.")]] 1

/-! ## Commands of the node of the configuration of a project -/

/-- `exit` leaves the configuration of a project. -/
def proConfExitCmd := defun .proConfExit "exit"
  "Exit current mode and down to previous mode\n"
  [[("exit", "Exit current mode and down to previous mode")]] 1

/-- `kernel-config-file`: the configuration of the kernel. -/
def proConfKernelConfFileCmd := defun .proConfKernelConfFile "kernel-config-file WORD"
  ("Configuration file of kernel\n" ++ "File name\n")
  [[("kernel-config-file", "Configuration file of kernel")], [("WORD", "File name")]] 2

/-! ## Nodes -/

/-- The vector of the enable node. -/
def enableNode : List (CmdElement ToolFunc) :=
  [configQuitCmd, configPingCmd, configPingCountCmd, configTracerouteCmd, netNetstatInfoCmd,
    systemEnvCmd, showVersionCmd, showVersionDetailCmd, getVersionCmd, systemPwdCmd,
    systemPasswordCmd]

/-- The vector of the node of a project. -/
def projectNode : List (CmdElement ToolFunc) :=
  [projectExitCmd, projectEndCmd, projectConfCmd, systemPatchCmd, systemPwdCmd, systemEnvCmd,
    systemLsCmd, systemLs2Cmd, systemLs3Cmd, systemMkdirCmd, projectMakeInstallOrCleanCmd,
    projectMakeCCmd, projectMakeC2Cmd, projectMake2Cmd, projectMakeCmd, projectCmdRefreshCmd]

/-- The vector of the node of a version. -/
def versionNode : List (CmdElement ToolFunc) :=
  [getProjectCmd, versionExitCmd, systemPwdCmd, systemEnvCmd, systemLsCmd, systemLs2Cmd,
    systemLs3Cmd, systemMkdirCmd, showVersionCmd, showVersionDetailCmd, showProjectCmd,
    versionCmdRefreshCmd, versionBuildCmd]

/-- The vector of the node of the configuration of a project. -/
def proConfNode : List (CmdElement ToolFunc) := [proConfExitCmd, proConfKernelConfFileCmd]

/-- The vector of the node of a project is what installing its commands gives. -/
theorem installed_of_mem_projectNode : ∀ e ∈ projectNode, e.Installed := by
  simp only [projectNode, List.forall_mem_cons, projectExitCmd, projectEndCmd, projectConfCmd,
    systemPatchCmd, systemPwdCmd, systemEnvCmd, systemLsCmd, systemLs2Cmd, systemLs3Cmd,
    systemMkdirCmd, projectMakeInstallOrCleanCmd, projectMakeCCmd, projectMakeC2Cmd,
    projectMake2Cmd, projectMakeCmd, projectCmdRefreshCmd, defun, List.map_cons, List.map_nil,
    String.toList_append]
  repeat rw [String.toList_ofList]
  decide +kernel

/-- The vector of the node of a version is what installing its commands gives. -/
theorem installed_of_mem_versionNode : ∀ e ∈ versionNode, e.Installed := by
  simp only [versionNode, List.forall_mem_cons, getProjectCmd, versionExitCmd, systemPwdCmd,
    systemEnvCmd, systemLsCmd, systemLs2Cmd, systemLs3Cmd, systemMkdirCmd, showVersionCmd,
    showVersionDetailCmd, showProjectCmd, versionCmdRefreshCmd, versionBuildCmd, defun,
    List.map_cons, List.map_nil, String.toList_append, showStr]
  repeat rw [String.toList_ofList]
  decide +kernel

/-- A line, given by its words. -/
def words (line : List String) : List CString := line.map String.toList

end Mksh
