import Mksh.Cmd.Action
import Mksh.Vtysh.Basic

/-!
# Handlers

The registry of versions and projects, and the handlers of the commands
(`toolHandler`), as processes on the state of the shell. The lists only grow, so
that a pointer into them is given by a position (`Index`). A handler casts
`vty->index` to the type it expects, and logs it; a wrong cast crashes, and so
does reading an argument that is not there.
-/

namespace Mksh

open CString Process

/-- What `vty->index` points to: `NULL`, a version, or a project of a version,
    given by their positions in the lists. -/
inductive Index
  | null
  | version (i : ℕ)
  | project (i j : ℕ)
  deriving DecidableEq

/-- The types to which `vty->index` is cast. -/
inductive IndexType
  | version
  | project
  deriving DecidableEq

/-- What is observed of the tools. -/
inductive ToolEvent
  | sys (e : SysEvent)
  /-- A cast of `vty->index`. -/
  | cast (type : IndexType) (index : Index)
  | print (text : CString)
  deriving DecidableEq

/-- A property of what is observed of the system, apart from the rest. -/
def OnSys (P : SysEvent → Prop) : ToolEvent → Prop
  | .sys e => P e
  | _ => True

@[simp]
theorem onSys_sys {P : SysEvent → Prop} {e : SysEvent} : OnSys P (.sys e) ↔ P e := Iff.rfl

@[simp]
theorem onSys_print {P : SysEvent → Prop} {text : CString} : OnSys P (.print text) ↔ True := Iff.rfl

/-- What the handlers use: the versions, what `vty->index` points to for each
    `vty`, and the system. -/
structure Session (W : Type) where
  versions : List VersionInf
  shellIndex : Index
  fileIndex : Index
  sys : Sys W

/-- What the handlers are: processes on the state of the shell, with the session for its world.
    -/
abbrev Handler (W α : Type) := Process (State (Session W)) ToolEvent α

variable {W α : Type}

/-- `vty->index` of a terminal. -/
def State.index (s : State (Session W)) : VtyRef → Index
  | .shell => s.world.shellIndex
  | .file => s.world.fileIndex

/-- Setting `vty->index` of a terminal. -/
def State.setIndex (ref : VtyRef) (index : Index) (s : State (Session W)) : State (Session W) :=
  match ref with
  | .shell => { s with world.shellIndex := index }
  | .file => { s with world.fileIndex := index }

/-- Setting `vty->node` of a terminal. -/
def State.setNode (ref : VtyRef) (node : NodeType) (s : State (Session W)) : State (Session W) :=
  match ref with
  | .shell => { s with shell.node := node }
  | .file => { s with file.node := node }

/-- A version at the end of the list of versions. -/
def State.addVersion (vi : VersionInf) (s : State (Session W)) : State (Session W) :=
  { s with world.versions := s.world.versions ++ [vi] }

/-- A change of the version at a position. -/
def State.modifyVersion (i : ℕ) (f : VersionInf → VersionInf) (s : State (Session W)) :
    State (Session W) :=
  { s with world.versions := s.world.versions.modify i f }

/-- The architecture for which the version is entered. -/
def VersionInf.setArch (arch : CString) (vi : VersionInf) : VersionInf := { vi with arch }

/-- A project at the end of the list of the version. -/
def VersionInf.addProject (pi : ProjectInf) (vi : VersionInf) : VersionInf :=
  { vi with projects := vi.projects ++ [pi] }

/-! ## Primitives -/

/-- An action on the system. -/
def sys (p : Action W α) : Handler W α :=
  zoom (fun s => s.world.sys) (fun t s => { s with world.sys := t }) .sys fun _ => p

/-- Printing. -/
def vtyOut (text : CString) : Handler W Unit := emit (.print text)

/-- What the shell is in is now denoted by `index`. -/
def setIndex (ref : VtyRef) (index : Index) : Handler W Unit := modify (State.setIndex ref index)

/-- The commands of the terminal are now those of `node`. -/
def setNode (ref : VtyRef) (node : NodeType) : Handler W Unit := modify (State.setNode ref node)

/-- Reading an argument. -/
def arg (argv : List CString) (n : ℕ) : Handler W CString :=
  match argv[n]? with
  | none => halt
  | some s => return s

/-- The version at a position. -/
def versionAt (i : ℕ) : Handler W VersionInf := do
  match (← get).world.versions[i]? with
  | none => halt
  | some vi => return vi

/-- The architecture is copied to the version. -/
def setArch (i : ℕ) (arch : CString) : Handler W Unit :=
  modify (State.modifyVersion i (VersionInf.setArch arch))

/-- `listnode_add` to the list of all versions. -/
def addVersion (vi : VersionInf) : Handler W Unit := modify (State.addVersion vi)

/-- `listnode_add` to the list of the projects of a version. -/
def addProject (i : ℕ) (pi : ProjectInf) : Handler W Unit :=
  modify (State.modifyVersion i (VersionInf.addProject pi))

/-- The version that `vty->index` points to. -/
def castVersion (ref : VtyRef) : Handler W ℕ := do
  let index := (← get).index ref
  emit (.cast .version index)
  -- Anything but a version is read as one, which is not defined.
  match index with
  | .version i => return i
  | _ => halt

/-- The project that `vty->index` points to, and its version. -/
def castProject (ref : VtyRef) : Handler W (ℕ × ℕ) := do
  let index := (← get).index ref
  emit (.cast .project index)
  -- Anything but a project is read as one, which is not defined.
  match index with
  | .project i j => return (i, j)
  | _ => halt

/-- A project of a version. -/
def projectAt (i j : ℕ) : Handler W (VersionInf × ProjectInf) := do
  let vi ← versionAt i
  match vi.projects[j]? with
  | none => halt
  | some pi => return (vi, pi)

section Rules

variable {P : ToolEvent → Prop} {s : State (Session W)} {ref : VtyRef} {argv : List CString}
  {i j n : ℕ}

/-- An action of the system leaves the rest of the state. -/
@[simp]
theorem ensures_sys {p : Action W α} {Q : α → State (Session W) → Prop} : Ensures (sys p) Q s ↔
    Ensures p (fun a t => Q a { s with world.sys := t }) s.world.sys := ensures_zoom

/-- An action of the system logs its own events. -/
@[simp]
theorem logs_sys {p : Action W α} :
    Logs P (sys p) s ↔ Logs (fun e => P (.sys e)) p s.world.sys := logs_zoom

@[simp]
theorem ensures_vtyOut {text : CString} {Q : Unit → State (Session W) → Prop} :
    Ensures (vtyOut text) Q s ↔ Q () s := ensures_emit

@[simp]
theorem logs_vtyOut {text : CString} : Logs P (vtyOut text) s ↔ P (.print text) := logs_emit

@[simp]
theorem ensures_setIndex {index : Index} {Q : Unit → State (Session W) → Prop} :
    Ensures (setIndex ref index) Q s ↔ Q () (s.setIndex ref index) := ensures_modify

@[simp]
theorem ensures_setNode {node : NodeType} {Q : Unit → State (Session W) → Prop} :
    Ensures (setNode ref node) Q s ↔ Q () (s.setNode ref node) := ensures_modify

/-- An argument is read if there is one. -/
@[simp]
theorem ensures_arg {Q : CString → State (Session W) → Prop} :
    Ensures (arg argv n) Q s ↔ ∀ a, argv[n]? = some a → Q a s := by
  rw [arg]
  rcases argv[n]? with _ | a <;> simp

@[simp]
theorem logs_arg : Logs P (arg argv n) s ↔ True := by
  rw [arg]
  rcases argv[n]? with _ | a <;> simp

/-- A version is read if it is in the list. -/
@[simp]
theorem ensures_versionAt {Q : VersionInf → State (Session W) → Prop} :
    Ensures (versionAt i) Q s ↔ ∀ vi, s.world.versions[i]? = some vi → Q vi s := by
  rw [versionAt, ensures_bind, ensures_get]
  rcases s.world.versions[i]? with _ | vi <;> simp

@[simp]
theorem logs_versionAt : Logs P (versionAt i) s ↔ True := by
  rw [versionAt, logs_bind, ensures_get]
  rcases s.world.versions[i]? with _ | vi <;> simp

/-- The architecture of a version is set, and nothing else. -/
@[simp]
theorem ensures_setArch {arch : CString} {Q : Unit → State (Session W) → Prop} :
    Ensures (setArch i arch) Q s ↔ Q () (s.modifyVersion i (VersionInf.setArch arch)) :=
  ensures_modify

@[simp]
theorem ensures_addVersion {vi : VersionInf} {Q : Unit → State (Session W) → Prop} :
    Ensures (addVersion vi) Q s ↔ Q () (s.addVersion vi) := ensures_modify

@[simp]
theorem logs_addVersion {vi : VersionInf} : Logs P (addVersion vi) s ↔ True := logs_modify

@[simp]
theorem ensures_addProject {pi : ProjectInf} {Q : Unit → State (Session W) → Prop} :
    Ensures (addProject i pi) Q s ↔ Q () (s.modifyVersion i (VersionInf.addProject pi)) :=
  ensures_modify

@[simp]
theorem logs_addProject {pi : ProjectInf} : Logs P (addProject i pi) s ↔ True := logs_modify

/-- A cast to a version goes on if that is what the index is. -/
@[simp]
theorem ensures_castVersion {Q : ℕ → State (Session W) → Prop} :
    Ensures (castVersion ref) Q s ↔ ∀ i, s.index ref = .version i → Q i s := by
  rw [castVersion, ensures_bind, ensures_get, ensures_bind, ensures_emit]
  rcases s.index ref with _ | i | ⟨i, j⟩ <;> simp

/-- A cast to a version is logged with what the index is. -/
@[simp]
theorem logs_castVersion :
    Logs P (castVersion ref) s ↔ P (.cast .version (s.index ref)) := by
  rw [castVersion, logs_bind, ensures_get, logs_bind, ensures_emit]
  rcases s.index ref with _ | i | ⟨i, j⟩ <;> simp

/-- A cast to a project goes on if that is what the index is. -/
@[simp]
theorem ensures_castProject {Q : ℕ × ℕ → State (Session W) → Prop} :
    Ensures (castProject ref) Q s ↔ ∀ i j, s.index ref = .project i j → Q (i, j) s := by
  rw [castProject, ensures_bind, ensures_get, ensures_bind, ensures_emit]
  rcases s.index ref with _ | i | ⟨i, j⟩ <;> simp

/-- A cast to a project is logged with what the index is. -/
@[simp]
theorem logs_castProject :
    Logs P (castProject ref) s ↔ P (.cast .project (s.index ref)) := by
  rw [castProject, logs_bind, ensures_get, logs_bind, ensures_emit]
  rcases s.index ref with _ | i | ⟨i, j⟩ <;> simp

/-- A project is read if it is in the list of its version. -/
@[simp]
theorem ensures_projectAt {Q : VersionInf × ProjectInf → State (Session W) → Prop} :
    Ensures (projectAt i j) Q s ↔ ∀ vi, s.world.versions[i]? = some vi →
      ∀ pi, vi.projects[j]? = some pi → Q (vi, pi) s := by
  rw [projectAt, ensures_bind, ensures_versionAt]
  refine forall₂_congr fun vi _ => ?_
  rcases vi.projects[j]? with _ | pi <;> simp

@[simp]
theorem logs_projectAt : Logs P (projectAt i j) s ↔ True := by
  rw [projectAt, logs_bind, logs_versionAt, true_and, ensures_versionAt]
  refine iff_true_intro fun vi _ => ?_
  rcases vi.projects[j]? with _ | pi <;> simp

end Rules

/-! ## The registry -/

variable (os : Os W)

/-- The position of the first version that has the name. -/
def versionFind (name : CString) (versions : List VersionInf) : Option ℕ :=
  versions.findIdx? fun vi => strcmp name vi.name = 0

/-- The position of the first project that has the name. -/
def projectFind (name : CString) (projects : List ProjectInf) : Option ℕ :=
  projects.findIdx? fun pi => strcmp name pi.name = 0

/-- The version of a name: the registered one, or a new one if the repository has it. -/
def versionGet (name : CString) : Handler W (Option ℕ) := do
  let versions := (← get).world.versions
  match versionFind name versions with
  | some i => return some i
  | none => do
    -- Only a version that is not registered is asked for.
    if !(← sys (job os fun site => site.versionExists name)) then return none
    addVersion (versionCreate name)
    return some versions.length

/-- The project of a name: the registered one, or a new one if the repository has it in the
    version. -/
def projectGet (name : CString) (i : ℕ) : Handler W (Option ℕ) := do
  let vi ← versionAt i
  match projectFind name vi.projects with
  | some j => return some j
  | none => do
    if !(← sys (job os fun site => site.versionHasProject vi name)) then return none
    addProject i (projectCreate name)
    return some vi.projects.length

/-- The registry at the start, given the directories below the root one, and the
    directories in them. -/
def allVersionsInit (dirs : List (CString × List CString)) : List VersionInf :=
  dirs.map fun dir => { versionCreate dir.1 with projects := dir.2.map projectCreate }

/-- The state at the start: at the enable node, and that of the configuration
    file at the config node. -/
def bootState (dirs : List (CString × List CString)) (sys : Sys W) : State (Session W) where
  shell := ⟨.enable⟩
  file := ⟨.config⟩
  host := ⟨none, 0⟩
  world := ⟨allVersionsInit dirs, .null, .null, sys⟩

/-! ## Versions -/

/-- Entering a version for an architecture: its directory is made the current one, the
    architecture is checked, and its variables are set up. -/
def versionInit (i : ℕ) (arch : CString) : Handler W ℤ := do
  let vi ← versionAt i
  let dir ← sys (strcatName rootDir vi.dirName)
  if !(← sys (enterDir os dir)) then return -1
  if (← sys (job os fun site => site.versionArchInvalid arch)) ≠ 0 then return -mkErrVerArchInval
  -- `strncpy` leaves room for the null.
  setArch i (arch.take (mkArchStrLen - 1))
  let vi ← versionAt i
  let dir ← sys (versionInstallDir vi)
  -- Whether the directory can be made does not matter.
  let _ ← sys (job os fun site => site.mkdirCmd dir)
  match vi.attribute with
  | none => return 0
  | some attr => sys (attr.initEnv vi)

/-- Leaving a version: its variables are taken away, and so is its architecture; the directory
    is left by `..`. -/
def versionFinit (i : ℕ) : Handler W Unit := do
  let vi ← versionAt i
  (match vi.attribute with
    | none => pure ()
    | some attr => sys (attr.finitEnv vi))
  setArch i []
  let _ ← sys (chdir os "..".toList)
  return ()

/-- Refreshing the version at a position. -/
def versionRefreshAt (i : ℕ) : Handler W ℤ := do
  let vi ← versionAt i
  sys (job os fun site => site.versionRefresh vi)

/-! ## Showing -/

/-- The number of versions, and each one with the number of its projects. -/
def versionsShow : Handler W Unit := do
  let versions := (← get).world.versions
  vtyOut ("Total versions: ".toList ++ Nat.toDigits 10 versions.length ++ "\n".toList)
  forEach (fun vi => vtyOut ("  projects: ".toList ++
    (Nat.toDigits 10 vi.projects.length).rightpad 3 ' ' ++ " @ ".toList ++ vi.name ++
    "\n".toList)) versions

/-- Each version with its projects. -/
def versionsShowDetail : Handler W Unit := do
  let versions := (← get).world.versions
  forEach (fun vi => do
    vtyOut ("Version: ".toList ++ vi.name ++ "\n".toList)
    forEach (fun pi => vtyOut ("  Project: ".toList ++ pi.name ++ "\n".toList)) vi.projects)
    versions

/-- The number of the projects of a version, and their names. -/
def projectsShow (vi : VersionInf) : Handler W Unit := do
  vtyOut ("Total projects: ".toList ++ Nat.toDigits 10 vi.projects.length ++ "\n".toList)
  forEach (fun pi => vtyOut ("    ".toList ++ pi.name ++ "\n".toList)) vi.projects

/-! ## Handlers -/

/-- A program run with arguments, whose status is returned. -/
def execTool (command : CString) (argv : List CString) : Handler W ℤ :=
  sys (job os fun site => site.cmdExecuteSystemCommand command argv)

/-- The argument `n` is the last one, and is `refresh`. -/
def asksRefresh (argv : List CString) (n : ℕ) : Bool :=
  argv.length = n + 1 && argv[n]?.any fun s => strcmp s "refresh".toList = 0

/-- `ping WORD`. -/
def configPing (argv : List CString) : Handler W ℤ := do
  let host ← arg argv 0
  let _ ← execTool os "ping".toList [host]
  return cmdSuccess

/-- `ping WORD NUM`, if the count starts with a digit. -/
def configPingCount (argv : List CString) : Handler W ℤ := do
  let count ← arg argv 1
  -- Only the first character is looked at.
  if !(count.head?.any isdigit) then
    vtyOut ("Invalid number '".toList ++ count ++ "', Please input the count number\n".toList)
    return cmdErrNothingTodo
  let host ← arg argv 0
  let _ ← execTool os "ping".toList [host, "-c".toList, count]
  return cmdSuccess

/-- `traceroute WORD`. -/
def configTraceroute (argv : List CString) : Handler W ℤ := do
  let host ← arg argv 0
  let _ ← execTool os "traceroute".toList [host]
  return cmdSuccess

/-- `show netstat`. The status is that of the child process. -/
def netNetstatInfo : Handler W ℤ := execTool os "netstat".toList ["-n".toList, "-a".toList]

/-- `password`. The status is that of the child process. -/
def systemPassword : Handler W ℤ :=
  sys (job os fun site => site.cmdExecuteSystemCommand2 "passwd".toList)

/-- `show version`. -/
def showVersion : Handler W ℤ := do
  versionsShow
  return cmdSuccess

/-- `show version detail`. -/
def showVersionDetail : Handler W ℤ := do
  versionsShowDetail
  return cmdSuccess

/-- `show project`, in a version. -/
def showProject (ref : VtyRef) : Handler W ℤ := do
  let vi ← versionAt (← castVersion ref)
  projectsShow vi
  return cmdSuccess

/-- Entering a version, once it is found. -/
def getVersionAt (ref : VtyRef) (argv : List CString) (i : ℕ) : Handler W ℤ := do
  let arch ← arg argv 1
  let ret ← versionInit os i arch
  if ret ≠ 0 then
    vtyOut ("Version init error: ".toList ++ mkStrerror ret ++ ".\n".toList)
    return cmdSuccess
  let exist ← (if asksRefresh argv 2 then pure false
    else sys (job os fun site => site.dirOrFileExist projectBuildName))
  let ret ← (if exist then pure 0 else versionRefreshAt os i)
  if ret ≠ 0 then
    versionFinit os i
    vtyOut ("Version refresh error: ".toList ++ mkStrerror ret ++ ".\n".toList)
    return cmdSuccess
  setIndex ref (.version i)
  setNode ref .version
  return cmdSuccess

/-- `version`: the version of the name without its last slashes is entered. If that fails, what
    has been changed is not put back. -/
def getVersion (ref : VtyRef) (argv : List CString) : Handler W ℤ := do
  let name ← arg argv 0
  let fixed ← sys (mkFixName name)
  match ← versionGet os fixed with
  | none => do
    vtyOut ("No such version: ".toList ++ name ++ ".\n".toList)
    return cmdSuccess
  | some i => getVersionAt os ref argv i

/-- Entering a project, once it is found. -/
def getProjectAt (ref : VtyRef) (argv : List CString) (i j : ℕ) : Handler W ℤ := do
  let (vi, pi) ← projectAt i j
  let ret ← sys (projectInit os vi pi (asksRefresh argv 1))
  if ret ≠ 0 then
    vtyOut ("Project init error: ".toList ++ mkStrerror ret ++ ".\n".toList)
    return cmdWarning
  setIndex ref (.project i j)
  setNode ref .project
  return cmdSuccess

/-- `project`: the project is entered. Its name is taken as it is typed. -/
def getProject (ref : VtyRef) (argv : List CString) : Handler W ℤ := do
  let i ← castVersion ref
  let name ← arg argv 0
  match ← projectGet os name i with
  | none => do
    vtyOut ("No such project: ".toList ++ name ++ "\n".toList)
    return cmdWarning
  | some j => getProjectAt os ref argv i j

/-- `exit`, in a version. -/
def versionExit (ref : VtyRef) : Handler W ℤ := do
  let i ← castVersion ref
  versionFinit os i
  setIndex ref .null
  setNode ref .enable
  return cmdSuccess

/-- `refresh`, in a version. -/
def versionCmdRefresh (ref : VtyRef) : Handler W ℤ := do
  let i ← castVersion ref
  versionRefreshAt os i

/-- `exit`, in a project: back to its version. -/
def projectExit (ref : VtyRef) : Handler W ℤ := do
  let (i, j) ← castProject ref
  let (_, pi) ← projectAt i j
  sys (projectFinit os pi)
  setIndex ref (.version i)
  setNode ref .version
  return cmdSuccess

/-- `end`, in a project: its version is left, too. -/
def projectEnd (ref : VtyRef) : Handler W ℤ := do
  let (i, j) ← castProject ref
  let (_, pi) ← projectAt i j
  sys (projectFinit os pi)
  versionFinit os i
  setIndex ref .null
  setNode ref .enable
  return cmdSuccess

/-- `pwd`. -/
def systemPwd : Handler W ℤ := execTool os "pwd".toList []

/-- `env`. -/
def systemEnv : Handler W ℤ := execTool os "env".toList []

/-- `ls WORD WORD`. -/
def systemLs3 (argv : List CString) : Handler W ℤ := do
  let arg0 ← arg argv 0
  let arg1 ← arg argv 1
  execTool os "ls".toList [arg0, arg1]

/-- `ls WORD`. -/
def systemLs2 (argv : List CString) : Handler W ℤ := do
  let arg0 ← arg argv 0
  execTool os "ls".toList [arg0]

/-- `ls`. -/
def systemLs : Handler W ℤ := execTool os "ls".toList []

/-- `mkdir -p WORD`. -/
def systemMkdir (argv : List CString) : Handler W ℤ := do
  let dir ← arg argv 0
  sys (job os fun site => site.mkdirCmd dir)

/-- `patch WORD`, unless the patch is for a file that it must not touch. -/
def systemPatch (argv : List CString) : Handler W ℤ := do
  let file ← arg argv 0
  let patchfile ← sys (strcat mkMaxStrLen (destDir ++ "/".toList) file)
  if ← sys (job os fun site => site.illegalPatchFile patchfile) then
    vtyOut "Warning: illegal operation in patch file!\n".toList
    return cmdWarning
  let cmd ← sys (sprintf mkMaxStrLen ("patch -p0 < ".toList ++ patchfile))
  sys (job os fun site => site.cmdExecuteSystemCommand2 cmd)

/-- `make`: the project is compiled, whatever comes of it. -/
def projectMake (ref : VtyRef) : Handler W ℤ := do
  let (i, j) ← castProject ref
  let (_, pi) ← projectAt i j
  let _ ← sys (job os fun site => site.projectCompile pi [])
  return cmdSuccess

/-- `make install` and `make clean`. -/
def projectMakeInstallOrClean (ref : VtyRef) (argv : List CString) : Handler W ℤ := do
  let (i, j) ← castProject ref
  let (vi, pi) ← projectAt i j
  let target ← arg argv 0
  let _ ← (if strcmp target "install".toList = 0 then sys (projectInstall os vi pi [])
    else sys (job os fun site => site.projectClean []))
  return cmdSuccess

/-- `make WORD`. The status is that of the child process. -/
def projectMake2 (argv : List CString) : Handler W ℤ := sys (job os fun site => site.makeCmd argv)

/-- `make -C WORD`. -/
def projectMakeC (argv : List CString) : Handler W ℤ := do
  let dir ← arg argv 0
  sys (job os fun site => site.makeCmd ["-C".toList, dir])

/-- `make -C WORD WORD`. -/
def projectMakeC2 (argv : List CString) : Handler W ℤ := do
  let dir ← arg argv 0
  let target ← arg argv 1
  sys (job os fun site => site.makeCmd ["-C".toList, dir, target])

/-- `refresh`, in a project: it is checked out again from its parent directory. -/
def projectCmdRefresh (ref : VtyRef) : Handler W ℤ := do
  let (i, j) ← castProject ref
  let (vi, pi) ← projectAt i j
  let _ ← sys (chdir os "..".toList)
  let _ ← sys (job os fun site => site.projectRefresh vi pi)
  let _ ← sys (chdir os pi.name)
  return cmdSuccess

/-- `configure-project`: only the node changes. -/
def projectConf (ref : VtyRef) : Handler W ℤ := do
  setNode ref .proConf
  return cmdSuccess

/-- `exit`, in the configuration of a project. -/
def proConfExit (ref : VtyRef) : Handler W ℤ := do
  setNode ref .project
  return cmdSuccess

/-- `kernel-config-file WORD`, for projects with `kernel` in their names. -/
def proConfKernelConfFile (ref : VtyRef) (argv : List CString) : Handler W ℤ := do
  let (i, j) ← castProject ref
  let file ← arg argv 0
  let (_, pi) ← projectAt i j
  if !(strstr pi.name "kernel".toList).isSome then
    vtyOut "Not kernel project.\n".toList
    return cmdWarning
  let valid ← (if (strstr file "config".toList).isSome then
    sys (job os fun site => site.dirOrFileExist file) else pure false)
  if !valid then
    vtyOut "File name invalid.\n".toList
    return cmdWarning
  execTool os "cp".toList [file, ".config".toList]

/-- `build`, in a version. An error is only printed. -/
def versionBuildTool (ref : VtyRef) : Handler W ℤ := do
  let vi ← versionAt (← castVersion ref)
  let ret ← sys (versionBuild os vi)
  (if ret ≠ 0 then vtyOut ("Version build error: ".toList ++ mkStrerror ret ++ ".\n".toList)
    else pure ())
  return cmdSuccess

/-- The handlers. Quitting exits. -/
def toolHandler (ref : VtyRef) (argv : List CString) : ToolFunc → Handler W ℤ
  | .configQuit => halt
  | .configPing => configPing os argv
  | .configPingCount => configPingCount os argv
  | .configTraceroute => configTraceroute os argv
  | .netNetstatInfo => netNetstatInfo os
  | .systemEnv => systemEnv os
  | .showVersion => showVersion
  | .showVersionDetail => showVersionDetail
  | .getVersion => getVersion os ref argv
  | .systemPwd => systemPwd os
  | .systemPassword => systemPassword os
  | .projectExit => projectExit os ref
  | .projectEnd => projectEnd os ref
  | .projectConf => projectConf ref
  | .systemPatch => systemPatch os argv
  | .systemLs => systemLs os
  | .systemLs2 => systemLs2 os argv
  | .systemLs3 => systemLs3 os argv
  | .systemMkdir => systemMkdir os argv
  | .projectMakeInstallOrClean => projectMakeInstallOrClean os ref argv
  | .projectMakeC => projectMakeC os argv
  | .projectMakeC2 => projectMakeC2 os argv
  | .projectMake2 => projectMake2 os argv
  | .projectMake => projectMake os ref
  | .projectCmdRefresh => projectCmdRefresh os ref
  | .getProject => getProject os ref argv
  | .versionExit => versionExit os ref
  | .showProject => showProject ref
  | .versionCmdRefresh => versionCmdRefresh os ref
  | .versionBuild => versionBuildTool os ref
  | .proConfExit => proConfExit ref
  | .proConfKernelConfFile => proConfKernelConfFile os ref argv

/-- The shell, with the handlers of the tools. -/
def cliShell (cmdvec : NodeType → Option (List (CmdElement ToolFunc)))
    (crypt : CString → CString → Option CString) : Shell ToolFunc (Session W) where
  cmdvec := cmdvec
  handler func _ ref argv s := (toolHandler os ref argv func).result s
  crypt := crypt

end Mksh
