import Mathlib.Logic.Function.Basic
import Mksh.Lib.Ensures
import Mksh.Lib.Path

/-!
# The system

What the tools rest on: child processes, directories and the environment. How
the system answers is arbitrary (`Os`), but for the directories that a path may
lead to (`Os.Lexical`).

The functions of the tools come in two layers, after what they may change. A
*job* runs at a *site*, i.e., with a current directory and an environment, which
it leaves as they are (`Job`). An *action* may change both (`Action`), and may
perform jobs (`job`).

Strings are written to buffers of a fixed size (`fill`). What happens after an
overflow is unknown: the process ends.
-/

namespace Mksh

open CString Process

/-- The environment. -/
abbrev Env := CString → Option CString

/-- What is observed of the system. -/
inductive SysEvent
  /-- A string in a buffer. -/
  | buffer (size : ℕ) (s : CString)
  /-- An access before the start of a string. -/
  | underrun
  /-- A command line given to a shell. -/
  | system (command : CString)
  /-- A program run with arguments. -/
  | exec (command : CString) (argv : List CString)
  /-- A path followed from a directory, and whether this succeeds. -/
  | chdir (cwd : Dir) (path : CString) (ok : Bool)
  deriving DecidableEq

/-- The system, in a world of type `W`: the status of a program and of a command
    line, run in a directory and an environment, the directory to which a path
    leads from another, and the path of a directory. -/
structure Os (W : Type) where
  exec : CString → List CString → Dir → Env → W → ℤ × W
  system : CString → Dir → Env → W → ℤ × W
  chdir : Dir → CString → W → Option Dir
  getcwd : Dir → W → Option CString

/-- There are no symbolic links: a path leads where its components do. -/
structure Os.Lexical {W : Type} (os : Os W) : Prop where
  chdir {d d' : Dir} {path : CString} {w : W} : os.chdir d path w = some d' → d' = d.walk path
  getcwd {d : Dir} {path : CString} {w : W} : os.getcwd d w = some path →
    Dir.IsAbsolute path ∧ d.walk path = d

/-- A system without a world, given by the status of programs and of command
    lines in a directory, and by the directories there are. -/
def Os.scripted (exec : CString → List CString → Dir → ℤ) (system : CString → Dir → ℤ)
    (isDir : Dir → Bool) : Os Unit where
  exec command argv d _ w := (exec command argv d, w)
  system command d _ w := (system command d, w)
  chdir d path _ := if isDir (d.walk path) then some (d.walk path) else none
  getcwd _ _ := none

/-- A scripted system changes directories along their paths. -/
theorem Os.scripted_lexical (exec : CString → List CString → Dir → ℤ)
    (system : CString → Dir → ℤ) (isDir : Dir → Bool) :
    (Os.scripted exec system isDir).Lexical where
  chdir {d d' path w} h := by
    change (if _ then _ else _) = _ at h
    split_ifs at h
    exact (Option.some.inj h).symm
  getcwd h := nomatch h

/-- A system in which everything succeeds. -/
def Os.permissive : Os Unit := .scripted (fun _ _ _ => 0) (fun _ _ => 0) fun _ => true

/-- Where a job runs. -/
structure Site (W : Type) where
  os : Os W
  cwd : Dir
  env : Env

/-- The state of the system, for the shell. -/
structure Sys (W : Type) where
  cwd : Dir
  env : Env
  world : W

/-- What only the world of the child processes is needed for. -/
abbrev Job (W α : Type) := Process W SysEvent α

/-- What the environment and the current directory are needed for as well. -/
abbrev Action (W α : Type) := Process (Sys W) SysEvent α

variable {W σ α : Type}

/-! ## Buffers -/

/-- `MK_MAX_STR_LEN`: the size of the buffers for paths and commands. -/
def mkMaxStrLen : ℕ := 1024

/-- `MK_ARCH_STR_LEN`: the size of the buffers for architectures. -/
def mkArchStrLen : ℕ := 32

/-- Writing a string, and its terminating NUL, to a buffer. -/
def fill (size : ℕ) (s : CString) : Process σ SysEvent CString := do
  emit (.buffer size s)
  if s.length < size then return s else halt

/-- Copying to a buffer of `size` characters. -/
abbrev strcpy (size : ℕ) (src : CString) : Process σ SysEvent CString := fill size src

/-- Appending to the text in a buffer of `size` characters. -/
abbrev strcat (size : ℕ) (dst src : CString) : Process σ SysEvent CString := fill size (dst ++ src)

/-- Printing to a buffer of `size` characters. -/
abbrev sprintf (size : ℕ) (text : CString) : Process σ SysEvent CString := fill size text

/-- A buffer that is filled has the text, if it fits. -/
@[simp]
theorem ensures_fill {size : ℕ} {t : CString} {Q : CString → σ → Prop} {s : σ} :
    Ensures (fill size t) Q s ↔ (t.length < size → Q t s) := by
  rw [fill, ensures_bind, ensures_emit, ensures_ite, ensures_pure, ensures_halt]
  split_ifs with h
  · simp [h]
  · simp [h]

/-- A text has to fit in its buffer. -/
@[simp]
theorem achieves_fill {size : ℕ} {t : CString} {Q : CString → σ → Prop} {s : σ} :
    Achieves (fill size t) Q s ↔ t.length < size ∧ Q t s := by
  rw [fill, achieves_bind, achieves_emit, achieves_ite, achieves_pure, achieves_halt]
  split_ifs with h
  · simp [h]
  · simp [h]

/-- Filling a buffer is logged, whether the text fits or not. -/
@[simp]
theorem logs_fill {size : ℕ} {t : CString} {P : SysEvent → Prop} {s : σ} :
    Logs P (fill size t) s ↔ P (.buffer size t) := by
  rw [fill, logs_bind, logs_emit, ensures_emit, logs_ite, logs_pure, logs_halt, ite_self, and_true]

/-! ## Jobs -/

namespace Site

variable (site : Site W)

/-- Execute command in child process. -/
def cmdExecuteSystemCommand (command : CString) (argv : List CString) : Job W ℤ := do
  emit (.exec command argv)
  step (site.os.exec command argv site.cwd site.env)

/-- Executing a command line. -/
def cmdExecuteSystemCommand2 (command : CString) : Job W ℤ := do
  emit (.system command)
  step (site.os.system command site.cwd site.env)

variable {site} {command : CString} {argv : List CString} {Q : ℤ → W → Prop}
  {P : SysEvent → Prop} {w : W}

/-- A child process returns its status, and leaves the world behind. -/
@[simp]
theorem ensures_cmdExecuteSystemCommand :
    Ensures (site.cmdExecuteSystemCommand command argv) Q w ↔
      Q (site.os.exec command argv site.cwd site.env w).1
        (site.os.exec command argv site.cwd site.env w).2 := by
  rw [cmdExecuteSystemCommand, ensures_bind, ensures_emit, ensures_step]

/-- A command of the shell returns its status, and leaves the world behind. -/
@[simp]
theorem ensures_cmdExecuteSystemCommand2 :
    Ensures (site.cmdExecuteSystemCommand2 command) Q w ↔
      Q (site.os.system command site.cwd site.env w).1
        (site.os.system command site.cwd site.env w).2 := by
  rw [cmdExecuteSystemCommand2, ensures_bind, ensures_emit, ensures_step]

@[simp]
theorem logs_cmdExecuteSystemCommand :
    Logs P (site.cmdExecuteSystemCommand command argv) w ↔ P (.exec command argv) := by
  simp [cmdExecuteSystemCommand]

@[simp]
theorem logs_cmdExecuteSystemCommand2 :
    Logs P (site.cmdExecuteSystemCommand2 command) w ↔ P (.system command) := by
  simp [cmdExecuteSystemCommand2]

end Site

/-! ## Actions -/

variable (os : Os W)

/-- A job, at the current site. -/
def job (f : Site W → Job W α) : Action W α :=
  zoom Sys.world (fun w s => { s with world := w }) id fun s => f ⟨os, s.cwd, s.env⟩

/-- Changing the directory: whether this succeeds. -/
def chdir (path : CString) : Action W Bool := do
  let s ← get
  let d := os.chdir s.cwd path s.world
  emit (.chdir s.cwd path d.isSome)
  step fun s => (d.isSome, { s with cwd := d.getD s.cwd })

/-- The path of the current directory, if it can be found. -/
def getcwd : Action W (Option CString) := do
  let s ← get
  return os.getcwd s.cwd s.world

/-- Setting a variable, also one that is set already. -/
def setenv (name value : CString) : Action W Unit :=
  modify fun s => { s with env := Function.update s.env name (some value) }

/-- Removing a variable. -/
def unsetenv (name : CString) : Action W Unit :=
  modify fun s => { s with env := Function.update s.env name none }

/-- The value of a variable, if it is set. -/
def getenv (name : CString) : Action W (Option CString) := do
  return (← get).env name

section Rules

variable {os} {f : Site W → Job W α} {P : SysEvent → Prop} {s : Sys W} {name value : CString}
  {path : CString}

/-- What child processes do leaves the directory and the environment. -/
@[simp]
theorem ensures_job {Q : α → Sys W → Prop} : Ensures (job os f) Q s ↔
    Ensures (f ⟨os, s.cwd, s.env⟩) (fun a w => Q a { s with world := w }) s.world :=
  ensures_zoom

@[simp]
theorem logs_job : Logs P (job os f) s ↔ Logs P (f ⟨os, s.cwd, s.env⟩) s.world := logs_zoom

/-- The directory is what the system says, or stays as it is. -/
@[simp]
theorem ensures_chdir {Q : Bool → Sys W → Prop} : Ensures (chdir os path) Q s ↔
    Q (os.chdir s.cwd path s.world).isSome
      { s with cwd := (os.chdir s.cwd path s.world).getD s.cwd } := by
  simp [chdir]

/-- A change of the directory is logged with its success. -/
@[simp]
theorem logs_chdir : Logs P (chdir os path) s ↔
    P (.chdir s.cwd path (os.chdir s.cwd path s.world).isSome) := by
  simp [chdir]

/-- The system tells the directory. -/
@[simp]
theorem ensures_getcwd {Q : Option CString → Sys W → Prop} :
    Ensures (getcwd os) Q s ↔ Q (os.getcwd s.cwd s.world) s := by
  simp [getcwd]

@[simp]
theorem logs_getcwd : Logs P (getcwd os) s ↔ True := by simp [getcwd]

/-- A variable is set. -/
@[simp]
theorem ensures_setenv {Q : Unit → Sys W → Prop} : Ensures (setenv name value) Q s ↔
    Q () { s with env := Function.update s.env name (some value) } := ensures_modify

@[simp]
theorem achieves_setenv {Q : Unit → Sys W → Prop} : Achieves (setenv name value) Q s ↔
    Q () { s with env := Function.update s.env name (some value) } := achieves_modify

/-- A variable is removed. -/
@[simp]
theorem ensures_unsetenv {Q : Unit → Sys W → Prop} : Ensures (unsetenv name) Q s ↔
    Q () { s with env := Function.update s.env name none } := ensures_modify

/-- A variable is read. -/
@[simp]
theorem ensures_getenv {Q : Option CString → Sys W → Prop} :
    Ensures (getenv name) Q s ↔ Q (s.env name) s := by
  simp [getenv]

@[simp]
theorem achieves_getenv {Q : Option CString → Sys W → Prop} :
    Achieves (getenv name) Q s ↔ Q (s.env name) s := by
  simp [getenv]

end Rules

end Mksh
