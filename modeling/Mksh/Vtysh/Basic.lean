import Mksh.Cmd.Tool
import Mksh.Command.Execute
import Mksh.Command.Strvec
import Mksh.Lib.Process

/-!
# The shell

The lines typed by the user, and those of a configuration file, as the shell
executes them (`vtyshExecute`, `vtyshConfigFromFile`). What the handlers do is
arbitrary: they return any number, and may change any state, or exit
(`Shell.handler`). A process logs the calls of handlers and what it prints.

A handler returns its status through the channel on which dispatch returns its
errors, and `CMD_SUCCESS_DAEMON`, with which it leaves a command to the caller.
-/

namespace Mksh

open CString Process

/-- Command levels. -/
inductive NodeType
  | auth
  | view
  | authEnable
  | enable
  | config
  | nac
  | user
  | version
  | project
  | proConf
  | vty
  deriving DecidableEq

/-- `struct vty`: the terminal is at a node. -/
structure Vty where
  node : NodeType
  deriving DecidableEq

/-- `struct host`: the password, and how often another one has been tried. -/
structure Host where
  enableEncrypt : Option CString
  trytimes : ℤ
  deriving DecidableEq

/-- The two `vty`s: that of the shell, and that of the configuration file. -/
inductive VtyRef
  | shell
  | file
  deriving DecidableEq

/-- The state: the `vty`s, the host, and all the rest that handlers may use. -/
structure State (W : Type) where
  shell : Vty
  file : Vty
  host : Host
  world : W
  deriving DecidableEq

variable {F W : Type}

/-- The terminal that is referred to. -/
def State.vty (s : State W) : VtyRef → Vty
  | .shell => s.shell
  | .file => s.file

/-- What the shell rests on: the vectors of the nodes, `none` for a node that is
    not installed, the handlers, which return a status or exit, and `crypt`. -/
structure Shell (F W : Type) where
  cmdvec : NodeType → Option (List (CmdElement F))
  handler : F → CmdElement F → VtyRef → List CString → State W → Option (ℤ × State W)
  crypt : CString → CString → Option CString

/-- What is observed of the shell. -/
inductive Event (F : Type)
  | invoke (e : CmdElement F) (ref : VtyRef) (argv : List CString)
  | print (text : CString)
  deriving DecidableEq

/-- What the shell does: processes on its state, which print and call handlers. -/
abbrev Command (F W α : Type) := Process (State W) (Event F) α

/-- Printing a text. -/
def print (text : String) : Command F W Unit := emit (.print text.toList)

/-! ## Calling handlers -/

namespace Shell

variable (sh : Shell F W)

/-- Calling the handler of an element. A `NULL` one crashes. -/
def invoke (e : CmdElement F) (ref : VtyRef) (argv : List CString) : Command F W ℤ :=
  match e.func with
  | none => halt
  | some f => do
    emit (.invoke e ref argv)
    fun s => ([], sh.handler f e ref argv s)

theorem invoke_of_none {e : CmdElement F} (h : e.func = none) (ref : VtyRef)
    (argv : List CString) : sh.invoke e ref argv = halt := by
  rw [invoke, h]

theorem invoke_of_some {e : CmdElement F} {f : F} (h : e.func = some f) (ref : VtyRef)
    (argv : List CString) (s : State W) :
    sh.invoke e ref argv s = ([.invoke e ref argv], sh.handler f e ref argv s) := by
  rw [invoke, h]
  rfl

/-- What an executor does with a line, at the node of the `vty`; `none` if the
    node is not installed. -/
def dispatch (exec : List (CmdElement F) → List CString → Outcome F) (ref : VtyRef)
    (vline : List CString) (s : State W) : Option (Outcome F) :=
  (sh.cmdvec (s.vty ref).node).map fun table => exec table vline

/-- Doing what an executor does. -/
def perform (ref : VtyRef) :
    Option (Outcome F) → Command F W (ℤ × Option (CmdElement F))
  | none => halt
  | some (.returns ret) => return (ret, none)
  | some (.daemon e _) => return (cmdSuccessDaemon, some e)
  | some (.call e argv) => return (← sh.invoke e ref argv, some e)
  | some (.fault _) => halt

/-- Calling an executor, which returns a status, and through `cmd`, the element
    selected. -/
def cmdExecute (exec : List (CmdElement F) → List CString → Outcome F) (ref : VtyRef)
    (vline : List CString) : Command F W (ℤ × Option (CmdElement F)) := do
  sh.perform ref (sh.dispatch exec ref vline (← get))

/-- Calling the handler of an element left to the caller. -/
def invokeDaemon (ref : VtyRef) : Option (CmdElement F) → Command F W Unit
  | none => halt
  | some e => if e.func = none then pure () else do let _ ← sh.invoke e ref []

/-! ## Lines of the user -/

/-- The switch on the status of a line. -/
def reportExecute (ret : ℤ) (cmd : Option (CmdElement F)) : Command F W Unit :=
  if ret = cmdWarning then pure ()
  else if ret = cmdErrAmbiguous then print "% Ambiguous command.\n"
  else if ret = cmdErrNoMatch then print "% Unknown command.\n"
  else if ret = cmdErrIncomplete then print "% Command incomplete.\n"
  else if ret = cmdSuccessDaemon then sh.invokeDaemon .shell cmd
  else pure ()

/-- Command execution over the vty interface. -/
def vtyshExecuteFunc (line : CString) : Command F W ℤ :=
  match cmdMakeStrvec line with
  -- An empty line, or a comment.
  | none => pure (-1)
  | some vline => do
    let (ret, cmd) ← sh.cmdExecute cmdExecuteCommand .shell vline
    sh.reportExecute ret cmd
    return ret

/-- The password for the enable node: whether it is right. `none` if there is
    nothing to compare it with. -/
def inIsValidPassword (passwd : CString) (host : Host) : Option Bool :=
  match host.enableEncrypt with
  | none => none
  | some enableEncrypt =>
    -- The salt is the first two characters.
    match sh.crypt passwd (enableEncrypt.take 2) with
    | none => none
    | some passwd => some (strcmp enableEncrypt passwd = 0)

/-- The line is the password for the enable node. -/
def enterPassword (line : CString) : Command F W ℤ := do
  let host := (← get).host
  match sh.inIsValidPassword line host with
  -- No encrypted password, or `crypt` fails: a null pointer is read.
  | none => halt
  | some true =>
    modify fun s => { s with shell.node := .enable, host.trytimes := 0 }
    return -1
  | some false =>
    modify fun s => { s with host.trytimes := s.host.trytimes + 1 }
    -- `trytimes++ > 1` tests the number before it is incremented.
    if host.trytimes > 1 then
      print "Authentication failed!\n"
      halt
    else
      print "Invalid password!\n"
      return -1

/-- A line of the user: a password, if one is asked for, or else a command. -/
def vtyshExecute (line : CString) : Command F W ℤ := do
  if (← get).shell.node = .authEnable then sh.enterPassword line
  else sh.vtyshExecuteFunc line

/-! ## Lines of a configuration file -/

/-- Setting the node of the file. -/
def setConfigNode : Command F W Unit := modify fun s => { s with file.node := .config }

theorem setConfigNode_bind {α : Type} (q : Unit → Command F W α) (s : State W) :
    (setConfigNode >>= q) s = q () { s with file.node := .config } := rfl

/-- The switch on the status of a line of the file. -/
def reportConfig (buf : CString) (ret : ℤ) (cmd : Option (CmdElement F)) : Command F W Unit :=
  if ret = cmdWarning then pure ()
  else if ret = cmdErrAmbiguous then print "% Ambiguous command.\n"
  else if ret = cmdErrNoMatch then emit (.print ("% Unknown command: ".toList ++ buf))
  else if ret = cmdErrIncomplete then print "% Command incomplete.\n"
  else if ret = cmdSuccessDaemon then sh.invokeDaemon .file cmd
  else pure ()

/-- Try again with setting node to CONFIG_NODE. -/
def retryConfig (buf : CString) (vline : List CString) (cmd : Option (CmdElement F)) :
    Command F W Unit := do
  -- These are lines of the shell, not of the file.
  let _ ← sh.vtyshExecute "end".toList
  let _ ← sh.vtyshExecute "configure terminal".toList
  setConfigNode
  let (ret, cmd') ← sh.cmdExecute cmdExecuteCommandStrict .file vline
  sh.reportConfig buf ret (cmd'.or cmd)

/-- Execute configuration command : this is strict match. -/
def executeConfig (buf : CString) (vline : List CString) : Command F W Unit := do
  let (ret, cmd) ← sh.cmdExecute cmdExecuteCommandStrict .file vline
  if ret ≠ cmdSuccess ∧ ret ≠ cmdSuccessDaemon ∧ ret ≠ cmdWarning then
    -- A warning is not tried again.
    sh.retryConfig buf vline cmd
  else sh.reportConfig buf ret cmd

/-- The body of the loop of `vtyshConfigFromFile`. -/
def vtyshConfigLine (buf : CString) : Command F W Unit :=
  if buf.head? = some '#' then pure ()
  else do
    -- The line is executed all the same, where it is not a comment.
    if buf.head? = some '!' then setConfigNode
    match cmdMakeStrvec buf with
    | none => pure () -- In case of comment line
    | some vline => sh.executeConfig buf vline

/-- The lines of a file as `fgets` reads them, with room for `room` more
    characters of `cur`, the current one, out of `size`. -/
def fgetsLines (size : ℕ) (room : ℕ) (cur : CString) : CString → List CString
  | [] => if cur = [] then [] else [cur]
  | c :: file =>
    -- A line without room left ends here, and the rest of it is read as the next one.
    if c = '\n' ∨ room ≤ 1 then (cur ++ [c]) :: fgetsLines size size [] file
    else fgetsLines size (room - 1) (cur ++ [c]) file

/-- The size of the buffer for the lines of a file. -/
def vtyBufsiz : ℕ := 512

/-- The contents of the buffer, line after line. -/
def configLines (file : CString) : List CString :=
  fgetsLines (vtyBufsiz - 1) (vtyBufsiz - 1) [] file

/-- Configration make from file: `none` for a file that cannot be opened. -/
def vtyshConfigFromFile (file : Option CString) : Command F W ℤ :=
  match file with
  | none => pure (-1)
  | some file => do
    forEach sh.vtyshConfigLine (configLines file)
    return cmdSuccess

end Shell

end Mksh
