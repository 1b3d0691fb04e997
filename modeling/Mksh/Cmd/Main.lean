import Mksh.Cmd.Directory
import Mksh.Vtysh.Load

/-!
# The program

The program as it is started: the options are scanned, and then it executes the line of
an option, or a configuration file, or the lines that the user types after such a file
(`Shell.main`). The options are those that `getopt_long` returns; the lines typed end with
the end of the input.

Nothing is installed in the config node, and the lines with which a line of a file is
tried again are not known in the enable node. So a configuration file has no effect but
for messages (`Shell.Inert.vtyshLoadConfig`), and the program is that of the line, or of the
lines typed, from the state at the start (`main_eq`): what the program is in at each of
these lines is a state reached by lines (`main_eq`, again).
-/

namespace Mksh

open CString Process

variable {F W : Type}

/-! ## Options -/

/-- What `getopt_long` returns, with `optarg`; `other` is none of the options. -/
inductive MainOpt
  | boot
  | eval (line : CString)
  | config (file : CString)
  | help
  | version
  | other
  deriving DecidableEq

/-- What the options are scanned for. -/
structure MainFlags where
  bootFlag : Bool
  evalLine : Option CString
  configFile : CString
  deriving DecidableEq

/-- How the program is called: its name, without directories, the options, and when it has
    been compiled. -/
structure Invocation where
  basename : CString
  opts : List MainOpt
  date : CString
  time : CString

/-- `CONFIG_DIR`, `CONFIG_FILE`. -/
def defaultConfigFile : CString := "/etc/trace.conf".toList

/-- Help information display. -/
def usageText (basename : CString) : CString :=
  "Usage : ".toList ++ basename ++ (" [OPTION...]\n" ++
    "\t-b, --boot          Execute boot startup configuration\n" ++
    "\t-e, --eval          Execute argument as command\n" ++
    "\t-c, --config        Load the config file,default[/etc/trace.conf]\n" ++
    "\t-v, --version       Show the version\n" ++
    "\t-h, --help          Display this help and exit\n").toList

/-- What is printed, and the status with which the program exits, at an option for which
    it does. -/
def Invocation.exits (inv : Invocation) : MainOpt → Option (CString × ℤ)
  | .help => some (usageText inv.basename, 0)
  | .version =>
    some ("Ver:".toList ++ inv.date ++ " ".toList ++ inv.time ++ "\n".toList, 0)
  | .other => some (usageText inv.basename, 1)
  | _ => none

/-- What an option that does not exit sets. -/
def MainFlags.set (flags : MainFlags) : MainOpt → MainFlags
  | .boot => { flags with bootFlag := true }
  | .eval line => { flags with evalLine := some line }
  | .config file => { flags with configFile := file }
  | _ => flags

/-- The loop over the options, up to the first one at which the program exits. -/
def Invocation.scan (inv : Invocation) : List MainOpt → MainFlags →
    Except (CString × ℤ) MainFlags
  | [], flags => .ok flags
  | opt :: opts, flags =>
    match inv.exits opt with
    | some exit => .error exit
    | none => inv.scan opts (flags.set opt)

namespace Shell

variable (sh : Shell F W)

/-- Loading a file, with a `vty` of its own. -/
def vtyshLoadConfig (file : Option CString) : Command F W ℤ := do
  setConfigNode
  sh.vtyshConfigFromFile file

/-- The same, with a `vty` of another type. -/
def vtyshBootConfig (file : Option CString) : Command F W ℤ := do
  setConfigNode
  sh.vtyshConfigFromFile file

/-- Main command loop. -/
def mainLoop (lines : List CString) : Command F W Unit :=
  forEach (fun line => do let _ ← sh.vtyshExecute line) lines

/-- VTY shell main routine, after the options: the status with which it exits. -/
def mainFlags (flags : MainFlags) (files : CString → Option CString) (lines : List CString) :
    Command F W ℤ :=
  match flags.evalLine with
  | some evalLine => do
    let _ ← sh.vtyshExecute "enable".toList
    let _ ← sh.vtyshExecute "config terminal".toList
    sh.vtyshExecute evalLine
  | none =>
    if flags.bootFlag then sh.vtyshBootConfig (files flags.configFile)
    else do
      let _ ← sh.vtyshLoadConfig (files flags.configFile)
      sh.mainLoop lines
      print "\n"
      return 0

/-- VTY shell main routine, given the files that there are, and the lines typed. -/
def main (inv : Invocation) (files : CString → Option CString) (lines : List CString) :
    Command F W ℤ :=
  match inv.scan inv.opts ⟨false, none, defaultConfigFile⟩ with
  | .error (text, status) => do
    emit (.print text)
    return status
  | .ok flags => sh.mainFlags flags files lines

variable {sh} {s : State W} {exec : List (CmdElement F) → List CString → Outcome F}
  {ref : VtyRef} {line buf : CString} {vline : List CString} {ret : ℤ}

/-! ## Files that are not executed -/

/-- Where dispatch returns an error, no handler is called. -/
theorem cmdExecute_of_returns (h : sh.dispatch exec ref vline s = some (.returns ret)) :
    sh.cmdExecute exec ref vline s = ([], some ((ret, none), s)) := by
  change sh.perform ref (sh.dispatch exec ref vline s) s = _
  rw [h]
  rfl

/-- A line that is not known. -/
def unknownCommand : Event F := .print "% Unknown command.\n".toList

/-- What a line does that matches nothing. -/
def Unknown (sh : Shell F W) (line : CString) (s : State W) : Prop :=
  sh.vtyshExecute line s = ([unknownCommand], some (cmdErrNoMatch, s))

/-- A line that dispatch does not know is unknown. -/
theorem unknown_of_returns (hauth : s.shell.node ≠ .authEnable)
    (hline : cmdMakeStrvec line = some vline)
    (h : sh.dispatch cmdExecuteCommand .shell vline s = some (.returns cmdErrNoMatch)) :
    sh.Unknown line s := by
  have hexec : sh.vtyshExecute line s = sh.vtyshExecuteFunc line s := by
    rw [vtyshExecute, get_bind, if_neg hauth]
  rw [Unknown, hexec, vtyshExecuteFunc, hline]
  exact bind_of_some (congrArg Prod.snd (cmdExecute_of_returns h)) |>.trans
    (by rw [Process.log, cmdExecute_of_returns h]; rfl)

/-- Without elements, no round comes to anything. -/
theorem run_cmdRounds_nil (cls : CString → CString → MatchType) (i : ℕ) (vline : List CString) :
    Elimination.run (cmdRounds (F := F) cls i vline) [] = .go [] := by
  induction vline generalizing i with
  | nil => rfl
  | cons w vline ih =>
    have hplay : (cmdRound (F := F) cls w i).play [] = .go [] := by
      refine Elimination.Round.play_go_iff.2 ⟨?_, ?_, rfl⟩
      · rw [halts_iff]
        exact nofun
      · rw [fail_eq_none_iff, roundConflict]
        simp [topClass, matching, liveHits, conflict, isPartial, remembers]
    rw [cmdRounds, Elimination.run, hplay]
    exact ih (i + 1)

/-- In a node without commands, no line is known. -/
theorem cmdExecuteCommandStrict_nil (vline : List CString) :
    cmdExecuteCommandStrict ([] : List (CmdElement F)) vline = .returns cmdErrNoMatch := by
  have hfind : cmdFindElement (filterBy stringClass) ([] : List (CmdElement F)) vline =
      .error cmdErrNoMatch := by
    rw [cmdFindElement_eq, run_cmdRounds_nil]
    rfl
  have hexec : cmdExecuteWith (filterBy stringClass) ([] : List (CmdElement F)) vline =
      .returns cmdErrNoMatch := by rw [cmdExecuteWith, hfind]
  exact hexec

/-- The lines of a file are executed in an empty node, and tried again by lines that are
    not known. -/
structure Inert (sh : Shell F W) (s : State W) : Prop where
  config : sh.cmdvec .config = some []
  file : s.file.node = .config
  unknown_end : sh.Unknown "end".toList s
  unknown_configure : sh.Unknown "configure terminal".toList s

/-- What is printed for a line of a file. -/
def loadLine (buf : CString) : List (Event F) :=
  match cmdMakeStrvec buf with
  | none => []
  | some _ => [unknownCommand, unknownCommand, .print ("% Unknown command: ".toList ++ buf)]

/-- What is printed for a file. -/
def loadFile (file : Option CString) : List (Event F) :=
  match file with
  | none => []
  | some file => (configLines file).flatMap loadLine

/-- The terminal of the file is at the config node already. -/
theorem Inert.setConfigNode (h : sh.Inert s) :
    (setConfigNode : Command F W Unit) s = ([], some (⟨⟩, s)) := by
  have hsame : { s with file.node := .config } = s := by rw [← h.file]
  exact congrArg (fun s' => (([] : List (Event F)), some (PUnit.unit, s'))) hsame

/-- No line of the file is known. -/
theorem Inert.cmdExecute (h : sh.Inert s) (vline : List CString) :
    sh.cmdExecute cmdExecuteCommandStrict .file vline s =
      ([], some ((cmdErrNoMatch, none), s)) := by
  refine cmdExecute_of_returns ?_
  rw [dispatch, State.vty, h.file, h.config, Option.map_some, cmdExecuteCommandStrict_nil]

/-- A process that runs after one that leaves the state as it is. -/
theorem bind_of_eq {α β : Type} {p : Command F W α} {q : α → Command F W β} {a : α}
    {es : List (Event F)} (h : p s = (es, some (a, s))) :
    (p >>= q) s = (es ++ (q a s).1, (q a s).2) := by
  have hr : p.result s = some (a, s) := congrArg Prod.snd h
  have hl : p.log s = es := congrArg Prod.fst h
  rw [bind_of_some hr, hl]
  rfl

/-- A line of the file is tried again, and then reported. -/
theorem Inert.executeConfig (h : sh.Inert s) (buf : CString) (vline : List CString) :
    sh.executeConfig buf vline s =
      ([unknownCommand, unknownCommand, .print ("% Unknown command: ".toList ++ buf)],
        some (⟨⟩, s)) := by
  have hretry : sh.retryConfig buf vline none s =
      ([unknownCommand, unknownCommand, .print ("% Unknown command: ".toList ++ buf)],
        some (⟨⟩, s)) := by
    rw [retryConfig, bind_of_eq h.unknown_end, bind_of_eq h.unknown_configure,
      bind_of_eq h.setConfigNode, bind_of_eq (h.cmdExecute vline)]
    rfl
  rw [Shell.executeConfig, bind_of_eq (h.cmdExecute vline)]
  exact hretry

/-- A line of the file only prints. -/
theorem Inert.vtyshConfigLine (h : sh.Inert s) (buf : CString) :
    sh.vtyshConfigLine buf s = (loadLine buf, some (⟨⟩, s)) := by
  have hrest : (match cmdMakeStrvec buf with
      | none => (pure () : Command F W Unit)
      | some vline => sh.executeConfig buf vline) s = (loadLine buf, some (⟨⟩, s)) := by
    rw [loadLine]
    cases cmdMakeStrvec buf with
    | none => rfl
    | some vline => exact h.executeConfig buf vline
  rw [Shell.vtyshConfigLine]
  split_ifs with hhash hbang
  · rw [loadLine, cmdMakeStrvec_of_mark hhash (.inr rfl)]
    rfl
  · rw [bind_of_eq h.setConfigNode]
    exact hrest
  · exact hrest

/-- A file is not executed, whatever is in it: it is only complained about. -/
theorem Inert.vtyshConfigFromFile (h : sh.Inert s) (file : Option CString) :
    sh.vtyshConfigFromFile file s =
      (loadFile file, some (if file = none then -1 else cmdSuccess, s)) := by
  rcases file with _ | file
  · rfl
  have hloop (pieces : List CString) : forEach sh.vtyshConfigLine pieces s =
      (pieces.flatMap loadLine, some (⟨⟩, s)) := by
    induction pieces with
    | nil => rfl
    | cons buf pieces ih =>
      rw [forEach, bind_of_eq (h.vtyshConfigLine buf), ih]
      rfl
  rw [Shell.vtyshConfigFromFile, bind_of_eq (hloop _)]
  exact congrArg (fun es => (es, some (cmdSuccess, s))) (List.append_nil _)

/-- Loading a file only prints. -/
theorem Inert.vtyshLoadConfig (h : sh.Inert s) (file : Option CString) :
    sh.vtyshLoadConfig file s =
      (loadFile file, some (if file = none then -1 else cmdSuccess, s)) := by
  rw [Shell.vtyshLoadConfig, bind_of_eq h.setConfigNode, h.vtyshConfigFromFile]
  rfl

end Shell

/-! ## The program of the tools -/

open Shell

variable {os : Os W} {cmdvec : NodeType → Option (List (CmdElement ToolFunc))}
  {crypt : CString → CString → Option CString} {s : State (Session W)}

/-- A line that the enable node does not know, sorted. -/
theorem Idle.unknown (hsorted : Sorted cmdvec) (h : Idle s) {line : CString}
    (vline : List CString) (hline : cmdMakeStrvec line = some vline)
    (hret : cmdExecuteCommand enableNode vline = .returns cmdErrNoMatch) :
    (cliShell os cmdvec crypt).Unknown line s := by
  refine unknown_of_returns (by rw [h.node]; decide) hline ?_
  have hrel := hsorted .enable
  rw [dispatch, State.vty, h.node]
  change ((cmdvec .enable).map fun table => cmdExecuteCommand table vline) = _
  generalize cmdvec .enable = o at hrel
  cases hrel with
  | @some _ table hsort =>
    have hsame : (cmdExecuteCommand enableNode vline).Rel (cmdExecuteCommand table vline) :=
      cmdExecuteWith_reordered hsort.reordered vline
    rw [hret] at hsame
    generalize ho : cmdExecuteCommand table vline = o at hsame
    cases hsame
    rw [Option.map_some, ho]

/-- Out of all versions, files have no effect. -/
theorem Idle.inert (hsorted : Sorted cmdvec) (h : Idle s) :
    (cliShell os cmdvec crypt).Inert s where
  config := hsorted.config
  file := h.file
  unknown_end := h.unknown hsorted ["end".toList] (by decide) (by decide +kernel)
  unknown_configure := h.unknown hsorted ["configure".toList, "terminal".toList]
    (by decide) (by decide +kernel)

namespace Shell

/-- What is printed before the first line. -/
def startup (flags : MainFlags) (files : CString → Option CString) : List (Event F) :=
  match flags.evalLine with
  | some _ => [unknownCommand, unknownCommand]
  | none => loadFile (files flags.configFile)

/-- The line of an option, or the lines typed. -/
def body (sh : Shell F W) (flags : MainFlags) (files : CString → Option CString)
    (lines : List CString) : Command F W ℤ :=
  match flags.evalLine with
  | some evalLine => sh.vtyshExecute evalLine
  | none =>
    if flags.bootFlag then pure (if files flags.configFile = none then -1 else cmdSuccess)
    else do
      sh.mainLoop lines
      print "\n"
      return 0

/-- At startup, no handler is called. -/
theorem notMem_startup (flags : MainFlags) (files : CString → Option CString)
    (e : CmdElement F) (ref : VtyRef) (argv : List CString) :
    Event.invoke e ref argv ∉ startup flags files := by
  have hload (buf : CString) : Event.invoke e ref argv ∉ loadLine (F := F) buf := by
    rw [loadLine]
    cases cmdMakeStrvec buf with
    | none => exact List.not_mem_nil
    | some vline => simp [unknownCommand]
  rw [startup]
  rcases flags.evalLine with _ | line
  · rcases files flags.configFile with _ | file
    · exact List.not_mem_nil
    · intro hmem
      obtain ⟨buf, -, hbuf⟩ := List.mem_flatMap.1 hmem
      exact hload buf hbuf
  · simp [unknownCommand]

/-- The lines are typed in states that are reached. -/
theorem Reaches.of_mem_entries {sh : Shell F W} {s₀ s : State W} {lines : List CString}
    (h : sh.Reaches (fun _ _ => True) s₀ s) {p : CString × State W}
    (hp : p ∈ entries (fun line => do let _ ← sh.vtyshExecute line) lines s) :
    sh.Reaches (fun _ _ => True) s₀ p.2 :=
  Process.of_mem_entries (fun _ _ _ hs => ensures_bind.2 fun _ _ hr =>
    ensures_pure.2 (hs.line trivial hr)) h hp

end Shell

/-- Unless it exits at an option, the program is that of the line of an option, or of the
    lines typed, from the state at the start: no configuration file makes it call a
    handler, or changes the state. The states in which lines are typed are reached. -/
theorem main_eq (hsorted : Sorted cmdvec) (inv : Invocation) (files : CString → Option CString)
    (lines : List CString) (dirs : List (CString × List CString)) (t : Sys W)
    {flags : MainFlags}
    (hflags : inv.scan inv.opts ⟨false, none, defaultConfigFile⟩ = .ok flags) :
    (cliShell os cmdvec crypt).main inv files lines (bootState dirs t) =
        (startup flags files ++
            ((cliShell os cmdvec crypt).body flags files lines).log (bootState dirs t),
          ((cliShell os cmdvec crypt).body flags files lines).result (bootState dirs t)) ∧
      (∀ e ref argv, Event.invoke e ref argv ∉ startup (F := ToolFunc) flags files) ∧
      ∀ p ∈ entries (fun line => do let _ ← (cliShell os cmdvec crypt).vtyshExecute line) lines
        (bootState dirs t),
        (cliShell os cmdvec crypt).Reaches (fun _ _ => True) (bootState dirs t) p.2 := by
  refine ⟨?_, notMem_startup flags files, fun p hp => Reaches.of_mem_entries .start hp⟩
  have hidle := idle_bootState dirs t
  -- The configuration file is loaded at a node where all of its lines are unknown.
  have hinert : (cliShell os cmdvec crypt).Inert (bootState dirs t) := hidle.inert hsorted
  rw [main, hflags]
  dsimp only
  rw [mainFlags, startup, body]
  rcases flags.evalLine with _ | line
  · dsimp only
    by_cases hboot : flags.bootFlag = true
    · rw [if_pos hboot, if_pos hboot, log_pure, List.append_nil]
      exact hinert.vtyshLoadConfig _
    · rw [if_neg hboot, if_neg hboot, bind_of_eq (hinert.vtyshLoadConfig _)]
      rfl
  · -- Nor does the enable node know the two lines that are executed before the one of the option.
    have henable : (cliShell os cmdvec crypt).Unknown "enable".toList (bootState dirs t) :=
      hidle.unknown hsorted ["enable".toList] (by decide) (by decide +kernel)
    have hconfig : (cliShell os cmdvec crypt).Unknown "config terminal".toList
        (bootState dirs t) :=
      hidle.unknown hsorted ["config".toList, "terminal".toList] (by decide)
        (by decide +kernel)
    dsimp only
    rw [bind_of_eq henable, bind_of_eq hconfig]
    rfl

/-- A file is complained about, and then a line is typed. -/
theorem main_eq_typed : ∃ flags : MainFlags, flags.evalLine = none ∧
    startup (F := ToolFunc) flags (fun _ => some "version trunk soho\n".toList) =
      [unknownCommand, unknownCommand,
        .print ("% Unknown command: ".toList ++ "version trunk soho\n".toList)] ∧
    permissiveShell.main ⟨"mksh".toList, [.config "my.conf".toList], [], []⟩
        (fun _ => some "version trunk soho\n".toList) ["show version".toList] permissiveBoot =
      (startup flags (fun _ => some "version trunk soho\n".toList) ++
          (permissiveShell.body flags (fun _ => some "version trunk soho\n".toList)
            ["show version".toList]).log permissiveBoot,
        (permissiveShell.body flags (fun _ => some "version trunk soho\n".toList)
          ["show version".toList]).result permissiveBoot) :=
  ⟨⟨false, none, "my.conf".toList⟩, rfl, by decide +kernel,
    (@main_eq _ .permissive _ (fun _ _ => none) sorted_sortedNode _ _ _ _ _ _ rfl).1⟩

end Mksh
