import Mksh.Command.Filter

/-!
# Executors

An executor matches the words of a line against the vector of a node, word by
word, until the end of the line or the first word whose top class is
`varargMatch` (`cmdMatchLoop`). Exactly one of the elements left must be
complete (`cmdFindElement`). Its arguments are then collected from the line
(`cmdArgLoop`), and its handler is called.

There are two executors, which only differ in the filter they use:
`cmdExecuteCommand` for a line typed by the user, and `cmdExecuteCommandStrict`
for a line of a configuration file. What they do short of the effect of the
handler is an `Outcome`. Accesses outside of an array are modelled by a
`Fault`.
-/

namespace Mksh

open CString

variable {F : Type*}

/-! ## Matching the words -/

/-- The signature of the filters. -/
abbrev Filter (F : Type*) := CString → CmdVector F → ℕ → MatchType × CmdVector F

/-- The loop over the words from `index` on: it returns an error, or ends with
    the index, the last match type and the vector. -/
def cmdMatchLoop (filter : Filter F) :
    List CString → ℕ → MatchType → CmdVector F → Except ℤ (ℕ × MatchType × CmdVector F)
  | [], index, matchType, v => .ok (index, matchType, v)
  | command :: vline, index, _, v =>
    let (matchType, v) := filter command v index
    -- If command meets '.VARARG' then finish matching.
    if matchType = .varargMatch then .ok (index, matchType, v)
    else
      let (ret, v) := isCmdAmbiguous command v index matchType
      if ret = 1 then .error cmdErrAmbiguous
      else if ret = 2 then .error cmdErrNoMatch
      else cmdMatchLoop filter vline (index + 1) matchType v

/-- The result of counting the elements left. -/
structure Counts (F : Type*) where
  matchedElement : Option (CmdElement F) := none
  matchedCount : ℕ := 0
  incompleteCount : ℕ := 0

/-- The loop counting the complete and the incomplete elements left. -/
def countMatched (matchType : MatchType) (index : ℕ) : CmdVector F → Counts F → Counts F
  | [], c => c
  | none :: v, c => countMatched matchType index v c
  | some cmdElement :: v, c =>
    if matchType = .varargMatch ∨ index ≥ cmdElement.cmdsize then
      countMatched matchType index v
        { c with matchedElement := some cmdElement, matchedCount := c.matchedCount + 1 }
    else countMatched matchType index v { c with incompleteCount := c.incompleteCount + 1 }

/-- To execute command, the matched count must be 1. -/
def checkMatched (c : Counts F) : Except ℤ (CmdElement F) :=
  if c.matchedCount = 0 then
    if c.incompleteCount ≠ 0 then .error cmdErrIncomplete else .error cmdErrNoMatch
  else if c.matchedCount > 1 then .error cmdErrAmbiguous
  else match c.matchedElement with
    | none => .error cmdErrNoMatch -- not reached, the count being 1
    | some matchedElement => .ok matchedElement

/-- The element a line selects, if it does. -/
def cmdFindElement (filter : Filter F) (table : List (CmdElement F)) (vline : List CString) :
    Except ℤ (CmdElement F) :=
  match cmdMatchLoop filter vline 0 .noMatch (vectorCopy table) with
  | .error ret => .error ret
  | .ok (index, matchType, v) => checkMatched (countMatched matchType index v {})

/-! ## Argument treatment -/

/-- An access outside of an array. -/
inductive Fault
  /-- Writing `argv` past its end. -/
  | argv
  /-- Reading an item past the last one of the element. -/
  | strvec
  deriving DecidableEq

/-- What the argument treatment ends with. -/
inductive ArgResult
  | ok (argv : List CString)
  | error (ret : ℤ)
  | fault (f : Fault)
  deriving DecidableEq

/-- For the word `i`: whether it is an argument, and the `varflag` from there
    on. `none` if the element has no item `i`. -/
def argItem (strvec : List (List Desc)) (i : ℕ) (varflag : Bool) : Option (Bool × Bool) :=
  if varflag then some (true, true)
  else match strvec[i]? with
    | none => none
    | some [desc] =>
      let varflag := cmdVararg desc.cmd
      some (varflag || cmdVariable desc.cmd || cmdOption desc.cmd, varflag)
    | some _ => some (true, false)

/-- The loop over the words from `i` on, collecting the arguments in `argv`. -/
def cmdArgLoop (strvec : List (List Desc)) :
    List CString → ℕ → Bool → List CString → ArgResult
  | [], _, _, argv => .ok argv
  | word :: vline, i, varflag, argv =>
    match argItem strvec i varflag with
    | none => .fault .strvec
    | some (isArg, varflag) =>
      if isArg ∧ argv.length ≥ cmdArgcMax then .fault .argv
      else
        let argv := if isArg then argv ++ [word] else argv
        if argv.length ≥ cmdArgcMax then .error cmdErrExeedArgcMax
        else cmdArgLoop strvec vline (i + 1) varflag argv

/-! ## Executing -/

/-- What an executor does, short of the effect of the handler. -/
inductive Outcome (F : Type*)
  /-- Returning an error code. -/
  | returns (ret : ℤ)
  /-- Returning `CMD_SUCCESS_DAEMON`, the element being left to the caller. -/
  | daemon (e : CmdElement F) (argv : List CString)
  /-- Calling the handler of the element, and returning what it returns. -/
  | call (e : CmdElement F) (argv : List CString)
  | fault (f : Fault)
  deriving DecidableEq

/-- What happens once the element is found. -/
def cmdCallElement (e : CmdElement F) (vline : List CString) : Outcome F :=
  match cmdArgLoop e.strvec vline 0 false [] with
  | .error ret => .returns ret
  | .fault f => .fault f
  | .ok argv => if e.daemon ≠ 0 then .daemon e argv else .call e argv

/-- Both executors: the element that is found with the filter is called. -/
def cmdExecuteWith (filter : Filter F) (table : List (CmdElement F)) (vline : List CString) :
    Outcome F :=
  match cmdFindElement filter table vline with
  | .error ret => .returns ret
  | .ok matchedElement => cmdCallElement matchedElement vline

/-- Execute command by argument vline vector. -/
def cmdExecuteCommand (table : List (CmdElement F)) (vline : List CString) : Outcome F :=
  cmdExecuteWith cmdFilterByCompletion table vline

/-- Execute command by argument readline. -/
def cmdExecuteCommandStrict (table : List (CmdElement F)) (vline : List CString) : Outcome F :=
  cmdExecuteWith cmdFilterByString table vline

/-- The element selected, and its arguments: its handler is called, or it is
    left to the caller. -/
def Outcome.Selects (o : Outcome F) (e : CmdElement F) (argv : List CString) : Prop :=
  o = .call e argv ∨ o = .daemon e argv

instance [DecidableEq F] (o : Outcome F) (e : CmdElement F) (argv : List CString) :
    Decidable (o.Selects e argv) :=
  inferInstanceAs (Decidable (o = .call e argv ∨ o = .daemon e argv))

/-- Calling an element selects it, with the `argv` that the loop builds. -/
theorem cmdCallElement_selects {e e' : CmdElement F} {vline argv : List CString} :
    (cmdCallElement e vline).Selects e' argv ↔
      e = e' ∧ cmdArgLoop e.strvec vline 0 false [] = .ok argv := by
  rw [cmdCallElement]
  cases cmdArgLoop e.strvec vline 0 false [] with
  | error ret => simp [Outcome.Selects]
  | fault f => simp [Outcome.Selects]
  | ok argv' => by_cases hd : e.daemon = 0 <;> simp [Outcome.Selects, hd]

/-- An executor selects what it finds, with the `argv` that the loop builds. -/
theorem cmdExecuteWith_selects {filter : Filter F} {table : List (CmdElement F)}
    {vline : List CString} {e : CmdElement F} {argv : List CString} :
    (cmdExecuteWith filter table vline).Selects e argv ↔
      cmdFindElement filter table vline = .ok e ∧
        cmdArgLoop e.strvec vline 0 false [] = .ok argv := by
  rw [cmdExecuteWith]
  cases cmdFindElement filter table vline with
  | error ret => simp [Outcome.Selects]
  | ok e' =>
    rw [cmdCallElement_selects, Except.ok.injEq]
    exact and_congr_right fun h => by rw [h]

/-- An executor faults only where the arguments of the element found do not fit. -/
theorem cmdExecuteWith_fault_iff {filter : Filter F} {table : List (CmdElement F)}
    {vline : List CString} {f : Fault} :
    cmdExecuteWith filter table vline = .fault f ↔
      ∃ e, cmdFindElement filter table vline = .ok e ∧
        cmdArgLoop e.strvec vline 0 false [] = .fault f := by
  rw [cmdExecuteWith]
  rcases cmdFindElement filter table vline with ret | e
  · simp
  · dsimp only
    rw [cmdCallElement]
    rcases hloop : cmdArgLoop e.strvec vline 0 false [] with argv | ret | f'
    · by_cases hd : e.daemon = 0 <;> simp [hd, hloop]
    · simp [hloop]
    · simp [hloop]

/-! ## Error codes -/

/-- The error codes of the executors. -/
def IsError (ret : ℤ) : Prop :=
  ret = cmdErrAmbiguous ∨ ret = cmdErrNoMatch ∨ ret = cmdErrIncomplete ∨ ret = cmdErrExeedArgcMax

/-- An error is no status of a handler that ran. -/
theorem IsError.ne {ret : ℤ} (h : IsError ret) :
    ret ≠ cmdSuccess ∧ ret ≠ cmdSuccessDaemon ∧ ret ≠ cmdWarning := by
  rcases h with rfl | rfl | rfl | rfl <;> decide

/-- The matching loop leaves with an error code only. -/
theorem isError_of_cmdMatchLoop {filter : Filter F} {vline : List CString} {index : ℕ}
    {type : MatchType} {v : CmdVector F} {ret : ℤ}
    (h : cmdMatchLoop filter vline index type v = .error ret) : IsError ret := by
  induction vline generalizing index type v with
  | nil => cases h
  | cons w vline ih =>
    simp only [cmdMatchLoop] at h
    split_ifs at h
    · exact .inl (Except.error.inj h).symm
    · exact .inr (.inl (Except.error.inj h).symm)
    · exact ih h

/-- So does the selection. -/
theorem isError_of_checkMatched {c : Counts F} {ret : ℤ} (h : checkMatched c = .error ret) :
    IsError ret := by
  rw [checkMatched] at h
  split_ifs at h
  · exact .inr (.inr (.inl (Except.error.inj h).symm))
  · exact .inr (.inl (Except.error.inj h).symm)
  · exact .inl (Except.error.inj h).symm
  · split at h
    · exact .inr (.inl (Except.error.inj h).symm)
    · cases h

/-- The loop over the arguments has one error. -/
theorem eq_of_cmdArgLoop {strvec : List (List Desc)} {vline argv : List CString} {i : ℕ}
    {varflag : Bool} {ret : ℤ} (h : cmdArgLoop strvec vline i varflag argv = .error ret) :
    ret = cmdErrExeedArgcMax := by
  induction vline generalizing i varflag argv with
  | nil => cases h
  | cons w vline ih =>
    rw [cmdArgLoop] at h
    split at h
    · cases h
    · dsimp only at h
      split_ifs at h
      all_goals first
        | exact (ArgResult.error.inj h).symm
        | exact ih h

/-- What an executor returns by itself is an error. -/
theorem isError_of_returns {filter : Filter F} {table : List (CmdElement F)}
    {vline : List CString} {ret : ℤ} (h : cmdExecuteWith filter table vline = .returns ret) :
    IsError ret := by
  rw [cmdExecuteWith] at h
  split at h
  next ret' hf =>
    obtain rfl := Outcome.returns.inj h
    rw [cmdFindElement] at hf
    split at hf
    next hl =>
      obtain rfl := Except.error.inj hf
      exact isError_of_cmdMatchLoop hl
    · exact isError_of_checkMatched hf
  next e _ =>
    rw [cmdCallElement] at h
    split at h
    next hl =>
      exact .inr (.inr (.inr (eq_of_cmdArgLoop (hl.trans (congrArg _ (Outcome.returns.inj h))))))
    · cases h
    · split_ifs at h

end Mksh
