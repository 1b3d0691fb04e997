import Mksh.Command.Execute

/-!
# Completion and description

What `Tab` and `?` show: `cmdCompleteCommand` and `cmdDescribeCommand`, for the
words `ws` that precede the current one, and the current one, `command`, which
is `NULL` on a new word. Both filter a copy of the vector of the node by `ws`,
each with a loop of its own, and collect, from the elements left, the
alternatives of the item at the current word, without repetition.
-/

namespace Mksh

open CString

variable {F : Type*}

/-- If `src` matches `dst`, `dst`, and else `NULL`. -/
def cmdEntryFunction (src : Option CString) (dst : CString) : Option CString :=
  -- Skip variable arguments.
  if cmdOption dst || cmdVariable dst || cmdVararg dst || cmdIpv4 dst || cmdIpv4Prefix dst ||
      cmdRange dst then none
  else match src with
    | none => some dst
    | some src => if strncmp src dst src.length = 0 then some dst else none

/-- If `src` matches `dst`, `dst`, and else `NULL`. This version will return `dst`
    also when it is a variable, for `?` key processing. -/
def cmdEntryFunctionDesc (src : Option CString) (dst : CString) : Option CString :=
  if cmdVararg dst then some dst
  else if cmdRange dst then if cmdRangeMatch dst src then some dst else none
  else if cmdIpv6 dst then if cmdIpv6Match src ≠ .noMatch then some dst else none
  else if cmdIpv6Prefix dst then if cmdIpv6PrefixMatch src ≠ .noMatch then some dst else none
  else if cmdIpv4 dst then if cmdIpv4Match src ≠ .noMatch then some dst else none
  else if cmdIpv4Prefix dst then if cmdIpv4PrefixMatch src ≠ .noMatch then some dst else none
  -- Optional or variable commands always match on '?'.
  else if cmdOption dst || cmdVariable dst then some dst
  else match src with
    | none => some dst
    | some src => if strncmp src dst src.length = 0 then some dst else none

/-- Check same string element existence: `true` if it is not there. -/
def cmdUniqueString (v : List CString) (str : CString) : Bool := v.all fun m => strcmp m str ≠ 0

/-- Compare string to description vector: `true` if it is there. -/
def descUniqueString (v : List Desc) (str : CString) : Bool :=
  v.any fun desc => strcmp desc.cmd str = 0

/-! ## Completion -/

/-- Filter by the preceding words. A word on which the ambiguity check returns
    `2` does not stop the loop, nor does a vararg. -/
def cmdCompleteLoop : List CString → ℕ → CmdVector F → Except ℤ (CmdVector F)
  | [], _, v => .ok v
  | command :: ws, index, v =>
    let (matchType, v) := cmdFilterByCompletion command v index
    let (ret, v) := isCmdAmbiguous command v index matchType
    if ret = 1 then .error cmdErrAmbiguous else cmdCompleteLoop ws (index + 1) v

/-- The loop over the alternatives of an item. -/
def completeDescvec (command : Option CString) : List Desc → List CString → List CString
  | [], matchvec => matchvec
  | desc :: descvec, matchvec =>
    match cmdEntryFunction command desc.cmd with
    | none => completeDescvec command descvec matchvec
    | some string =>
      completeDescvec command descvec
        (if cmdUniqueString matchvec string then matchvec ++ [string] else matchvec)

/-- The loop over the vector. -/
def completeVector (command : Option CString) (index : ℕ) :
    CmdVector F → List CString → List CString
  | [], matchvec => matchvec
  | none :: v, matchvec => completeVector command index v matchvec
  | some cmdElement :: v, matchvec =>
    match cmdElement.strvec[index]? with
    | none => completeVector command index v matchvec
    | some descvec => completeVector command index v (completeDescvec command descvec matchvec)

/-- The candidates collected, before they are reduced to a common prefix. -/
def completeCandidates (table : List (CmdElement F)) (ws : List CString)
    (command : Option CString) : Except ℤ (List CString) :=
  match cmdCompleteLoop ws 0 (vectorCopy table) with
  | .error ret => .error ret
  | .ok v => .ok (completeVector command ws.length v [])

/-- The length of the common prefix of two strings. -/
def commonLength : CString → CString → ℕ
  | c₁ :: s₁, c₂ :: s₂ => if c₁ = c₂ then commonLength s₁ s₂ + 1 else 0
  | _, _ => 0

/-- The loop of `cmdLcd`, after the string `s₁`. -/
def cmdLcdLoop : CString → List CString → ℤ → ℤ
  | _, [], lcd => lcd
  | s₁, s₂ :: matched, lcd =>
    let j : ℤ := commonLength s₁ s₂
    cmdLcdLoop s₂ matched (if lcd < 0 then j else if lcd > j then j else lcd)

/-- Check LCD of matched command. -/
def cmdLcd : List CString → ℤ
  | [] => 0
  | [_] => 0
  | s₁ :: matched => cmdLcdLoop s₁ matched (-1)

/-- Command line completion support: the status, and the matches. -/
def cmdCompleteCommand (table : List (CmdElement F)) (ws : List CString)
    (command : Option CString) : ℤ × Option (List CString) :=
  match completeCandidates table ws command with
  | .error ret => (ret, none)
  | .ok [] => (if command = none then cmdErrNothingTodo else cmdErrNoMatch, none)
  | .ok [s] => (cmdCompleteFullMatch, some [s])
  | .ok (s :: matchvec) =>
    match command with
    -- Without a command, there is no common prefix to be made.
    | none => (cmdCompleteListMatch, some (s :: matchvec))
    | some command =>
      let lcd := cmdLcd (s :: matchvec)
      -- The prefix is longer than what is typed, so that it is completed.
      if lcd ≠ 0 ∧ (command.length : ℤ) < lcd then
        (cmdCompleteMatch, some [s.take lcd.toNat])
      else (cmdCompleteListMatch, some (s :: matchvec))

/-! ## Description -/

/-- What a description ends with. -/
inductive Description
  /-- `NULL`, with a status. -/
  | null (status : ℤ)
  /-- After a vararg: a vector, and the status as it was. -/
  | vararg (matchvec : List Desc)
  /-- `CMD_ERR_NO_MATCH`, and a vector that has been freed. -/
  | freed
  /-- `CMD_SUCCESS`, and a vector. -/
  | success (matchvec : List Desc)
  /-- Reading an item past the last one of an element. -/
  | fault
  deriving DecidableEq

/-- The entry `<cr>`, for a line that may end here. -/
def descCr : Desc := ⟨"<cr>".toList, some []⟩

/-- How the loop over the preceding words ends: it returns an error, or breaks
    at a vararg, or goes through. -/
inductive DescribeEnd (F : Type*)
  | error (status : ℤ)
  | vararg (v : CmdVector F)
  | words (v : CmdVector F)

/-- Only words preceding the current word are checked in this loop. -/
def cmdDescribeLoop : List CString → ℕ → CmdVector F → DescribeEnd F
  | [], _, v => .words v
  | command :: ws, index, v =>
    let (matchType, v) := cmdFilterByCompletion command v index
    if matchType = .varargMatch then .vararg v
    else
      let (ret, v) := isCmdAmbiguous command v index matchType
      if ret = 1 then .error cmdErrAmbiguous
      else if ret = 2 then .error cmdErrNoMatch
      else cmdDescribeLoop ws (index + 1) v

/-- At a vararg, all the alternatives of the last items. `none` if there is an
    element without items. -/
def describeVararg : CmdVector F → List Desc → Option (List Desc)
  | [], matchvec => some (matchvec ++ [descCr])
  | none :: v, matchvec => describeVararg v matchvec
  | some cmdElement :: v, matchvec =>
    match cmdElement.strvec.getLast? with
    | none => none
    | some descvec => describeVararg v (matchvec ++ descvec)

/-- The loop over the alternatives of an item. -/
def describeDescvec (command : Option CString) : List Desc → List Desc → List Desc
  | [], matchvec => matchvec
  | desc :: descvec, matchvec =>
    match cmdEntryFunctionDesc command desc.cmd with
    | none => describeDescvec command descvec matchvec
    | some string =>
      describeDescvec command descvec
        (if descUniqueString matchvec string then matchvec else matchvec ++ [desc])

/-- The loop over the vector. `none` if it reads past the items of an element. -/
def describeVector (command : Option CString) (index : ℕ) :
    CmdVector F → List Desc → Option (List Desc)
  | [], matchvec => some matchvec
  | none :: v, matchvec => describeVector command index v matchvec
  | some cmdElement :: v, matchvec =>
    -- If command is NULL, index may be equal to vector_max.
    if command ≠ none ∧ index ≥ cmdElement.strvec.length then
      describeVector command index v matchvec
    else if command = none ∧ index = cmdElement.strvec.length then
      describeVector command index v
        (if descUniqueString matchvec descCr.cmd then matchvec else matchvec ++ [descCr])
    else
      match cmdElement.strvec[index]? with
      | none => none
      | some descvec => describeVector command index v (describeDescvec command descvec matchvec)

/-- The vector filtered by the current word, if there is one. -/
def filterCurrent (command : Option CString) (v : CmdVector F) (index : ℕ) : CmdVector F :=
  match command with
  | none => v
  | some command => (cmdFilterByCompletion command v index).2

/-- `?` describe command support. -/
def cmdDescribeCommand (table : List (CmdElement F)) (ws : List CString)
    (command : Option CString) : Description :=
  match cmdDescribeLoop ws 0 (vectorCopy table) with
  | .error status => .null status
  | .vararg v =>
    match describeVararg v [] with
    | none => .fault
    | some matchvec => .vararg matchvec
  | .words v =>
    match describeVector command ws.length (filterCurrent command v ws.length) [] with
    | none => .fault
    -- The status says that nothing matches, but the vector is returned.
    | some [] => .freed
    | some matchvec => .success matchvec

end Mksh
