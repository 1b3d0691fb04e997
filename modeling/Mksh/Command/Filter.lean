import Mathlib.Data.List.ReduceOption
import Mksh.Command.Match

/-!
# Filters

A line is dispatched on a copy of the vector of a node, in which the elements
that do not match are set to `NULL`, word by word. For each word, the vector is
filtered, either by completion or, strictly, by string, which also gives the
highest class a live alternative receives from the word; then it is checked for
ambiguity, and cut down to the elements matching with that class.

The filters differ only in the class an alternative receives from a word
(`completionClass`, `stringClass`), and share their loops (`filterVector`).
-/

namespace Mksh

open CString

variable {F : Type*}

/-- A working copy of the vector of a node: the slots, `NULL`ed or not. -/
abbrev CmdVector (F : Type*) := List (Option (CmdElement F))

/-- The copy of the vector of the node that the filters work on: all of its slots are used. -/
def vectorCopy (cmdVector : List (CmdElement F)) : CmdVector F := cmdVector.map some

/-! ## The filters -/

/-- The class the alternative `str` receives from `command`, by completion. -/
def completionClass (command str : CString) : MatchType :=
  if cmdVararg str then .varargMatch
  else if cmdRange str then
    if cmdRangeMatch str (some command) then .rangeMatch else .noMatch
  else if cmdIpv6 str then
    if cmdIpv6Match (some command) ≠ .noMatch then .ipv6Match else .noMatch
  else if cmdIpv6Prefix str then
    if cmdIpv6PrefixMatch (some command) ≠ .noMatch then .ipv6PrefixMatch else .noMatch
  else if cmdIpv4 str then
    if cmdIpv4Match (some command) ≠ .noMatch then .ipv4Match else .noMatch
  else if cmdIpv4Prefix str then
    if cmdIpv4PrefixMatch (some command) ≠ .noMatch then .ipv4PrefixMatch else .noMatch
  else if cmdOption str || cmdVariable str then .extendMatch
  else if strncmp command str command.length = 0 then
    if strcmp command str = 0 then .exactMatch else .partlyMatch
  else .noMatch

/-- The class the alternative `str` receives from `command`, by string. -/
def stringClass (command str : CString) : MatchType :=
  if cmdVararg str then .varargMatch
  else if cmdRange str then
    if cmdRangeMatch str (some command) then .rangeMatch else .noMatch
  else if cmdIpv6 str then
    if cmdIpv6Match (some command) = .exactMatch then .ipv6Match else .noMatch
  else if cmdIpv6Prefix str then
    if cmdIpv6PrefixMatch (some command) = .exactMatch then .ipv6PrefixMatch else .noMatch
  else if cmdIpv4 str then
    if cmdIpv4Match (some command) = .exactMatch then .ipv4Match else .noMatch
  else if cmdIpv4Prefix str then
    if cmdIpv4PrefixMatch (some command) = .exactMatch then .ipv4PrefixMatch else .noMatch
  else if cmdOption str || cmdVariable str then .extendMatch
  else if strcmp command str = 0 then .exactMatch
  else .noMatch

/-- What is no vararg, no option and no variable is a keyword. -/
theorem isKeyword_of_not {str : CString} (hvararg : ¬cmdVararg str)
    (hnot : ¬(cmdOption str || cmdVariable str) = true) : IsKeyword str := by
  rw [Bool.or_eq_true, not_or, Bool.not_eq_true, Bool.not_eq_true] at hnot
  exact ⟨hnot.1, hnot.2, Bool.eq_false_iff.2 hvararg⟩

/-- The last case of the filters: an option, or a variable of no special kind. -/
theorem isPlainVariable_of_not {str : CString} (hr : ¬cmdRange str) (h6 : ¬cmdIpv6 str)
    (h6p : ¬cmdIpv6Prefix str) (h4 : ¬cmdIpv4 str) (h4p : ¬cmdIpv4Prefix str)
    (hx : cmdOption str || cmdVariable str) : cmdOption str ∨ IsPlainVariable str := by
  rw [Bool.or_eq_true] at hx
  exact hx.imp_right fun hv => ⟨hv, hr, fun ha => ha.elim h4 fun ha => ha.elim h4p fun ha =>
    ha.elim h6 h6p⟩

/-- What the class an alternative receives by completion says. -/
theorem completionClass_spec (command str : CString) :
    match completionClass command str with
    | .noMatch => True
    | .extendMatch => cmdOption str ∨ IsPlainVariable str
    | .ipv4PrefixMatch => cmdIpv4Prefix str ∧ cmdIpv4PrefixMatch (some command) ≠ .noMatch
    | .ipv4Match => cmdIpv4 str ∧ cmdIpv4Match (some command) ≠ .noMatch
    | .ipv6PrefixMatch => cmdIpv6Prefix str ∧ cmdIpv6PrefixMatch (some command) ≠ .noMatch
    | .ipv6Match => cmdIpv6 str ∧ cmdIpv6Match (some command) ≠ .noMatch
    | .rangeMatch => cmdRange str ∧ cmdRangeMatch str (some command)
    | .varargMatch => cmdVararg str
    | .partlyMatch => IsKeyword str ∧ command <+: str
    | .exactMatch => IsKeyword str ∧ command = str := by
  rw [completionClass]
  -- The cases in the order of the source: each placeholder is tried on the word, and no other
  -- class after it.
  split_ifs with hva hr hr' h6 h6' h6p h6p' h4 h4' h4p h4p' hx hpre heq
  · exact hva
  · exact ⟨hr, hr'⟩
  · trivial
  · exact ⟨h6, h6'⟩
  · trivial
  · exact ⟨h6p, h6p'⟩
  · trivial
  · exact ⟨h4, h4'⟩
  · trivial
  · exact ⟨h4p, h4p'⟩
  · trivial
  · exact isPlainVariable_of_not hr h6 h6p h4 h4p hx
  · exact ⟨isKeyword_of_not hva hx, strcmp_eq_zero.1 heq⟩
  · exact ⟨isKeyword_of_not hva hx, strncmp_length_eq_zero.1 hpre⟩
  · trivial

/-- Every word matches a vararg. -/
theorem completionClass_of_cmdVararg {command str : CString} (h : cmdVararg str) :
    completionClass command str = .varargMatch := if_pos h

/-- A keyword is matched by itself exactly, and by its proper prefixes in part. -/
theorem completionClass_of_isKeyword {command str : CString} (h : IsKeyword str) :
    completionClass command str =
      if command <+: str then if command = str then .exactMatch else .partlyMatch
      else .noMatch := by
  obtain ⟨hr, h6, h6p, h4, h4p⟩ := h.not_address
  simp [completionClass, h.1, h.2.1, h.2.2, hr, h6, h6p, h4, h4p]

/-- An option or a plain variable takes any word. -/
theorem completionClass_of_plain {command str : CString}
    (h : cmdOption str ∨ IsPlainVariable str) : completionClass command str = .extendMatch := by
  have hv : cmdVararg str = false :=
    h.elim cmdVararg_eq_false_of_cmdOption fun h => cmdVararg_eq_false_of_cmdVariable h.1
  have hra : ¬cmdRange str ∧ ¬IsAddress str := by
    rcases h with h | h
    · have hv : ¬cmdVariable str := Bool.eq_false_iff.1 (cmdVariable_eq_false_of_cmdOption h)
      exact ⟨fun hr => hv (cmdVariable_of_cmdRange hr), fun ha => hv (cmdVariable_of_isAddress ha)⟩
    · exact h.2
  obtain ⟨hr, ha⟩ := hra
  have hx : cmdOption str || cmdVariable str := by
    rw [Bool.or_eq_true]
    exact h.imp_right And.left
  simp only [IsAddress, not_or, Bool.not_eq_true] at ha
  simp [completionClass, hv, hr, ha, hx]

/-- What the class an alternative receives by string says. -/
theorem stringClass_spec (command str : CString) :
    match stringClass command str with
    | .noMatch => True
    | .extendMatch => cmdOption str ∨ IsPlainVariable str
    | .ipv4PrefixMatch => cmdIpv4Prefix str ∧ cmdIpv4PrefixMatch (some command) = .exactMatch
    | .ipv4Match => cmdIpv4 str ∧ cmdIpv4Match (some command) = .exactMatch
    | .ipv6PrefixMatch => cmdIpv6Prefix str ∧ cmdIpv6PrefixMatch (some command) = .exactMatch
    | .ipv6Match => cmdIpv6 str ∧ cmdIpv6Match (some command) = .exactMatch
    | .rangeMatch => cmdRange str ∧ cmdRangeMatch str (some command)
    | .varargMatch => cmdVararg str
    | .partlyMatch => False
    | .exactMatch => IsKeyword str ∧ command = str := by
  rw [stringClass]
  split_ifs with hva hr hr' h6 h6' h6p h6p' h4 h4' h4p h4p' hx heq
  · exact hva
  · exact ⟨hr, hr'⟩
  · trivial
  · exact ⟨h6, h6'⟩
  · trivial
  · exact ⟨h6p, h6p'⟩
  · trivial
  · exact ⟨h4, h4'⟩
  · trivial
  · exact ⟨h4p, h4p'⟩
  · trivial
  · exact isPlainVariable_of_not hr h6 h6p h4 h4p hx
  · exact ⟨isKeyword_of_not hva hx, strcmp_eq_zero.1 heq⟩
  · trivial

/-- Every word matches a vararg in the strict filter too. -/
theorem stringClass_of_cmdVararg {command str : CString} (h : cmdVararg str) :
    stringClass command str = .varargMatch := if_pos h

/-- The strict filter matches a keyword by itself only. -/
theorem stringClass_of_isKeyword {command str : CString} (h : IsKeyword str) :
    stringClass command str = if command = str then .exactMatch else .noMatch := by
  obtain ⟨hr, h6, h6p, h4, h4p⟩ := h.not_address
  simp [stringClass, h.1, h.2.1, h.2.2, hr, h6, h6p, h4, h4p]

/-- The loop over the alternatives of an item: the match type is raised to the
    class of those that match, and they are counted in `matched`. -/
def filterDescvec (cls : CString → MatchType) : List Desc → MatchType → ℕ → MatchType × ℕ
  | [], matchType, matched => (matchType, matched)
  | desc :: descvec, matchType, matched =>
    let ret := cls desc.cmd
    if ret = .noMatch then filterDescvec cls descvec matchType matched
    else filterDescvec cls descvec (if matchType < ret then ret else matchType) (matched + 1)

/-- The loop over the vector: the elements without an item at `index`, or
    without an alternative there that matches, are `NULL`ed. -/
def filterVector (cls : CString → MatchType) (index : ℕ) :
    CmdVector F → MatchType → MatchType × CmdVector F
  | [], matchType => (matchType, [])
  | none :: v, matchType =>
    let (matchType, v) := filterVector cls index v matchType
    (matchType, none :: v)
  | some cmdElement :: v, matchType =>
    match cmdElement.strvec[index]? with
    | none =>
      let (matchType, v) := filterVector cls index v matchType
      (matchType, none :: v)
    | some descvec =>
      let (matchType, matched) := filterDescvec cls descvec matchType 0
      let (matchType, v) := filterVector cls index v matchType
      (matchType, (if matched = 0 then none else some cmdElement) :: v)

/-- The filter for the classes `cls` that alternatives receive from words. -/
def filterBy (cls : CString → CString → MatchType) (command : CString) (v : CmdVector F)
    (index : ℕ) : MatchType × CmdVector F :=
  filterVector (cls command) index v .noMatch

/-- Make completion match and return match type flag. -/
def cmdFilterByCompletion (command : CString) (v : CmdVector F) (index : ℕ) :
    MatchType × CmdVector F :=
  filterBy completionClass command v index

/-- Filter vector by command character with index. -/
def cmdFilterByString (command : CString) (v : CmdVector F) (index : ℕ) :
    MatchType × CmdVector F :=
  filterBy stringClass command v index

/-! ## The ambiguity check -/

/-- An alternative `str` that matches, when the one that matched before is
    remembered: they must be the same. -/
def remember (matched : Option CString) (str : CString) (n : ℕ) :
    Except ℤ (Option CString × ℕ) :=
  match matched with
  | none => .ok (some str, n + 1)
  | some s => if strcmp s str ≠ 0 then .error 1 else .ok (some str, n + 1)

/-- The switch on the match type, for the alternative `str`: it returns `1` or
    `2`, or goes on with `matched` and `n`, the count of matches. -/
def ambiguousDesc (command : CString) (type : MatchType) (str : CString)
    (matched : Option CString) (n : ℕ) : Except ℤ (Option CString × ℕ) :=
  match type with
  | .exactMatch =>
    if !(cmdOption str || cmdVariable str) && strcmp command str = 0 then .ok (matched, n + 1)
    else .ok (matched, n)
  | .partlyMatch =>
    if !(cmdOption str || cmdVariable str) && strncmp command str command.length = 0 then
      remember matched str n
    else .ok (matched, n)
  | .rangeMatch =>
    if cmdRangeMatch str (some command) then remember matched str n else .ok (matched, n)
  | .ipv6Match => if cmdIpv6 str then .ok (matched, n + 1) else .ok (matched, n)
  -- For a prefix the word is looked at again, but not the descriptor.
  | .ipv6PrefixMatch =>
    let ret := cmdIpv6PrefixMatch (some command)
    if ret ≠ .noMatch then
      -- A partial one is an error of its own.
      if ret = .partlyMatch then .error 2 else .ok (matched, n + 1)
    else .ok (matched, n)
  | .ipv4Match => if cmdIpv4 str then .ok (matched, n + 1) else .ok (matched, n)
  | .ipv4PrefixMatch =>
    let ret := cmdIpv4PrefixMatch (some command)
    if ret ≠ .noMatch then
      if ret = .partlyMatch then .error 2 else .ok (matched, n + 1)
    else .ok (matched, n)
  | .extendMatch =>
    if cmdOption str || cmdVariable str then .ok (matched, n + 1) else .ok (matched, n)
  | .noMatch | .varargMatch => .ok (matched, n)

/-- The loop over the alternatives of an item. -/
def ambiguousDescvec (command : CString) (type : MatchType) :
    List Desc → Option CString → ℕ → Except ℤ (Option CString × ℕ)
  | [], matched, n => .ok (matched, n)
  | desc :: descvec, matched, n =>
    match ambiguousDesc command type desc.cmd matched n with
    | .error ret => .error ret
    | .ok (matched, n) => ambiguousDescvec command type descvec matched n

/-- The loop over the vector: it returns in the middle of it, or `NULL`s the
    elements without a match. -/
def ambiguousVector (command : CString) (index : ℕ) (type : MatchType) :
    CmdVector F → Option CString → ℤ × CmdVector F
  | [], _ => (0, [])
  | none :: v, matched =>
    let (ret, v) := ambiguousVector command index type v matched
    (ret, none :: v)
  | some cmdElement :: v, matched =>
    match ambiguousDescvec command type (cmdElement.item index) matched 0 with
    | .error ret => (ret, some cmdElement :: v)
    | .ok (matched, n) =>
      let (ret, v) := ambiguousVector command index type v matched
      (ret, (if n = 0 then none else some cmdElement) :: v)

/-- Check ambiguous match. -/
def isCmdAmbiguous (command : CString) (v : CmdVector F) (index : ℕ) (type : MatchType) :
    ℤ × CmdVector F :=
  ambiguousVector command index type v none

end Mksh
