import Mksh.Lib.CString

/-!
# Command elements

A command is declared by a string such as `ping WORD NUM`, or
`version WORD (soho|themis|sag) [refresh]`, and a handler. Installing it in a
node breaks the string into *items*, one for each word of a line, each a vector
of alternatives with their descriptions (`cmdMakeDescvec`), and counts the
mandatory ones (`cmdCmdsize`); such an element is `Installed`.

What an alternative stands for is read off its spelling: an option `[...]`, a
variable (in capitals, or `<...>`), of which `<lo-hi>` is a range and
`A.B.C.D`, `A.B.C.D/M`, `X:X::X:X` and `X:X::X:X/M` are addresses, a vararg
`.VARARG`, and else a fixed keyword (`IsKeyword`).

The handlers are left abstract: `F` is the type of the function pointers.
-/

namespace Mksh

open CString

/-! ## Return values of the commands -/

/-- The handler has done its work. -/
def cmdSuccess : ℤ := 0

/-- The handler has warned of something. -/
def cmdWarning : ℤ := 1

/-- No element matches the line. -/
def cmdErrNoMatch : ℤ := 2

/-- More than one element matches the line. -/
def cmdErrAmbiguous : ℤ := 3

/-- Elements match the line, but have mandatory items after it. -/
def cmdErrIncomplete : ℤ := 4

/-- There are more arguments than fit. -/
def cmdErrExeedArgcMax : ℤ := 5

/-- There is nothing to complete. -/
def cmdErrNothingTodo : ℤ := 6

/-- The one candidate completes the word. -/
def cmdCompleteFullMatch : ℤ := 7

/-- The common prefix of the candidates goes on with the word. -/
def cmdCompleteMatch : ℤ := 8

/-- The candidates can only be listed. -/
def cmdCompleteListMatch : ℤ := 9

/-- The element is one of a daemon: what dispatch returns instead of calling its handler. -/
def cmdSuccessDaemon : ℤ := 10

/-- The size of the `argv` of a handler. -/
def cmdArgcMax : ℕ := 25

/-! ## Kinds of alternatives -/

/-- The item is an option. -/
def cmdOption (s : CString) : Bool := s.head? = some '['

/-- The item is a variable. -/
def cmdVariable : CString → Bool
  | [] => false
  | c :: _ => ('A' ≤ c && c ≤ 'Z') || c = '<'

/-- The item stands for the rest of the line. -/
def cmdVararg (s : CString) : Bool := s.head? = some '.'

/-- The item is a range. -/
def cmdRange (s : CString) : Bool := s.head? = some '<'

/-- The item is an IPv4 address. -/
def cmdIpv4 (s : CString) : Bool := strcmp s "A.B.C.D".toList = 0

/-- The item is an IPv4 prefix. -/
def cmdIpv4Prefix (s : CString) : Bool := strcmp s "A.B.C.D/M".toList = 0

/-- The item is an IPv6 address. -/
def cmdIpv6 (s : CString) : Bool := strcmp s "X:X::X:X".toList = 0

/-- The item is an IPv6 prefix. -/
def cmdIpv6Prefix (s : CString) : Bool := strcmp s "X:X::X:X/M".toList = 0

/-- The address forms. -/
def IsAddress (s : CString) : Prop := cmdIpv4 s ∨ cmdIpv4Prefix s ∨ cmdIpv6 s ∨ cmdIpv6Prefix s

/-- A variable that any word matches: neither a range nor an address form. -/
def IsPlainVariable (s : CString) : Prop := cmdVariable s ∧ ¬cmdRange s ∧ ¬IsAddress s

/-- A fixed keyword. (Ranges and addresses are variables.) -/
def IsKeyword (s : CString) : Prop :=
  cmdOption s = false ∧ cmdVariable s = false ∧ cmdVararg s = false

instance : DecidablePred IsKeyword := fun s =>
  inferInstanceAs (Decidable (cmdOption s = false ∧ cmdVariable s = false ∧ cmdVararg s = false))

/-- `CMD_IPV4` accepts one text. -/
@[simp]
theorem cmdIpv4_iff {s : CString} : cmdIpv4 s ↔ s = "A.B.C.D".toList := by simp [cmdIpv4]

/-- `CMD_IPV4_PREFIX` accepts one text. -/
@[simp]
theorem cmdIpv4Prefix_iff {s : CString} : cmdIpv4Prefix s ↔ s = "A.B.C.D/M".toList := by
  simp [cmdIpv4Prefix]

/-- `CMD_IPV6` accepts one text. -/
@[simp]
theorem cmdIpv6_iff {s : CString} : cmdIpv6 s ↔ s = "X:X::X:X".toList := by simp [cmdIpv6]

/-- `CMD_IPV6_PREFIX` accepts one text. -/
@[simp]
theorem cmdIpv6Prefix_iff {s : CString} : cmdIpv6Prefix s ↔ s = "X:X::X:X/M".toList := by
  simp [cmdIpv6Prefix]

/-- A range stands for a value, not for itself. -/
theorem cmdVariable_of_cmdRange {s : CString} (h : cmdRange s) : cmdVariable s := by
  cases s with
  | nil => cases h
  | cons c s =>
    have hc : c = '<' := by simpa [cmdRange] using h
    simp [cmdVariable, hc]

/-- So does an address. -/
theorem cmdVariable_of_isAddress {s : CString} (h : IsAddress s) : cmdVariable s := by
  rcases h with h | h | h | h
  · rw [cmdIpv4_iff.1 h]; decide
  · rw [cmdIpv4Prefix_iff.1 h]; decide
  · rw [cmdIpv6_iff.1 h]; decide
  · rw [cmdIpv6Prefix_iff.1 h]; decide

/-- `.` starts no variable. -/
theorem cmdVararg_eq_false_of_cmdVariable {s : CString} (h : cmdVariable s) :
    cmdVararg s = false := by
  cases s with
  | nil => cases h
  | cons c s =>
    by_contra hv
    have hc : c = '.' := by simpa [cmdVararg] using hv
    subst hc
    revert h
    simp [cmdVariable]

/-- `.` opens no bracket. -/
theorem cmdVararg_eq_false_of_cmdOption {s : CString} (h : cmdOption s) :
    cmdVararg s = false := by
  rw [cmdOption, decide_eq_true_eq] at h
  simp [cmdVararg, h]

/-- An option is no variable, since its first character is the bracket. -/
theorem cmdVariable_eq_false_of_cmdOption {s : CString} (h : cmdOption s) :
    cmdVariable s = false := by
  rcases s with _ | ⟨c, s⟩
  · rfl
  · have hc : c = '[' := by simpa [cmdOption] using h
    simp [cmdVariable, hc]

/-- A keyword is neither a range nor an address. -/
theorem IsKeyword.not_address {s : CString} (h : IsKeyword s) : cmdRange s = false ∧
    cmdIpv6 s = false ∧ cmdIpv6Prefix s = false ∧ cmdIpv4 s = false ∧ cmdIpv4Prefix s = false := by
  have hv : ¬cmdVariable s := Bool.eq_false_iff.1 h.2.1
  have ha : ¬IsAddress s := fun ha => hv (cmdVariable_of_isAddress ha)
  simp only [IsAddress, not_or, Bool.not_eq_true] at ha
  exact ⟨Bool.eq_false_iff.2 fun hr => hv (cmdVariable_of_cmdRange hr), ha.2.2.1, ha.2.2.2,
    ha.1, ha.2.1⟩

/-- An extension of a nonempty keyword is not a vararg. -/
theorem IsKeyword.cmdVararg_of_prefix {w s t : CString} (hs : IsKeyword s) (hw : w ≠ [])
    (hws : w <+: s) (hwt : w <+: t) : cmdVararg t = false := by
  obtain ⟨c, w, rfl⟩ := List.exists_cons_of_ne_nil hw
  obtain ⟨s', rfl⟩ := hws
  obtain ⟨t', rfl⟩ := hwt
  exact hs.2.2

/-! ## Elements -/

/-- An alternative of an item: its spelling and its description. -/
structure Desc where
  cmd : CString
  str : Option CString
  deriving DecidableEq

/-- A command: its declaration, and, once it is installed, its items and the
    number of mandatory ones. -/
structure CmdElement (F : Type*) where
  string : CString
  func : Option F
  doc : Option CString
  daemon : ℤ
  strvec : List (List Desc) := []
  cmdsize : ℕ := 0
  deriving DecidableEq

variable {F : Type*}

/-- The item at `index`, with no alternative if there is none. -/
def CmdElement.item (e : CmdElement F) (index : ℕ) : List Desc := e.strvec[index]?.getD []

/-! ## Parsing the declaration -/

/-- How parsing a declaration fails: with a parse error, on which the program
    exits, or for want of fuel, which does not happen (`cmdMakeDescvec_ne_fuel`). -/
inductive SpecError
  | parse
  | fuel
  deriving DecidableEq

/-- The next line of the descriptions, and the descriptions after it. -/
def cmdDescStr : Option CString → Option CString × Option CString
  | none => (none, none)
  | some string =>
    let cp := string.dropWhile isspace
    if cp = [] then (none, some string)
    else
      (some (cp.takeWhile fun c => !(c = '\r' || c = '\n')),
        some (cp.dropWhile fun c => !(c = '\r' || c = '\n')))

/-- The character ends a word of a declaration. -/
def endsWord (c : Char) : Bool :=
  isspace c || c = '\r' || c = '\n' || c = ')' || c = '|'

/-- A parenthesis opens a group of alternatives. -/
def skipOpen : ℕ × CString → ℕ × CString
  | (_, '(' :: cp) => (1, cp)
  | p => p

/-- A parenthesis closes the group. -/
def skipClose : ℕ × CString → ℕ × CString
  | (_, ')' :: cp) => (0, cp)
  | p => p

/-- A bar between alternatives, which may only be in a group. -/
def skipBar : ℕ × CString → Except SpecError (ℕ × CString)
  | (multiple, '|' :: cp) => if multiple = 0 then .error .parse else .ok (multiple, cp)
  | p => .ok p

/-- What stands before a word: white space, and at most one each of `(`, `)`,
    `|` and again `(`, in that order. `multiple` is `0` outside of a group, `1`
    at its start and more further on. -/
def skipPunctuation (multiple : ℕ) (cp : CString) : Except SpecError (ℕ × CString) :=
  match skipBar (skipClose (skipOpen (multiple, cp.dropWhile isspace))) with
  | .error e => .error e
  | .ok (multiple, cp) => .ok (skipOpen (multiple, cp.dropWhile isspace))

/-- Appending to the last vector of `allvec`. -/
def setLast (allvec : List (List Desc)) (desc : Desc) : List (List Desc) :=
  allvec.dropLast ++ [allvec.getLastD [] ++ [desc]]

/-- The loop over the declaration: each turn skips what stands before a word, and puts the word
    into a new vector, or in a group into the last one. -/
def cmdMakeDescvecLoop : ℕ → ℕ → CString → Option CString → List (List Desc) →
    Except SpecError (List (List Desc))
  | 0, _, _, _, _ => .error .fuel
  | fuel + 1, multiple, cp, dp, allvec =>
    match skipPunctuation multiple cp with
    | .error e => .error e
    | .ok (multiple, cp) =>
      if cp = [] then .ok allvec
      else
        let token := cp.takeWhile fun c => !endsWord c
        let cp := cp.dropWhile fun c => !endsWord c
        let (str, dp) := cmdDescStr dp
        let desc := ⟨token, str⟩
        if multiple = 0 then cmdMakeDescvecLoop fuel 0 cp dp (allvec ++ [[desc]])
        else if multiple = 1 then cmdMakeDescvecLoop fuel 2 cp dp (allvec ++ [[desc]])
        else cmdMakeDescvecLoop fuel (multiple + 1) cp dp (setLast allvec desc)

/-- The items of a declaration. -/
def cmdMakeDescvec (string : CString) (descstr : Option CString) :
    Except SpecError (List (List Desc)) :=
  cmdMakeDescvecLoop (string.length + 2) 0 string descstr []

/-! ### Termination -/

/-- Skipping an opening bracket only moves the pointer forward. -/
theorem skipOpen_suffix (p : ℕ × CString) : (skipOpen p).2 <:+ p.2 := by
  rw [skipOpen.eq_def]
  split
  · exact List.suffix_cons ..
  · exact List.suffix_refl _

/-- Skipping a closing bracket only moves the pointer forward. -/
theorem skipClose_suffix (p : ℕ × CString) : (skipClose p).2 <:+ p.2 := by
  rw [skipClose.eq_def]
  split
  · exact List.suffix_cons ..
  · exact List.suffix_refl _

/-- Skipping a bar only moves the pointer forward. -/
theorem skipBar_suffix {p q : ℕ × CString} (h : skipBar p = .ok q) : q.2 <:+ p.2 := by
  rw [skipBar.eq_def] at h
  split at h
  · split_ifs at h
    obtain rfl := Except.ok.inj h
    exact List.suffix_cons ..
  · obtain rfl := Except.ok.inj h
    exact List.suffix_refl _

/-- The punctuation is skipped in the order of the source, the bar last. -/
theorem exists_skipBar {multiple : ℕ} {cp : CString} {q : ℕ × CString}
    (h : skipPunctuation multiple cp = .ok q) :
    ∃ p, skipBar (skipClose (skipOpen (multiple, cp.dropWhile isspace))) = .ok p ∧
      q.2 <:+ p.2 := by
  rw [skipPunctuation] at h
  split at h
  · cases h
  next m cp hp =>
    obtain rfl := Except.ok.inj h
    exact ⟨(m, cp), hp, (skipOpen_suffix _).trans (List.dropWhile_suffix _)⟩

/-- What is left of a descriptor after its punctuation is a suffix of it. -/
theorem skipPunctuation_suffix {multiple : ℕ} {cp : CString} {q : ℕ × CString}
    (h : skipPunctuation multiple cp = .ok q) : q.2 <:+ cp := by
  obtain ⟨p, hp, hq⟩ := exists_skipBar h
  exact hq.trans <| (skipBar_suffix hp).trans <| (skipClose_suffix _).trans <|
    (skipOpen_suffix _).trans <| List.dropWhile_suffix _

/-- The character at which a word would end is skipped. -/
theorem skipPunctuation_suffix_tail {multiple : ℕ} {c : Char} {cs : CString} {q : ℕ × CString}
    (h : skipPunctuation multiple (c :: cs) = .ok q) (hc : endsWord c) : q.2 <:+ cs := by
  obtain ⟨p, hp, hq⟩ := exists_skipBar h
  refine hq.trans ?_
  rw [List.dropWhile_cons] at hp
  by_cases hs : isspace c
  · rw [if_pos hs] at hp
    exact (skipBar_suffix hp).trans <| (skipClose_suffix _).trans <|
      (skipOpen_suffix _).trans <| List.dropWhile_suffix _
  rw [if_neg hs] at hp
  have hc' : c = ')' ∨ c = '|' := by
    simp only [endsWord, hs, Bool.false_or, Bool.or_eq_true, decide_eq_true_eq] at hc
    rcases hc with ((rfl | rfl) | rfl) | rfl
    · exact absurd (by decide) hs
    · exact absurd (by decide) hs
    · exact .inl rfl
    · exact .inr rfl
  rcases hc' with rfl | rfl
  · exact skipBar_suffix (p := (0, cs)) hp
  · change (if multiple = 0 then _ else _) = _ at hp
    split_ifs at hp
    obtain rfl := Except.ok.inj hp
    exact List.suffix_refl _

/-- Each turn takes some of the declaration. -/
theorem length_dropWhile_lt {multiple : ℕ} {cp : CString} {q : ℕ × CString}
    (h : skipPunctuation multiple cp = .ok q) (hne : q.2 ≠ []) :
    (q.2.dropWhile fun c => !endsWord c).length < cp.length := by
  obtain ⟨m, cp'⟩ := q
  obtain ⟨c, cs, rfl⟩ := List.exists_cons_of_ne_nil hne
  have hsuf := skipPunctuation_suffix h
  by_cases hc : endsWord c
  · -- Nothing is taken as a word, so that something has been skipped.
    have hle := ((List.dropWhile_suffix fun c => !endsWord c).trans hsuf).length_le
    refine lt_of_le_of_ne hle fun heq => ?_
    rw [List.dropWhile_cons_of_neg (by simpa using hc)] at heq
    obtain rfl := hsuf.eq_of_length heq
    have hlen := (skipPunctuation_suffix_tail h hc).length_le
    exact Nat.not_succ_le_self _ hlen
  · rw [List.dropWhile_cons_of_pos (by simpa using hc)]
    have hle : (cs.dropWhile fun c => !endsWord c).length ≤ cs.length :=
      (List.dropWhile_suffix _).length_le
    exact lt_of_lt_of_le (Nat.lt_succ_of_le hle) hsuf.length_le

/-- The punctuation is not skipped in a loop. -/
theorem skipPunctuation_ne_fuel (multiple : ℕ) (cp : CString) :
    skipPunctuation multiple cp ≠ .error .fuel := by
  intro h
  rw [skipPunctuation] at h
  split at h
  next e he =>
    obtain rfl := Except.error.inj h
    rw [skipBar.eq_def] at he
    split at he
    · split_ifs at he
      cases he
    · cases he
  · cases h

/-- Each turn of the loop drops a character, so fuel beyond the length is enough. -/
theorem cmdMakeDescvecLoop_ne_fuel {fuel multiple : ℕ} {cp : CString} (h : cp.length < fuel)
    (dp : Option CString) (allvec : List (List Desc)) :
    cmdMakeDescvecLoop fuel multiple cp dp allvec ≠ .error .fuel := by
  induction fuel generalizing multiple cp dp allvec with
  | zero => exact absurd h (Nat.not_lt_zero _)
  | succ fuel ih =>
    rw [cmdMakeDescvecLoop]
    split
    next e he =>
      intro hf
      obtain rfl := Except.error.inj hf
      exact skipPunctuation_ne_fuel multiple cp he
    next m cp' hq =>
      split_ifs with hnil hm hm
      · exact fun hf => nomatch hf
      all_goals
        have hlt := length_dropWhile_lt hq hnil
        exact ih (lt_of_lt_of_le hlt (Nat.le_of_lt_succ h)) _ _

/-- Parsing a declaration ends. -/
theorem cmdMakeDescvec_ne_fuel (string : CString) (descstr : Option CString) :
    cmdMakeDescvec string descstr ≠ .error .fuel :=
  cmdMakeDescvecLoop_ne_fuel (by omega) descstr []

/-- The number of mandatory items: those before the first lone option. -/
def cmdCmdsize : List (List Desc) → ℕ
  | [] => 0
  | [desc] :: strvec => if cmdOption desc.cmd then 0 else cmdCmdsize strvec + 1
  | _ :: strvec => cmdCmdsize strvec + 1

/-- The element is as `cmd_install_element` leaves it. -/
def CmdElement.Installed (e : CmdElement F) : Prop :=
  cmdMakeDescvec e.string e.doc = .ok e.strvec ∧ e.cmdsize = cmdCmdsize e.strvec

instance : DecidablePred (CmdElement.Installed (F := F)) := fun e =>
  inferInstanceAs (Decidable (cmdMakeDescvec e.string e.doc = .ok e.strvec ∧
    e.cmdsize = cmdCmdsize e.strvec))

end Mksh
