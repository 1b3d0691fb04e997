import Mathlib.Data.Nat.Basic
import Mathlib.Order.BoundedOrder.Basic
import Mathlib.Order.Lattice
import Mksh.Command.Basic

/-!
# Matchers

How well a word matches an address form or a range. The address matchers tell
a complete address (`exactMatch`) from a partial one, on which the user may
still be typing (`partlyMatch`), and from what is none (`noMatch`); a missing
word, a `NULL`, is partial. The matchers walk the word character by character,
looking one character ahead: the loops below recurse on the rest of the word,
and carry the characters since `sp`, the start of the group at hand.

`MatchType` also has the classes a word gets for the other kinds of
alternatives, in increasing order of specificity.
-/

namespace Mksh

open CString

/-- Completion match types. -/
inductive MatchType
  | noMatch
  | extendMatch
  | ipv4PrefixMatch
  | ipv4Match
  | ipv6PrefixMatch
  | ipv6Match
  | rangeMatch
  | varargMatch
  | partlyMatch
  | exactMatch
  deriving DecidableEq

namespace MatchType

theorem ctorIdx_injective : Function.Injective MatchType.ctorIdx := by
  intro s t h
  cases s <;> cases t <;> first | rfl | cases h

/-- The order of the enumeration. -/
instance : LinearOrder MatchType := LinearOrder.lift' MatchType.ctorIdx ctorIdx_injective

instance : OrderBot MatchType where
  bot := noMatch
  bot_le t := Nat.zero_le t.ctorIdx

@[simp]
theorem bot_eq : (⊥ : MatchType) = noMatch := rfl

end MatchType

/-! ## IPv4 -/

/-- The loops of `cmdIpv4Match`, from `str` on: `dots` and `nums` are counted
    so far, and `buf` holds the characters since `sp`. -/
def cmdIpv4Loop (dots nums : ℕ) (buf : CString) : CString → MatchType
  | [] =>
    -- The number at the end is checked after the loop, and the numbers are counted.
    if buf.length > 3 then .noMatch
    else if atoi buf > 255 then .noMatch
    else if nums + 1 < 4 then .partlyMatch
    else .exactMatch
  | c :: str =>
    if c = '.' then
      if dots ≥ 3 then .noMatch
      else if str.head? = some '.' then .noMatch
      -- A dot at the end returns before the number before it is checked.
      else if str = [] then .partlyMatch
      else if buf.length > 3 then .noMatch
      else if atoi buf > 255 then .noMatch
      else cmdIpv4Loop (dots + 1) (nums + 1) [] str
    else if !isdigit c then .noMatch
    else cmdIpv4Loop dots nums (buf ++ [c]) str

/-- Whether the string is an IPv4 address, or the start of one. -/
def cmdIpv4Match : Option CString → MatchType
  | none => .partlyMatch
  | some str => cmdIpv4Loop 0 0 [] str

/-- The loops of `cmdIpv4PrefixMatch` over the address, from `str` on: they
    return, or end after the slash with the mask. -/
def cmdIpv4PrefixLoop (dots : ℕ) (buf : CString) : CString → Except MatchType CString
  | [] =>
    if buf.length > 3 then .error .noMatch
    else if atoi buf > 255 then .error .noMatch
    else .error .partlyMatch
  | c :: str =>
    if c = '/' then
      if buf.length > 3 then .error .noMatch
      else if atoi buf > 255 then .error .noMatch
      else if dots = 3 then
        if str = [] then .error .partlyMatch else .ok str
      -- A slash before the third dot is passed over.
      else cmdIpv4PrefixLoop dots [] str
    else if c = '.' then
      if dots = 3 then .error .noMatch
      else if str.head? = some '.' ∨ str.head? = some '/' then .error .noMatch
      else if str = [] then .error .partlyMatch
      else if buf.length > 3 then .error .noMatch
      else if atoi buf > 255 then .error .noMatch
      else cmdIpv4PrefixLoop (dots + 1) [] str
    else if !isdigit c then .error .noMatch
    else cmdIpv4PrefixLoop dots (buf ++ [c]) str

/-- Whether the string is an IPv4 prefix, or the start of one: what follows the slash is read by
    `atoi`. -/
def cmdIpv4PrefixMatch : Option CString → MatchType
  | none => .partlyMatch
  | some str =>
    match cmdIpv4PrefixLoop 0 [] str with
    | .error ret => ret
    | .ok sp =>
      if !sp.all isdigit then .noMatch
      else if atoi sp > 32 then .noMatch
      else .exactMatch

/-! ## IPv6 -/

/-- The characters of an IPv6 address. -/
def ipv6AddrStr : CString := "0123456789abcdefABCDEF:.%".toList

/-- The characters of an IPv6 prefix. -/
def ipv6PrefixStr : CString := "0123456789abcdefABCDEF:.%/".toList

/-- The states of the IPv6 matchers, after `STATE_START`. -/
inductive Ipv6State
  | colon
  | double
  | addr
  | dot
  | slash
  | mask
  deriving DecidableEq

/-- The variables of the IPv6 matchers; `group` are the characters since `sp`. -/
structure Ipv6Vars where
  state : Ipv6State
  colons : ℤ := 0
  nums : ℕ := 0
  doubleColon : ℕ := 0
  group : CString := []
  deriving DecidableEq

/-- `STATE_START`, on the first character `c` of the word. -/
def ipv6Start (c : Char) (str : CString) : Except MatchType Ipv6Vars :=
  if c = ':' then
    if str.head? ≠ some ':' ∧ str ≠ [] then .error .noMatch
    else .ok { state := .colon, colons := -1 }
  else .ok { state := .addr }

/-- The body of the loop of `cmdIpv6Match`, on the character `c` before `str`. -/
def cmdIpv6Step (v : Ipv6Vars) (c : Char) (str : CString) : Except MatchType Ipv6Vars :=
  match v.state with
  | .colon =>
    if str.head? = some ':' then
      .ok { v with state := .double, colons := v.colons + 1, group := v.group ++ [c] }
    else .ok { v with state := .addr, colons := v.colons + 1, group := [] }
  -- At the second one of two colons; the flag is for those that came before.
  | .double =>
    if v.doubleColon ≠ 0 then .error .noMatch
    else if str.head? = some ':' then .error .noMatch
    else
      .ok { state := .addr, colons := if str ≠ [] then v.colons + 1 else v.colons,
            nums := v.nums + 1, doubleColon := v.doubleColon + 1, group := [] }
  | .addr =>
    -- The length is checked where the group ends. A dot ends none here.
    if (str.head? = some ':' ∨ str = []) ∧ v.group.length > 3 then .error .noMatch
    else
      let v' := if str.head? = some ':' ∨ str = [] then
          { v with state := .colon, nums := v.nums + 1 } else v
      .ok { v' with state := if str.head? = some '.' then .dot else v'.state,
                    group := v.group ++ [c] }
  | .dot => .ok { v with state := .addr, group := v.group ++ [c] }
  | .slash | .mask => .ok { v with group := v.group ++ [c] }

/-- The loop over the string; there are no more than eight numbers and seven colons. -/
def cmdIpv6Loop (v : Ipv6Vars) : CString → MatchType
  | [] => .exactMatch
  | c :: str =>
    match cmdIpv6Step v c str with
    | .error ret => ret
    | .ok v =>
      if v.nums > 8 then .noMatch
      else if v.colons > 7 then .noMatch
      else cmdIpv6Loop v str

/-- Whether the string is an IPv6 address, or the start of one. -/
def cmdIpv6Match : Option CString → MatchType
  | none => .partlyMatch
  | some str =>
    if strspn str ipv6AddrStr ≠ str.length then .noMatch
    else match str with
      | [] => .exactMatch
      | c :: str =>
        match ipv6Start c str with
        | .error ret => ret
        | .ok v => cmdIpv6Loop v (c :: str)

/-- The body of the loop of `cmdIpv6PrefixMatch`, on the character `c` before
    `str`. -/
def cmdIpv6PrefixStep (v : Ipv6Vars) (c : Char) (str : CString) : Except MatchType Ipv6Vars :=
  match v.state with
  | .colon =>
    if str.head? = some '/' then .error .noMatch
    else if str.head? = some ':' then
      .ok { v with state := .double, colons := v.colons + 1, group := v.group ++ [c] }
    else .ok { v with state := .addr, colons := v.colons + 1, group := [] }
  | .double =>
    if v.doubleColon ≠ 0 then .error .noMatch
    else if str.head? = some ':' then .error .noMatch
    else
      .ok { state := if str.head? = some '/' then .slash else .addr,
            colons := if str ≠ [] ∧ str.head? ≠ some '/' then v.colons + 1 else v.colons,
            nums := v.nums + 1, doubleColon := v.doubleColon + 1, group := [] }
  | .addr =>
    -- Unlike in `cmdIpv6Match`, a dot and a slash end a group too.
    if str = [] ∨ str.head? = some ':' ∨ str.head? = some '.' ∨ str.head? = some '/' then
      if v.group.length > 3 then .error .noMatch
      else if '/' ∈ v.group ++ [c] then .error .noMatch
      else
        let state := if str.head? = some ':' then .colon
          else if str.head? = some '.' then .dot
          else if str.head? = some '/' then .slash
          else v.state
        .ok { v with state, nums := v.nums + 1, group := [] }
    else .ok { v with group := v.group ++ [c] }
  | .dot => .ok { v with state := .addr, group := v.group ++ [c] }
  -- The slash itself; what follows it is the mask.
  | .slash =>
    if str = [] then .error .partlyMatch
    else .ok { v with state := .mask, group := v.group ++ [c] }
  | .mask => .ok { v with group := v.group ++ [c] }

/-- The loop of `cmdIpv6PrefixMatch`: it returns, or ends at the mask. -/
def cmdIpv6PrefixLoop (v : Ipv6Vars) : CString → Except MatchType CString
  | [] => if v.state = .mask then .ok [] else .error .partlyMatch
  | c :: str =>
    if v.state = .mask then .ok (c :: str)
    else match cmdIpv6PrefixStep v c str with
      | .error ret => .error ret
      | .ok v =>
        if v.nums > 11 then .error .noMatch
        else if v.colons > 7 then .error .noMatch
        else cmdIpv6PrefixLoop v str

/-- The test of the mask: an `int` between `0` and `128`, and nothing more. -/
def ipv6Mask (str : CString) : MatchType :=
  let (mask, endptr) := strtol str
  let mask := mask.bmod (2 ^ 32)
  if endptr ≠ [] then .noMatch
  else if mask < 0 ∨ mask > 128 then .noMatch
  else .exactMatch

/-- Whether the string is an IPv6 prefix, or the start of one. -/
def cmdIpv6PrefixMatch : Option CString → MatchType
  | none => .partlyMatch
  | some str =>
    if strspn str ipv6PrefixStr ≠ str.length then .noMatch
    else match str with
      | [] => .partlyMatch
      | c :: str =>
        match ipv6Start c str with
        | .error ret => ret
        | .ok v =>
          match cmdIpv6PrefixLoop v (c :: str) with
          | .error ret => ret
          | .ok str => ipv6Mask str

/-! ## What the address matchers return -/

/-- What the address matchers return. -/
def IsVerdict (ret : MatchType) : Prop :=
  ret = .noMatch ∨ ret = .partlyMatch ∨ ret = .exactMatch

instance : DecidablePred IsVerdict := fun ret =>
  inferInstanceAs (Decidable (ret = .noMatch ∨ ret = .partlyMatch ∨ ret = .exactMatch))

/-- The scanner for addresses returns one of the three verdicts. -/
theorem cmdIpv4Loop_isVerdict (dots nums : ℕ) (buf str : CString) :
    IsVerdict (cmdIpv4Loop dots nums buf str) := by
  induction str generalizing dots nums buf with
  | nil =>
    rw [cmdIpv4Loop]
    split_ifs <;> decide
  | cons c str ih =>
    rw [cmdIpv4Loop]
    split_ifs <;> first | decide | apply ih

theorem cmdIpv4Match_isVerdict (str : Option CString) : IsVerdict (cmdIpv4Match str) := by
  rcases str with _ | str
  · exact .inr (.inl rfl)
  · exact cmdIpv4Loop_isVerdict 0 0 [] str

/-- So does the one for prefixes, where it stops early. -/
theorem cmdIpv4PrefixLoop_error {dots : ℕ} {buf str : CString} {ret : MatchType}
    (h : cmdIpv4PrefixLoop dots buf str = .error ret) : IsVerdict ret := by
  induction str generalizing dots buf with
  | nil =>
    rw [cmdIpv4PrefixLoop] at h
    split_ifs at h <;> cases h <;> decide
  | cons c str ih =>
    rw [cmdIpv4PrefixLoop] at h
    split_ifs at h <;> first | exact ih h | (cases h; decide)

theorem cmdIpv4PrefixMatch_isVerdict (str : Option CString) :
    IsVerdict (cmdIpv4PrefixMatch str) := by
  rcases str with _ | str
  · exact .inr (.inl rfl)
  rw [cmdIpv4PrefixMatch]
  rcases hl : cmdIpv4PrefixLoop 0 [] str with ret | sp
  · exact cmdIpv4PrefixLoop_error hl
  · dsimp only
    split_ifs <;> decide

/-- A step of the scanner stops with a verdict only. -/
theorem cmdIpv6PrefixStep_error {v : Ipv6Vars} {c : Char} {str : CString} {ret : MatchType}
    (h : cmdIpv6PrefixStep v c str = .error ret) : IsVerdict ret := by
  revert h
  rw [cmdIpv6PrefixStep]
  cases v.state with
  | dot | mask => intro h; cases h
  | colon | double | addr | slash =>
    dsimp only
    intro h
    split_ifs at h <;> cases h <;> decide

/-- So does its loop. -/
theorem cmdIpv6PrefixLoop_error {v : Ipv6Vars} {str : CString} {ret : MatchType}
    (h : cmdIpv6PrefixLoop v str = .error ret) : IsVerdict ret := by
  induction str generalizing v with
  | nil =>
    rw [cmdIpv6PrefixLoop] at h
    split_ifs at h
    cases h
    decide
  | cons c str ih =>
    rw [cmdIpv6PrefixLoop] at h
    split_ifs at h
    rcases hs : cmdIpv6PrefixStep v c str with ret' | v'
    · rw [hs] at h
      cases h
      exact cmdIpv6PrefixStep_error hs
    · rw [hs] at h
      dsimp only at h
      split_ifs at h <;> first | exact ih h | (cases h; decide)

theorem cmdIpv6PrefixMatch_isVerdict (str : Option CString) :
    IsVerdict (cmdIpv6PrefixMatch str) := by
  rcases str with _ | str
  · exact .inr (.inl rfl)
  unfold cmdIpv6PrefixMatch
  dsimp only
  split_ifs
  · decide
  rcases str with _ | ⟨c, str⟩
  · decide
  dsimp only
  cases hs : ipv6Start c str with
  | error ret =>
    rw [ipv6Start] at hs
    split_ifs at hs
    cases hs
    exact .inl rfl
  | ok v =>
    dsimp only
    cases hl : cmdIpv6PrefixLoop v (c :: str) with
    | error ret => exact cmdIpv6PrefixLoop_error hl
    | ok str' =>
      simp only [ipv6Mask]
      split_ifs <;> decide

/-- The body of the loop of `cmdIpv6Match` returns nothing but `noMatch`. -/
theorem cmdIpv6Step_error {v : Ipv6Vars} {c : Char} {str : CString} {ret : MatchType}
    (h : cmdIpv6Step v c str = .error ret) : ret = .noMatch := by
  revert h
  rw [cmdIpv6Step]
  cases v.state with
  | colon => dsimp only; split_ifs <;> simp
  | double => dsimp only; split_ifs <;> simp +contextual [eq_comm]
  | addr => dsimp only; split_ifs <;> simp +contextual [eq_comm]
  | dot => simp
  | slash => simp
  | mask => simp

/-- The scanner for IPv6 addresses never matches in part. -/
theorem cmdIpv6Loop_eq (v : Ipv6Vars) (str : CString) :
    cmdIpv6Loop v str = .noMatch ∨ cmdIpv6Loop v str = .exactMatch := by
  induction str generalizing v with
  | nil => exact .inr rfl
  | cons c str ih =>
    rw [cmdIpv6Loop]
    cases hv : cmdIpv6Step v c str with
    | error ret => exact .inl (cmdIpv6Step_error hv)
    | ok v' =>
      dsimp only
      split_ifs
      exacts [.inl rfl, .inl rfl, ih v']

/-- A word is never a merely partial IPv6 address. -/
theorem cmdIpv6Match_some (str : CString) :
    cmdIpv6Match (some str) = .noMatch ∨ cmdIpv6Match (some str) = .exactMatch := by
  unfold cmdIpv6Match
  dsimp only
  split_ifs with hs
  · exact .inl rfl
  · cases str with
    | nil => exact .inr rfl
    | cons c str =>
      simp only [ipv6Start]
      split_ifs
      exacts [.inl rfl, cmdIpv6Loop_eq _ _, cmdIpv6Loop_eq _ _]

/-! ## Ranges -/

/-- How many digits the bound of a range may have. -/
def decimalStrlenMax : ℕ := 10

/-- A bound of a range, before the character `stop`, and what follows it. -/
def rangeBound (range : CString) (stop : Char) : Option (ℕ × CString) :=
  match strchr range stop with
  | none => none
  | some p =>
    if p > decimalStrlenMax then none
    else
      let (bound, endptr) := strtoul (range.take p)
      if endptr ≠ [] then none else some (bound, range.drop (p + 1))

/-- Whether a word is a number in the range `<lo-hi>`. -/
def cmdRangeMatch (range : CString) : Option CString → Bool
  | none => true
  | some str =>
    let (val, endptr) := strtoul str
    if endptr ≠ [] then false
    else match rangeBound range.tail '-' with
      | none => false
      | some (min, range) =>
        match rangeBound range '>' with
        | none => false
        | some (max, _) => !(val < min || val > max)

end Mksh
