import Mksh.Command.Ipv6.Text

/-!
# IPv6 addresses as they are typed

What has been typed of an address is not rejected (`cmdIpv6Match_typed`): neither of the
scanners, which look one character ahead, rejects a string at its end that it accepts when there
is more to come. For addresses, this is seen from the fields (`cmdIpv6Match_of_isPrefix`), and for
prefixes from the loop (`cmdIpv6PrefixLoop_of_isPrefix`).
-/

namespace Mksh.Ipv6

open CString

variable {v v' : Ipv6Vars} {c : Char} {s p str str' m : CString} {f : CString} {fs : List CString}

/-! ## Addresses -/

/-- A single group is a pattern. -/
theorem isPattern_nil : ∀ e, IsPattern e [] := by decide

/-- Every start of the text of a pattern is found. -/
theorem cmdIpv6Match_of_isPrefix (hfs : ∀ g ∈ f :: fs, IsHexField g)
    (hpattern : IsPattern f.isEmpty (fs.map List.isEmpty)) (hp : p <+: joined (f :: fs)) :
    cmdIpv6Match (some p) = .exactMatch := by
  obtain ⟨g, gs, hgs, rfl⟩ := Fields.exists_intercalate ':' p
  have hcolon : ∀ h ∈ f :: fs, ':' ∉ h := fun h hh => (hfs h hh).isPlain.1
  obtain ⟨init, f₁, g₁, rest, heq, heq', hfg⟩ :=
    (Fields.intercalate_prefix_iff hgs hcolon (List.cons_ne_nil g gs) (List.cons_ne_nil f fs)).1 hp
  rw [heq'] at hfs
  obtain ⟨hinit, hlast⟩ := List.forall_mem_append.1 hfs
  have hf₁ : IsHexField f₁ := (hlast g₁ List.mem_cons_self).of_isPrefix hfg
  have hfields : ∀ h ∈ g :: gs, IsHexField h := by
    rw [heq]
    exact List.forall_mem_append.2 ⟨hinit, List.forall_mem_singleton.2 hf₁⟩
  refine (cmdIpv6Match_joined hfields).2 ?_
  rcases init with _ | ⟨i, init⟩
  · obtain ⟨rfl, rfl⟩ := List.cons.inj heq
    exact isPattern_nil _
  · rw [List.cons_append] at heq heq'
    obtain ⟨rfl, rfl⟩ := List.cons.inj heq
    obtain ⟨rfl, rfl⟩ := List.cons.inj heq'
    rw [List.map_append] at hpattern ⊢
    -- A field that is empty in the whole is so in the part.
    refine hpattern.of_isPrefix fun hempty => ?_
    rw [List.isEmpty_iff] at hempty ⊢
    rwa [hempty, List.prefix_nil] at hfg

/-! ## Prefixes -/

/-- The loop on a character. -/
theorem cmdIpv6PrefixLoop_eq_ok (hmask : v.state ≠ .mask)
    (h : cmdIpv6PrefixLoop v (c :: str) = .ok m) :
    ∃ v', cmdIpv6PrefixStep v c str = .ok v' ∧ v'.nums ≤ 11 ∧ v'.colons ≤ 7 ∧
      cmdIpv6PrefixLoop v' str = .ok m := by
  rw [cmdIpv6PrefixLoop, if_neg hmask] at h
  rcases hstep : cmdIpv6PrefixStep v c str with ret | v'
  · rw [hstep] at h
    cases h
  · rw [hstep] at h
    dsimp only at h
    split_ifs at h with hn hc
    exact ⟨v', rfl, not_lt.1 hn, not_lt.1 hc, h⟩

/-- A character before the mask that is accepted, with counts in bounds. -/
theorem cmdIpv6PrefixLoop_step (hmask : v.state ≠ .mask)
    (hstep : cmdIpv6PrefixStep v c str = .ok v') (hn : v'.nums ≤ 11) (hc : v'.colons ≤ 7) :
    cmdIpv6PrefixLoop v (c :: str) = cmdIpv6PrefixLoop v' str := by
  rw [cmdIpv6PrefixLoop, if_neg hmask, hstep]
  dsimp only
  rw [if_neg (not_lt.2 hn), if_neg (not_lt.2 hc)]

/-- Once at the mask, the loop stops. -/
theorem cmdIpv6PrefixLoop_mask' (hmask : v.state = .mask) (str : CString) :
    cmdIpv6PrefixLoop v str = .ok str := by
  cases str with
  | nil => rw [cmdIpv6PrefixLoop, if_pos hmask]
  | cons c str => rw [cmdIpv6PrefixLoop, if_pos hmask]

/-- A step looks at the next character only. -/
theorem cmdIpv6PrefixStep_congr (h : str.head? = str'.head?) :
    cmdIpv6PrefixStep v c str = cmdIpv6PrefixStep v c str' := by
  have hnil : str = [] ↔ str' = [] := by
    rw [← List.head?_eq_none_iff, ← List.head?_eq_none_iff, h]
  rw [cmdIpv6PrefixStep, cmdIpv6PrefixStep]
  simp only [h, hnil, ne_eq]

/-- What may follow a number. -/
def IsAhead (str : CString) : Prop :=
  str = [] ∨ str.head? = some ':' ∨ str.head? = some '.' ∨ str.head? = some '/'

instance : DecidablePred IsAhead := fun str =>
  inferInstanceAs (Decidable (str = [] ∨ str.head? = some ':' ∨ str.head? = some '.' ∨
    str.head? = some '/'))

/-- A character of a group before a separator closes the group. -/
theorem cmdIpv6PrefixStep_addr (hv : v.state = .addr) (hahead : IsAhead str)
    (h : cmdIpv6PrefixStep v c str = .ok v') :
    v.group.length ≤ 3 ∧ '/' ∉ v.group ++ [c] ∧ v'.nums = v.nums + 1 ∧ v'.colons = v.colons ∧
      v'.group = [] ∧ v'.state = if str.head? = some ':' then .colon
        else if str.head? = some '.' then .dot
        else if str.head? = some '/' then .slash else .addr := by
  rw [IsAhead] at hahead
  rw [cmdIpv6PrefixStep, hv] at h
  dsimp only at h
  rw [if_pos hahead] at h
  split_ifs at h with hlen hslash
  all_goals
    cases h
    exact ⟨not_lt.1 hlen, hslash, rfl, rfl, rfl, by simp [*]⟩

/-- One before another character is added to it. -/
theorem cmdIpv6PrefixStep_addr_of_not (hv : v.state = .addr) (hahead : ¬IsAhead str) :
    cmdIpv6PrefixStep v c str = .ok { v with group := v.group ++ [c] } := by
  rw [cmdIpv6PrefixStep, hv]
  exact if_neg hahead

/-- A number that is accepted when there is more to come is so at its end. -/
theorem cmdIpv6PrefixLoop_number (hv : v.state = .addr)
    (h : cmdIpv6PrefixLoop v (c :: str) = .ok m) :
    v.group.length ≤ 3 ∧ '/' ∉ v.group ++ [c] ∧ v.nums + 1 ≤ 11 ∧ v.colons ≤ 7 := by
  induction str generalizing v c with
  | nil =>
    obtain ⟨v', hstep, hn, hc, -⟩ := cmdIpv6PrefixLoop_eq_ok (hv.trans_ne (by decide)) h
    obtain ⟨hlen, hslash, hnums, hcolons, -⟩ := cmdIpv6PrefixStep_addr hv (.inl rfl) hstep
    exact ⟨hlen, hslash, by omega, by omega⟩
  | cons d str ih =>
    obtain ⟨v', hstep, hn, hc, hloop⟩ := cmdIpv6PrefixLoop_eq_ok (hv.trans_ne (by decide)) h
    by_cases hahead : IsAhead (d :: str)
    · obtain ⟨hlen, hslash, hnums, hcolons, -⟩ := cmdIpv6PrefixStep_addr hv hahead hstep
      exact ⟨hlen, hslash, by omega, by omega⟩
    · rw [cmdIpv6PrefixStep_addr_of_not hv hahead] at hstep
      cases hstep
      obtain ⟨hlen, hslash, hnums, hcolons⟩ := ih (v := { v with group := v.group ++ [c] }) hv hloop
      rw [List.length_append] at hlen
      exact ⟨by omega, fun hmem => hslash (List.mem_append_left _ hmem), hnums, hcolons⟩

/-- A colon or a dot that is accepted when there is more to come is so at its end. -/
theorem cmdIpv6PrefixStep_nil (hv : v.state = .colon ∨ v.state = .double ∨ v.state = .dot)
    (h : cmdIpv6PrefixStep v c str = .ok v') :
    ∃ v₁, cmdIpv6PrefixStep v c [] = .ok v₁ ∧ v₁.state ≠ .mask ∧ v₁.nums ≤ v'.nums ∧
      v₁.colons ≤ v'.colons := by
  have haddr : Ipv6State.addr ≠ .mask := by decide
  -- A step looks at the character after its own; at the end of the text it passes fewer checks.
  rcases hv with hv | hv | hv
  · refine ⟨{ v with state := .addr, colons := v.colons + 1, group := [] }, ?_, haddr, ?_⟩
    · rw [cmdIpv6PrefixStep, hv]
      rfl
    · rw [cmdIpv6PrefixStep, hv] at h
      dsimp only at h
      split_ifs at h <;> cases h <;> exact ⟨le_rfl, le_rfl⟩
  · rw [cmdIpv6PrefixStep, hv] at h
    dsimp only at h
    have hzero : v.doubleColon = 0 := by
      by_contra hne
      rw [if_pos hne] at h
      cases h
    refine ⟨{ v with state := .addr, nums := v.nums + 1, doubleColon := v.doubleColon + 1,
                     group := [] }, ?_, haddr, ?_⟩
    · rw [cmdIpv6PrefixStep, hv]
      exact if_neg (not_not.2 hzero)
    · split_ifs at h <;> cases h <;> exact ⟨le_rfl, by dsimp only; omega⟩
  · rw [cmdIpv6PrefixStep, hv] at h
    cases h
    exact ⟨{ v with state := .addr, group := v.group ++ [c] }, by rw [cmdIpv6PrefixStep, hv],
      haddr, le_rfl, le_rfl⟩

/-- The loop is not ended by the end of the string. -/
theorem cmdIpv6PrefixLoop_singleton (hmask : v.state ≠ .mask)
    (h : cmdIpv6PrefixLoop v (c :: str) = .ok m) :
    cmdIpv6PrefixLoop v [c] = .error .partlyMatch := by
  obtain ⟨v', hstep, hn, hc, -⟩ := cmdIpv6PrefixLoop_eq_ok hmask h
  have hend (hv : v.state = .colon ∨ v.state = .double ∨ v.state = .dot) :
      cmdIpv6PrefixLoop v [c] = .error .partlyMatch := by
    obtain ⟨v₁, hstep₁, hmask₁, hn₁, hc₁⟩ := cmdIpv6PrefixStep_nil hv hstep
    rw [cmdIpv6PrefixLoop_step hmask hstep₁ (hn₁.trans hn) (hc₁.trans hc), cmdIpv6PrefixLoop,
      if_neg hmask₁]
  -- In the states of a separator the step does not depend on what follows; within a group, its
  -- length was fine.
  cases hv : v.state with
  | colon => exact hend (.inl hv)
  | double => exact hend (.inr (.inl hv))
  | addr =>
    obtain ⟨hlen, hslash, hnums, hcolons⟩ := cmdIpv6PrefixLoop_number hv h
    have hstep₁ : cmdIpv6PrefixStep v c [] = .ok { v with nums := v.nums + 1, group := [] } := by
      rw [cmdIpv6PrefixStep, hv]
      simp [not_lt.2 hlen, hslash]
    rw [cmdIpv6PrefixLoop_step hmask hstep₁ hnums hcolons, cmdIpv6PrefixLoop]
    exact if_neg hmask
  | dot => exact hend (.inr (.inr hv))
  | slash =>
    rw [cmdIpv6PrefixLoop, if_neg hmask, cmdIpv6PrefixStep, hv]
    rfl
  | mask => exact absurd hv hmask

/-- What the loop makes of a prefix of a string that it accepts. -/
theorem cmdIpv6PrefixLoop_of_isPrefix (hmask : v.state ≠ .mask)
    (h : cmdIpv6PrefixLoop v s = .ok m) (hp : p <+: s) :
    cmdIpv6PrefixLoop v p = .error .partlyMatch ∨
      ∃ m', m' <+: m ∧ m' ≠ [] ∧ cmdIpv6PrefixLoop v p = .ok m' := by
  induction s generalizing v p with
  | nil =>
    rw [cmdIpv6PrefixLoop, if_neg hmask] at h
    cases h
  | cons c str ih =>
    rcases p with _ | ⟨c', str'⟩
    · exact .inl (by rw [cmdIpv6PrefixLoop, if_neg hmask])
    obtain ⟨rfl, hstr⟩ := List.cons_prefix_cons.1 hp
    rcases str' with _ | ⟨d, str'⟩
    · exact .inl (cmdIpv6PrefixLoop_singleton hmask h)
    · obtain ⟨v', hstep, hn, hc, hloop⟩ := cmdIpv6PrefixLoop_eq_ok hmask h
      have hhead : str.head? = (d :: str').head? := by
        obtain ⟨t, rfl⟩ := hstr
        rfl
      rw [cmdIpv6PrefixStep_congr hhead] at hstep
      rw [cmdIpv6PrefixLoop_step hmask hstep hn hc]
      -- At the mask the loop stops, and what is typed of it is left.
      by_cases hmask' : v'.state = .mask
      · rw [cmdIpv6PrefixLoop_mask' hmask'] at hloop ⊢
        cases hloop
        exact .inr ⟨d :: str', hstr, List.cons_ne_nil d str', rfl⟩
      · exact ih hmask' hloop hstr

/-! ## The mask -/

/-- Where the loop stands: which character comes next, or that no slash has been read. -/
def Follows (v : Ipv6Vars) (s : CString) : Prop :=
  match v.state with
  | .colon | .double => s.head? = some ':'
  | .addr => '/' ∉ v.group
  | .dot => s.head? = some '.' ∧ '/' ∉ v.group
  | .slash => s.head? = some '/'
  | .mask => True

/-- A step goes on to where the loop should stand. -/
theorem Follows.step (h : Follows v (c :: str)) (hstep : cmdIpv6PrefixStep v c str = .ok v')
    (hmask : v.state ≠ .mask) (hslash : v.state ≠ .slash) (hc : c ≠ '/') :
    Follows v' str ∧ v'.state ≠ .mask := by
  rw [Follows] at h
  cases hv : v.state with
  | colon | double =>
    rw [cmdIpv6PrefixStep, hv] at hstep
    dsimp only at hstep
    split_ifs at hstep with h₁ h₂ <;> cases hstep <;> simp_all [Follows]
  | addr =>
    rw [hv] at h
    -- The next state is that of the separator ahead, or the same one.
    by_cases hahead : IsAhead str
    · obtain ⟨-, -, -, -, hgroup, hstate⟩ := cmdIpv6PrefixStep_addr hv hahead hstep
      rw [Follows, hstate, hgroup]
      split_ifs <;> simp_all
    · rw [cmdIpv6PrefixStep_addr_of_not hv hahead] at hstep
      cases hstep
      simp [Follows, hv, h, Ne.symm hc]
  | dot =>
    rw [hv] at h
    rw [cmdIpv6PrefixStep, hv] at hstep
    cases hstep
    simp [Follows, h.2, Ne.symm hc]
  | slash => exact absurd hv hslash
  | mask => exact absurd hv hmask

/-- What the loop accepts: the mask is all that comes after the only slash before it. -/
theorem cmdIpv6PrefixLoop_split (hmask : v.state ≠ .mask) (hfollows : Follows v s)
    (h : cmdIpv6PrefixLoop v s = .ok m) : m ≠ [] ∧ ∃ a, s = a ++ '/' :: m ∧ '/' ∉ a := by
  induction s generalizing v with
  | nil =>
    rw [cmdIpv6PrefixLoop, if_neg hmask] at h
    cases h
  | cons c str ih =>
    obtain ⟨v', hstep, -, -, hloop⟩ := cmdIpv6PrefixLoop_eq_ok hmask h
    -- The loop comes to the mask through the slash only, which is not accepted anywhere else.
    by_cases hslash : v.state = .slash
    · rw [Follows, hslash] at hfollows
      obtain rfl := Option.some.inj hfollows
      rw [cmdIpv6PrefixStep, hslash] at hstep
      dsimp only at hstep
      split_ifs at hstep with hnil
      cases hstep
      rw [cmdIpv6PrefixLoop_mask' rfl] at hloop
      cases hloop
      exact ⟨hnil, [], rfl, List.not_mem_nil⟩
    · have hc : c ≠ '/' := by
        rintro rfl
        rw [Follows] at hfollows
        cases hv : v.state with
        | addr => exact (cmdIpv6PrefixLoop_number hv h).2.1 (by simp)
        | colon | double | dot => simp [hv] at hfollows
        | slash => exact hslash hv
        | mask => exact hmask hv
      obtain ⟨hfollows', hmask'⟩ := hfollows.step hstep hmask hslash hc
      obtain ⟨hne, a, rfl, ha⟩ := ih hmask' hfollows' hloop
      exact ⟨hne, c :: a, rfl, List.not_mem_cons_of_ne_of_not_mem (Ne.symm hc) ha⟩

/-! ## The matcher -/

/-- The loop does not return early on what it accepts. -/
theorem cmdIpv6PrefixLoop_ne (v : Ipv6Vars) (s : CString) :
    cmdIpv6PrefixLoop v s ≠ .error .exactMatch := by
  have hstep (v : Ipv6Vars) (c : Char) (str : CString) :
      cmdIpv6PrefixStep v c str ≠ .error .exactMatch := by
    intro h
    rw [cmdIpv6PrefixStep] at h
    cases hv : v.state with
    | dot | mask => simp [hv] at h
    | colon | double | addr | slash =>
      rw [hv] at h
      dsimp only at h
      split_ifs at h <;> cases h
  induction s generalizing v with
  | nil =>
    rw [cmdIpv6PrefixLoop]
    split_ifs <;> simp
  | cons c str ih =>
    rw [cmdIpv6PrefixLoop]
    split_ifs
    · simp
    · rcases hres : cmdIpv6PrefixStep v c str with ret | v'
      · intro h
        obtain rfl : ret = .exactMatch := Except.error.inj h
        exact hstep v c str hres
      · dsimp only
        split_ifs
        · simp
        · simp
        · exact ih v'

/-- The start is before the mask, in a state that the first character follows. -/
theorem ipv6Start_state {c : Char} (h : ipv6Start c str = .ok v) :
    v.state ≠ .mask ∧ Follows v (c :: str) := by
  rw [ipv6Start] at h
  split_ifs at h with hc
  · cases h
    exact ⟨by decide, congrArg some hc⟩
  · cases h
    exact ⟨by decide, List.not_mem_nil⟩

/-- The checks before the loop pass, where a start is chosen. -/
theorem cmdIpv6PrefixMatch_of_start (hchars : ∀ d ∈ c :: str, d ∈ ipv6PrefixStr)
    (hstart : ipv6Start c str = .ok v) :
    cmdIpv6PrefixMatch (some (c :: str)) = prefixVerdict (cmdIpv6PrefixLoop v (c :: str)) := by
  simp only [cmdIpv6PrefixMatch, if_neg (not_not.2 (strspn_eq_length.2 hchars)), hstart]
  rcases cmdIpv6PrefixLoop v (c :: str) with ret | m <;> rfl

/-- What the matcher does on a string that it accepts. -/
theorem cmdIpv6PrefixMatch_eq_exactMatch (h : cmdIpv6PrefixMatch (some s) = .exactMatch) :
    (∀ c ∈ s, c ∈ ipv6PrefixStr) ∧ ∃ c str v m, s = c :: str ∧ ipv6Start c str = .ok v ∧
      cmdIpv6PrefixLoop v s = .ok m ∧ ipv6Mask m = .exactMatch := by
  have hchars : ∀ c ∈ s, c ∈ ipv6PrefixStr := by
    by_contra hspan
    rw [← strspn_eq_length] at hspan
    simp only [cmdIpv6PrefixMatch, if_pos hspan] at h
    cases h
  refine ⟨hchars, ?_⟩
  rcases s with _ | ⟨c, str⟩
  · cases h
  -- Neither the start nor the loop returns an exact match by itself.
  rcases hstart : ipv6Start c str with ret | v
  · obtain rfl : ret = .exactMatch := by
      simpa only [cmdIpv6PrefixMatch, if_neg (not_not.2 (strspn_eq_length.2 hchars)), hstart]
        using h
    rw [ipv6Start] at hstart
    split_ifs at hstart
    cases hstart
  · rw [cmdIpv6PrefixMatch_of_start hchars hstart] at h
    rcases hloop : cmdIpv6PrefixLoop v (c :: str) with ret | m
    · rw [hloop] at h
      obtain rfl : ret = .exactMatch := h
      exact absurd hloop (cmdIpv6PrefixLoop_ne _ _)
    · rw [hloop] at h
      exact ⟨c, str, v, m, rfl, hstart, hloop, h⟩

/-- The address and the mask of what is accepted. -/
theorem cmdIpv6PrefixMatch_split (h : cmdIpv6PrefixMatch (some s) = .exactMatch) :
    ∃ a m, s = a ++ '/' :: m ∧ '/' ∉ a ∧ m ≠ [] ∧ ipv6Mask m = .exactMatch := by
  obtain ⟨-, c, str, v, m, rfl, hstart, hloop, hmask⟩ := cmdIpv6PrefixMatch_eq_exactMatch h
  obtain ⟨hstate, hfollows⟩ := ipv6Start_state hstart
  obtain ⟨hne, a, ha, hslash⟩ := cmdIpv6PrefixLoop_split hstate hfollows hloop
  exact ⟨a, m, ha, hslash, hne, hmask⟩

/-- A text with one slash is split in one way only. -/
theorem split_unique {a a' m m' : CString} (ha : '/' ∉ a) (ha' : '/' ∉ a')
    (h : a ++ '/' :: m = a' ++ '/' :: m') : a = a' ∧ m = m' := by
  have hprefix : a ++ '/' :: m <+: a' ++ '/' :: m' := h ▸ List.prefix_rfl
  obtain ⟨rfl, -⟩ := (Fields.prefix_append_cons ha ha').1 hprefix
  exact ⟨rfl, (List.cons.inj (List.append_cancel_left h)).2⟩

/-- A string that is accepted is not rejected while it is typed. -/
theorem cmdIpv6PrefixMatch_of_isPrefix {a q : CString} (ha : '/' ∉ a) (hm : IsDigits m)
    (hval : decimal m ≤ 128) (h : cmdIpv6PrefixMatch (some (a ++ '/' :: m)) = .exactMatch)
    (hq : q <+: a ++ '/' :: m) : cmdIpv6PrefixMatch (some q) ≠ .noMatch := by
  obtain ⟨hchars, c, str, v, m', hs, hstart, hloop, -⟩ := cmdIpv6PrefixMatch_eq_exactMatch h
  obtain ⟨hstate, hfollows⟩ := ipv6Start_state hstart
  obtain ⟨-, a', ha', hslash'⟩ := cmdIpv6PrefixLoop_split hstate (hs ▸ hfollows) hloop
  obtain ⟨rfl, rfl⟩ := split_unique ha hslash' ha'
  rw [hs] at hloop hq hchars
  rcases q with _ | ⟨c', str'⟩
  · decide
  obtain ⟨rfl, hstr⟩ := List.cons_prefix_cons.1 hq
  -- The start of the scanner looks one character ahead, too.
  have hstart' : ipv6Start c' str' = .ok v := by
    obtain ⟨t, rfl⟩ := hstr
    rw [ipv6Start] at hstart ⊢
    rcases str' with _ | ⟨d, str'⟩
    · split_ifs at hstart ⊢ <;> simp_all
    · simpa using hstart
  rw [cmdIpv6PrefixMatch_of_start (fun d hd => hchars d (hq.subset hd)) hstart']
  rcases cmdIpv6PrefixLoop_of_isPrefix hstate hloop hq with hpartly | ⟨m', ⟨t, rfl⟩, hne', hok⟩
  · rw [hpartly]
    decide
  · have hdigits : IsDigits m' := fun c hc => hm c (List.mem_append_left t hc)
    have hexact := ipv6Mask_eq_exactMatch hdigits hne' ((le_decimal_append m' t).trans hval)
    rw [hok, prefixVerdict, hexact]
    decide

/-! ## While it is typed -/

/-- What has been typed of an address, or of a prefix, is not rejected. -/
theorem cmdIpv6Match_typed {a : CString} (ha : IsHexText a) :
    (∀ p, p <+: a → cmdIpv6Match (some p) ≠ .noMatch) ∧ cmdIpv6Match (some a) = .exactMatch ∧
      ∀ m, m ≠ [] → IsDigits m → decimal m ≤ 128 →
        (∀ q, q <+: a ++ '/' :: m → cmdIpv6PrefixMatch (some q) ≠ .noMatch) ∧
          cmdIpv6PrefixMatch (some (a ++ '/' :: m)) = .exactMatch := by
  obtain ⟨f, fs, rfl, hfs, hpattern, hends⟩ := ha.exists_fields
  have htyped (p) (hp : p <+: joined (f :: fs)) : cmdIpv6Match (some p) = .exactMatch :=
    cmdIpv6Match_of_isPrefix hfs hpattern hp
  refine ⟨fun p hp => ?_, htyped _ List.prefix_rfl, fun m hne hm hval => ?_⟩
  · rw [htyped p hp]
    decide
  · have hslash : '/' ∉ joined (f :: fs) := fun hmem =>
      absurd (joined_mem hfs _ hmem) (by decide)
    have hexact := cmdIpv6PrefixMatch_joined hfs hpattern hends hm hne hval
    exact ⟨fun q hq => cmdIpv6PrefixMatch_of_isPrefix hslash hm hval hexact hq, hexact⟩

/-- A prefix, as it is typed. -/
theorem cmdIpv6Match_typed_linkLocal :
    (∀ q, q <+: "fe80::1".toList ++ '/' :: "64".toList → cmdIpv6PrefixMatch (some q) ≠ .noMatch) ∧
      cmdIpv6PrefixMatch (some ("fe80::1".toList ++ '/' :: "64".toList)) = .exactMatch :=
  (cmdIpv6Match_typed (IsHexText.compressed ["fe80".toList] ["1".toList] (by decide) (by decide)
    (by decide))).2.2 "64".toList (by decide) (by decide) (by decide)

end Mksh.Ipv6
