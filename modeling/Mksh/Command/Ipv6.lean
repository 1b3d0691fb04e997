import Mksh.Command.Ipv4
import Mksh.Command.Ipv6.Match

/-!
# IPv6 addresses and prefixes

The scanner for IPv6 prefixes is a copy of the one for addresses, with a slash and a
mask. But it counts numbers and their digits from one dot to the next, whereas the
scanner for addresses takes what stands between two colons for one number: an address
that ends in an IPv4 address is only found in a prefix. And the copy notices at the slash
what the original does not at the end of the string, a single colon or a dot.

It is followed along a reading in the same way (`prefixRest`, `cmdIpv6PrefixMatch_text`), and
`scanners_agree_iff` tells the strings on which the two agree.
-/

namespace Mksh.Ipv6

open CString

variable {v : Ipv6Vars} {doubles : ℕ} {n : ℤ} {p r : CString} {g h : List CString}
  {gs : List (List CString)}

/-- Where the scanners disagree: either all groups are short, but the string ends too early or has
    too many parts, or else all parts are short, but some group is not. -/
def Differs (a : CString) : Prop :=
  ∃ r : Reading, r.text = a ∧ (∀ c ∈ a, c ∈ ipv6AddrStr) ∧ r.IsShape ∧
    ((∀ g ∈ closedGroups r.dot (r.head :: r.rest), (groupText g).length ≤ 4) ∧
        (¬r.IsComplete ∨ 11 < r.numbers) ∨
      r.IsComplete ∧ r.numbers ≤ 11 ∧ (∀ g ∈ r.head :: r.rest, ShortParts g) ∧
        ∃ g ∈ r.head :: r.rest, 4 < (groupText g).length)

/-! ## The scanner for prefixes -/

/-- What follows a part, or a group, of a prefix. -/
def IsPrefixEnd (r : CString) : Prop :=
  r.head? = some ':' ∨ r.head? = some '.' ∨ r.head? = some '/'

/-- The state after a part, or a group. -/
def stateAt (r : CString) : Ipv6State :=
  if r.head? = some ':' then .colon else if r.head? = some '.' then .dot else .slash

/-- A character of a part, before the last one. -/
theorem cmdIpv6PrefixLoop_addr {c d : Char} (hv : v.state = .addr)
    (hd : d ≠ ':' ∧ d ≠ '.' ∧ d ≠ '/') (r : CString) :
    cmdIpv6PrefixLoop v (c :: d :: r) =
      if v.nums > 11 ∨ v.colons > 7 then .error .noMatch
      else cmdIpv6PrefixLoop { v with group := v.group ++ [c] } (d :: r) := by
  have hmask : v.state ≠ .mask := hv.trans_ne (by decide)
  rw [cmdIpv6PrefixLoop, if_neg hmask, cmdIpv6PrefixStep, hv]
  by_cases hn : v.nums > 11
  · simp [hd, hn]
  · simp [hd, hn]

/-- The characters of a part. -/
theorem cmdIpv6PrefixLoop_part (hp : IsPart p) (hr : IsPrefixEnd r) (hslash : '/' ∉ v.group ++ p)
    (hv : v.state = .addr) (hn : v.nums ≤ 11) (hc : v.colons ≤ 7) :
    cmdIpv6PrefixLoop v (p ++ r) =
      if (v.group ++ p).length ≤ 4 ∧ v.nums + 1 ≤ 11 then
        cmdIpv6PrefixLoop { v with state := stateAt r, nums := v.nums + 1, group := [] } r
      else .error .noMatch := by
  induction p generalizing v with
  | nil => exact absurd rfl hp.1
  | cons c p ih =>
    have hnums : ¬v.nums > 11 := by omega
    have hcolons : ¬v.colons > 7 := by omega
    rcases p with _ | ⟨d, p⟩
    · have hmask : v.state ≠ .mask := hv.trans_ne (by decide)
      have hend : r = [] ∨ r.head? = some ':' ∨ r.head? = some '.' ∨ r.head? = some '/' := .inr hr
      rw [List.cons_append, cmdIpv6PrefixLoop, if_neg hmask, cmdIpv6PrefixStep, hv,
        List.nil_append]
      simp only [if_pos hend, if_neg hslash, List.length_append, List.length_singleton]
      -- The last character closes the part: its length is checked first, then the number of
      -- parts.
      by_cases hlen : v.group.length > 3
      · rw [if_pos hlen, if_neg (by omega)]
      · rw [if_neg hlen]
        by_cases hlast : v.nums + 1 > 11
        · rw [if_neg (show ¬(v.group.length + 1 ≤ 4 ∧ v.nums + 1 ≤ 11) by omega)]
          simp only [if_pos hlast]
        · rw [if_pos (show v.group.length + 1 ≤ 4 ∧ v.nums + 1 ≤ 11 by omega)]
          have hstate : (if r.head? = some ':' then Ipv6State.colon
              else if r.head? = some '.' then .dot
              else if r.head? = some '/' then .slash else .addr) = stateAt r := by
            rw [stateAt]
            rcases hr with h | h | h <;> simp [h]
          simp only [if_neg hlast, if_neg hcolons, hstate]
    · obtain ⟨hd, htail⟩ := List.forall_mem_cons.1 hp.2
      -- Any other one is added to the group.
      have hpart : IsPart (d :: p) := ⟨List.cons_ne_nil d p, htail⟩
      have hd' : d ≠ '/' := by
        rintro rfl
        exact hslash (by simp)
      have hih := ih (v := { v with group := v.group ++ [c] }) hpart
        (by simpa using hslash) hv hn hc
      rw [List.append_assoc, List.singleton_append] at hih
      rw [List.cons_append, List.cons_append, cmdIpv6PrefixLoop_addr hv ⟨hd.1, hd.2, hd'⟩,
        if_neg (not_or.2 ⟨hnums, hcolons⟩)]
      exact hih

/-- The characters of a group, the first part of which has the characters of `v.group` already. -/
theorem cmdIpv6PrefixLoop_parts {ps : List CString} (hparts : ∀ q ∈ p :: ps, IsPart q)
    (hr : IsPrefixEnd r) (hslash : '/' ∉ v.group ++ groupText (p :: ps)) (hv : v.state = .addr)
    (hn : v.nums ≤ 11) (hc : v.colons ≤ 7) :
    cmdIpv6PrefixLoop v (groupText (p :: ps) ++ r) =
      if ((v.group ++ p).length ≤ 4 ∧ ∀ q ∈ ps, q.length ≤ 3) ∧
          v.nums + (p :: ps).length ≤ 11 then
        cmdIpv6PrefixLoop
          { v with state := stateAt r, nums := v.nums + (p :: ps).length, group := [] } r
      else .error .noMatch := by
  induction ps generalizing v p with
  | nil =>
    rw [groupText, List.intercalate_singleton] at hslash ⊢
    rw [cmdIpv6PrefixLoop_part (hparts p List.mem_cons_self) hr hslash hv hn hc]
    exact if_congr (by simp) rfl rfl
  | cons q ps ih =>
    obtain ⟨hp, hps⟩ := List.forall_mem_cons.1 hparts
    have hend : IsPrefixEnd ('.' :: (groupText (q :: ps) ++ r)) := .inr (.inl rfl)
    rw [groupText, Fields.intercalate_cons, ← groupText] at hslash ⊢
    rw [List.append_assoc, List.cons_append, cmdIpv6PrefixLoop_part hp hend ?_ hv hn hc]
    · -- After a dot the group starts with it, so that the next part has one character less.
      by_cases hlast : v.nums + 1 ≤ 11
      · have hdot : stateAt ('.' :: (groupText (q :: ps) ++ r)) = .dot := rfl
        have hnums : ¬v.nums + 1 > 11 := by omega
        have hcolons : ¬v.colons > 7 := by omega
        have hih := ih (v := { v with state := .addr, nums := v.nums + 1, group := ['.'] }) hps
          (by simp at hslash ⊢; exact hslash.2.2) rfl hlast hc
        have hmask : Ipv6State.dot ≠ .mask := by decide
        have hshort : ((['.'] ++ q).length ≤ 4 ∧ ∀ x ∈ ps, x.length ≤ 3) ↔
            ∀ x ∈ q :: ps, x.length ≤ 3 := by
          rw [List.forall_mem_cons, List.singleton_append, List.length_cons]
          exact and_congr_left fun _ => by omega
        have hlength : v.nums + 1 + (q :: ps).length = v.nums + (p :: q :: ps).length := by
          simp only [List.length_cons]
          omega
        rw [hdot, cmdIpv6PrefixLoop, if_neg hmask, cmdIpv6PrefixStep]
        simp only [hnums, hcolons, if_false, List.nil_append, hih, hshort, hlength]
        by_cases hlen : (v.group ++ p).length ≤ 4
        · simp only [hlen, hlast, true_and, if_true]
        · simp only [hlen, false_and, if_false]
      · rw [if_neg fun h => hlast h.2, if_neg fun h => hlast (by simp at h; omega)]
    · simp at hslash ⊢
      exact ⟨hslash.1, hslash.2.1⟩

/-- The groups of a part are read if they are short, and there are not too many. -/
theorem cmdIpv6PrefixLoop_group (hg : IsGroup g) (hr : IsPrefixEnd r) (hslash : '/' ∉ groupText g)
    (hne : g ≠ []) (hv : v.state = .addr) (hempty : v.group = []) (hn : v.nums ≤ 11)
    (hc : v.colons ≤ 7) :
    cmdIpv6PrefixLoop v (groupText g ++ r) =
      if ShortParts g ∧ v.nums + g.length ≤ 11 then
        cmdIpv6PrefixLoop { v with state := stateAt r, nums := v.nums + g.length, group := [] } r
      else .error .noMatch := by
  obtain ⟨p, ps, rfl⟩ := List.exists_cons_of_ne_nil hne
  rw [cmdIpv6PrefixLoop_parts hg.1 hr (by rwa [hempty]) hv hn hc, hempty, List.nil_append]
  rfl

/-- A colon after a group: another group or a second colon is next, no slash. -/
theorem cmdIpv6PrefixLoop_colon (hv : v.state = .colon) (hn : v.nums ≤ 11) (r : CString) :
    cmdIpv6PrefixLoop v (':' :: r) =
      if r.head? = some '/' ∨ v.colons + 1 > 7 then .error .noMatch
      else if r.head? = some ':' then
        cmdIpv6PrefixLoop
          { v with state := .double, colons := v.colons + 1, group := v.group ++ [':'] } r
      else cmdIpv6PrefixLoop { v with state := .addr, colons := v.colons + 1, group := [] } r := by
  have hnums : ¬v.nums > 11 := by omega
  have hmask : v.state ≠ .mask := hv.trans_ne (by decide)
  rw [cmdIpv6PrefixLoop, if_neg hmask, cmdIpv6PrefixStep, hv]
  by_cases hslash : r.head? = some '/'
  · simp [hslash]
  · by_cases hr : r.head? = some ':'
    · simp [hr, hnums]
    · simp [hslash, hr, hnums]

/-- The second one of two colons: it is the only one, and no third follows. -/
theorem cmdIpv6PrefixLoop_double (hv : v.state = .double) (hne : r ≠ []) :
    cmdIpv6PrefixLoop v (':' :: r) =
      if v.doubleColon ≠ 0 ∨ r.head? = some ':' ∨ v.nums + 1 > 11 then .error .noMatch
      else if r.head? = some '/' then
        if v.colons > 7 then .error .noMatch
        else cmdIpv6PrefixLoop { v with
          state := .slash, nums := v.nums + 1, doubleColon := v.doubleColon + 1, group := [] } r
      else if v.colons + 1 > 7 then .error .noMatch
      else cmdIpv6PrefixLoop { v with
        state := .addr, colons := v.colons + 1, nums := v.nums + 1,
        doubleColon := v.doubleColon + 1, group := [] } r := by
  have hmask : v.state ≠ .mask := hv.trans_ne (by decide)
  rw [cmdIpv6PrefixLoop, if_neg hmask, cmdIpv6PrefixStep, hv]
  by_cases hd : v.doubleColon = 0
  · by_cases hr : r.head? = some ':'
    · simp [hd, hr]
    · by_cases hlast : v.nums + 1 > 11
      · simp [hd, hr, hlast]
      · by_cases hslash : r.head? = some '/'
        · simp [hd, hne, hlast, hslash]
        · simp [hd, hr, hne, hlast, hslash]
  · simp [hd]

/-- What the scanner makes of the groups after a number, with `k` numbers so far. -/
structure IsPrefixRest (doubles : ℕ) (n : ℤ) (k : ℕ) (gs : List (List CString)) : Prop where
  isRest : IsRest doubles n gs
  endsWell : EndsWell gs
  numbers_le : k + (gs.map List.length).sum + gs.dropLast.count [] ≤ 11
  short : ∀ g ∈ gs, ShortParts g

variable {k : ℕ}

/-- With no groups left, only the counts are checked. -/
theorem isPrefixRest_nil : IsPrefixRest doubles n k [] ↔ doubles ≤ 1 ∧ n ≤ 7 ∧ k ≤ 11 := by
  constructor
  · intro h
    obtain ⟨hd, hn⟩ := isRest_nil.1 h.isRest
    exact ⟨hd, hn, h.numbers_le⟩
  · rintro ⟨hd, hn, hk⟩
    exact ⟨isRest_nil.2 ⟨hd, hn⟩, .inl (by simp), hk, List.forall_mem_nil _⟩

/-- A group that is not empty does not change how the text ends. -/
theorem endsWell_cons (hg : g ≠ []) : EndsWell (g :: gs) ↔ EndsWell gs := by
  rw [EndsWell, EndsWell, suffix_cons_iff hg]
  rcases gs with _ | ⟨h, gs⟩
  · simp [hg]
  · rw [List.getLast?_cons_cons]

/-- Nor does an empty one before one that is not. -/
theorem endsWell_nil_cons (hh : h ≠ []) : EndsWell ([] :: h :: gs) ↔ EndsWell gs := by
  have hcons : EndsWell (h :: gs) ↔ EndsWell gs := endsWell_cons hh
  rw [← hcons, EndsWell, EndsWell, suffix_nil_cons_iff hh, suffix_cons_iff hh,
    List.getLast?_cons_cons]

/-- A group adds one to the colons, and its parts to the numbers. -/
theorem isPrefixRest_cons (hg : g ≠ []) : IsPrefixRest doubles n k (g :: gs) ↔
    ShortParts g ∧ IsPrefixRest doubles (n + 1) (k + g.length) gs := by
  have hcount := count_dropLast_cons hg gs
  constructor
  · rintro ⟨hrest, hends, hk, hshort⟩
    obtain ⟨hg', hgs⟩ := List.forall_mem_cons.1 hshort
    rw [hcount, List.map_cons, List.sum_cons] at hk
    exact ⟨hg', (isRest_cons hg).1 hrest, (endsWell_cons hg).1 hends, by omega, hgs⟩
  · rintro ⟨hg', hrest, hends, hk, hgs⟩
    refine ⟨(isRest_cons hg).2 hrest, (endsWell_cons hg).2 hends, ?_,
      List.forall_mem_cons.2 ⟨hg', hgs⟩⟩
    rw [hcount, List.map_cons, List.sum_cons]
    omega

/-- A single colon does not end an address. -/
theorem not_isPrefixRest_singleton : ¬IsPrefixRest doubles n k [[]] := by
  intro h
  rcases h.endsWell with h | h
  · exact h rfl
  · exact absurd h.length_le (by decide)

/-- Two colons may, if they are the only ones. -/
theorem isPrefixRest_double :
    IsPrefixRest doubles n k [[], []] ↔ doubles = 0 ∧ n + 1 ≤ 7 ∧ k + 1 ≤ 11 := by
  constructor
  · intro h
    obtain ⟨hd, hn⟩ := isRest_double.1 h.isRest
    exact ⟨hd, hn, h.numbers_le⟩
  · rintro ⟨hd, hn, hk⟩
    exact ⟨isRest_double.2 ⟨hd, hn⟩, .inr List.suffix_rfl, hk,
      List.forall_mem_cons.2 ⟨trivial, List.forall_mem_singleton.2 trivial⟩⟩

/-- Two colons before a group, if they are the only ones. -/
theorem isPrefixRest_nil_cons (hh : h ≠ []) : IsPrefixRest doubles n k ([] :: h :: gs) ↔
    doubles = 0 ∧ ShortParts h ∧ IsPrefixRest 1 (n + 2) (k + 1 + h.length) gs := by
  have hcount := count_dropLast_nil_cons hh gs
  have hsum : (([] :: h :: gs).map List.length).sum = h.length + (gs.map List.length).sum := by
    simp
  constructor
  · rintro ⟨hrest, hends, hk, hshort⟩
    obtain ⟨hd, hrest⟩ := (isRest_nil_cons hh).1 hrest
    obtain ⟨hh', hgs⟩ := List.forall_mem_cons.1 (List.forall_mem_cons.1 hshort).2
    rw [hcount, hsum] at hk
    exact ⟨hd, hh', hrest, (endsWell_nil_cons hh).1 hends, by omega, hgs⟩
  · rintro ⟨hd, hh', hrest, hends, hk, hgs⟩
    refine ⟨(isRest_nil_cons hh).2 ⟨hd, hrest⟩, (endsWell_nil_cons hh).2 hends, ?_,
      List.forall_mem_cons.2 ⟨trivial, List.forall_mem_cons.2 ⟨hh', hgs⟩⟩⟩
    rw [hcount, hsum]
    omega

/-- The verdict after the loop. -/
def prefixVerdict : Except MatchType CString → MatchType
  | .error ret => ret
  | .ok str => ipv6Mask str

variable {m : CString} {dot : Bool}

/-- A digit is no colon, no dot and no slash. -/
theorem isdigit_ne' {d : Char} (hd : isdigit d) : d ≠ ':' ∧ d ≠ '.' ∧ d ≠ '/' := by
  refine ⟨?_, (isdigit_ne hd).2, (isdigit_ne hd).1⟩
  rintro rfl
  exact absurd hd (by decide)

/-- The digits after a slash that belongs to a number. -/
theorem cmdIpv6PrefixLoop_digits (hm : IsDigits m) (hv : v.state = .addr) (hslash : '/' ∈ v.group) :
    prefixVerdict (cmdIpv6PrefixLoop v m) ≠ .exactMatch := by
  have hmask : v.state ≠ .mask := hv.trans_ne (by decide)
  induction m generalizing v with
  | nil =>
    rw [cmdIpv6PrefixLoop, if_neg hmask]
    decide
  | cons c m ih =>
    obtain ⟨hc, hm⟩ := List.forall_mem_cons.1 hm
    rcases m with _ | ⟨d, m⟩
    · have hmem : '/' ∈ v.group ++ [c] := List.mem_append_left _ hslash
      rw [cmdIpv6PrefixLoop, if_neg hmask, cmdIpv6PrefixStep, hv]
      by_cases hlen : v.group.length > 3
      · simp [hlen, prefixVerdict]
      · simp [hlen, hslash, prefixVerdict]
    · rw [cmdIpv6PrefixLoop_addr hv (isdigit_ne' (hm d List.mem_cons_self))]
      split_ifs
      · decide
      · exact ih hm hv (List.mem_append_left _ hslash) hmask

/-- A slash in a number, or instead of one. -/
theorem cmdIpv6PrefixLoop_slash (hm : IsDigits m) (hne : m ≠ []) (hv : v.state = .addr) :
    prefixVerdict (cmdIpv6PrefixLoop v ('/' :: m)) ≠ .exactMatch := by
  obtain ⟨d, m, rfl⟩ := List.exists_cons_of_ne_nil hne
  rw [cmdIpv6PrefixLoop_addr hv (isdigit_ne' (hm d List.mem_cons_self))]
  split_ifs
  · decide
  · exact cmdIpv6PrefixLoop_digits hm hv (List.mem_append_right _ List.mem_cons_self)

/-- The slash before the mask. -/
theorem cmdIpv6PrefixLoop_mask (hne : m ≠ []) (hv : v.state = .slash) (hn : v.nums ≤ 11)
    (hc : v.colons ≤ 7) : cmdIpv6PrefixLoop v ('/' :: m) = .ok m := by
  obtain ⟨d, m, rfl⟩ := List.exists_cons_of_ne_nil hne
  have hmask : v.state ≠ .mask := hv.trans_ne (by decide)
  rw [cmdIpv6PrefixLoop, if_neg hmask, cmdIpv6PrefixStep, hv]
  simp only [if_neg hne, if_neg (show ¬v.nums > 11 by omega), if_neg (show ¬v.colons > 7 by omega)]
  rw [cmdIpv6PrefixLoop, if_pos rfl]

/-- What the scanner makes of the groups after a number, and of the mask. -/
def PrefixRest (m : CString) (dot : Bool) (gs : List (List CString)) : Prop :=
  ∀ v : Ipv6Vars, v.state = stateAt (restText gs ++ (dotText dot ++ '/' :: m)) → v.nums ≤ 11 →
    v.colons ≤ 7 → v.doubleColon ≤ 1 →
      (prefixVerdict (cmdIpv6PrefixLoop v (restText gs ++ (dotText dot ++ '/' :: m))) =
        .exactMatch ↔ dot = false ∧ IsPrefixRest v.doubleColon v.colons v.nums gs)

/-- With nothing but the mask left, the loop stops at it. -/
theorem prefixRest_nil (hm : IsDigits m) (hne : m ≠ []) (hmask : ipv6Mask m = .exactMatch)
    (dot : Bool) : PrefixRest m dot [] := by
  intro v hv hn hc hd
  rw [restText, List.flatMap_nil, List.nil_append] at hv ⊢
  rcases dot with _ | _
  · refine iff_of_true ?_ ⟨rfl, isPrefixRest_nil.2 ⟨hd, hc, hn⟩⟩
    rw [dotText, if_neg Bool.false_ne_true, List.nil_append] at hv ⊢
    rw [cmdIpv6PrefixLoop_mask hne hv hn hc]
    exact hmask
  · refine iff_of_false ?_ fun h => absurd h.1 (by decide)
    rw [dotText, if_pos rfl, List.singleton_append] at hv ⊢
    have hstate : v.state = .dot := hv
    have hmask : v.state ≠ .mask := hstate.trans_ne (by decide)
    rw [cmdIpv6PrefixLoop, if_neg hmask, cmdIpv6PrefixStep, hstate]
    simp only [if_neg (show ¬v.nums > 11 by omega), if_neg (show ¬v.colons > 7 by omega)]
    exact cmdIpv6PrefixLoop_slash hm hne rfl

/-- What follows a group starts with a separator. -/
theorem isPrefixEnd_restText (m : CString) (dot : Bool) (gs : List (List CString)) :
    IsPrefixEnd (restText gs ++ (dotText dot ++ '/' :: m)) := by
  rcases gs with _ | ⟨h, gs⟩
  · rcases dot with _ | _
    · exact .inr (.inr rfl)
    · exact .inr (.inl rfl)
  · exact .inl rfl

/-- A number, with the groups and the mask after it. -/
theorem cmdIpv6PrefixLoop_cons (hg : IsGroup g) (hne : g ≠ []) (hslash : '/' ∉ groupText g)
    (hv : v.state = .addr) (hempty : v.group = []) (hn : v.nums ≤ 11) (hc : v.colons ≤ 7)
    (hd : v.doubleColon ≤ 1) (hrest : PrefixRest m dot gs) :
    prefixVerdict (cmdIpv6PrefixLoop v
        (groupText g ++ (restText gs ++ (dotText dot ++ '/' :: m)))) = .exactMatch ↔
      dot = false ∧ ShortParts g ∧
        IsPrefixRest v.doubleColon v.colons (v.nums + g.length) gs := by
  rw [cmdIpv6PrefixLoop_group hg (isPrefixEnd_restText m dot gs) hslash hne hv hempty hn hc]
  by_cases hshort : ShortParts g ∧ v.nums + g.length ≤ 11
  · rw [if_pos hshort, and_iff_right hshort.1]
    exact hrest { v with
      state := stateAt (restText gs ++ (dotText dot ++ '/' :: m)), nums := v.nums + g.length,
      group := [] } rfl hshort.2 hc hd
  · rw [if_neg hshort]
    refine iff_of_false (by decide) fun h => hshort ⟨h.2.1, ?_⟩
    have hk := h.2.2.numbers_le
    omega

/-- A group starts with no slash. -/
theorem head?_groupText_ne_slash (hg : IsGroup g) (hne : g ≠ []) (hslash : '/' ∉ groupText g)
    (r : CString) : (groupText g ++ r).head? ≠ some '/' := by
  have htext : groupText g ≠ [] := by simpa using groupText_ne_nil hg hne []
  rw [List.head?_append_of_ne_nil _ htext]
  exact fun h => hslash (List.mem_of_mem_head? h)

/-- A group is read, and the loop goes on with those that follow. -/
theorem prefixRest_cons (hg : IsGroup g) (hne : g ≠ []) (hslash : '/' ∉ groupText g)
    (hrest : PrefixRest m dot gs) : PrefixRest m dot (g :: gs) := by
  intro v hv hn hc hd
  rw [restText_cons, List.cons_append, List.append_assoc, cmdIpv6PrefixLoop_colon hv hn,
    isPrefixRest_cons hne]
  by_cases hc : v.colons + 1 > 7
  · rw [if_pos (.inr hc)]
    exact iff_of_false (by decide) fun h => absurd h.2.2.isRest.le (by omega)
  · rw [if_neg (not_or.2 ⟨head?_groupText_ne_slash hg hne hslash _, hc⟩),
      if_neg (head?_groupText_ne hg hne _)]
    exact cmdIpv6PrefixLoop_cons hg hne hslash rfl rfl hn (not_lt.1 hc) hd hrest

/-- A single colon before the slash. -/
theorem prefixRest_singleton : PrefixRest m false [[]] := by
  intro v hv hn hc hd
  have htext : restText [[]] ++ (dotText false ++ '/' :: m) = ':' :: '/' :: m := rfl
  rw [htext] at hv ⊢
  rw [cmdIpv6PrefixLoop_colon hv hn, if_pos (.inl rfl)]
  exact iff_of_false (by decide) fun h => not_isPrefixRest_singleton h.2

/-- A double colon. -/
theorem prefixRest_double (hh : IsGroup h) (hslash : '/' ∉ groupText h) (hne : m ≠ [])
    (hmask : ipv6Mask m = .exactMatch) (hdot : DotAfter dot ([] :: h :: gs))
    (hrest : PrefixRest m dot gs) : PrefixRest m dot ([] :: h :: gs) := by
  intro v hv hn hc hd
  have hcolon : (restText (h :: gs) ++ (dotText dot ++ '/' :: m)).head? = some ':' := rfl
  have hslash' : (restText (h :: gs) ++ (dotText dot ++ '/' :: m)).head? ≠ some '/' := by
    rw [hcolon]
    decide
  rw [restText_cons, List.cons_append, List.append_assoc, groupText_nil, List.nil_append,
    cmdIpv6PrefixLoop_colon hv hn]
  by_cases hc : v.colons + 1 > 7
  · rw [if_pos (.inr hc)]
    exact iff_of_false (by decide) fun h => absurd h.2.isRest.lt (by omega)
  have htext : groupText h ++ (restText gs ++ (dotText dot ++ '/' :: m)) ≠ [] := by simp
  rw [if_neg (not_or.2 ⟨hslash', hc⟩), if_pos hcolon, restText_cons, List.cons_append,
    List.append_assoc, cmdIpv6PrefixLoop_double rfl htext]
  dsimp only
  rcases eq_or_ne h [] with rfl | hne'
  · rcases eq_or_ne gs [] with rfl | hgs
    · obtain rfl := hdot.eq_false fun g hg => (Option.some.inj hg).symm
      have htext : groupText [] ++ (restText [] ++ (dotText false ++ '/' :: m)) = '/' :: m := rfl
      rw [htext, isPrefixRest_double, and_iff_right rfl, List.head?_cons, if_pos rfl, if_neg hc]
      by_cases hfirst : v.doubleColon = 0 ∧ v.nums + 1 ≤ 11
      · rw [if_neg (by simp; omega), cmdIpv6PrefixLoop_mask hne rfl hfirst.2 (not_lt.1 hc)]
        exact iff_of_true hmask ⟨hfirst.1, not_lt.1 hc, hfirst.2⟩
      · rw [if_pos (by simp; omega)]
        exact iff_of_false (by decide) fun h => hfirst ⟨h.1, h.2.2⟩
    · -- The third colon.
      have hthird : (groupText [] ++ (restText gs ++ (dotText dot ++ '/' :: m))).head? =
          some ':' := by
        obtain ⟨k, gs, rfl⟩ := List.exists_cons_of_ne_nil hgs
        rfl
      rw [if_pos (.inr (.inl hthird))]
      exact iff_of_false (by decide) fun h => not_isRest hgs h.2.isRest
  · have hhead := head?_groupText_ne hh hne' (restText gs ++ (dotText dot ++ '/' :: m))
    have hhead' := head?_groupText_ne_slash hh hne' hslash
      (restText gs ++ (dotText dot ++ '/' :: m))
    rw [isPrefixRest_nil_cons hne']
    by_cases hfirst : v.doubleColon = 0 ∧ v.nums + 1 ≤ 11
    · rw [if_neg (not_or.2 ⟨not_not.2 hfirst.1, not_or.2 ⟨hhead, by omega⟩⟩), if_neg hhead']
      by_cases hc : v.colons + 1 + 1 > 7
      · rw [if_pos hc]
        exact iff_of_false (by decide) fun h => absurd h.2.2.2.isRest.le (by omega)
      · rw [if_neg hc, cmdIpv6PrefixLoop_cons hh hne' hslash rfl rfl hfirst.2 (not_lt.1 hc)
          (by simp [hfirst.1]) hrest, and_iff_right hfirst.1, hfirst.1,
          show v.colons + 2 = v.colons + 1 + 1 by omega]
    · rw [if_pos (by simp; omega)]
      refine iff_of_false (by decide) fun h => hfirst ⟨h.2.1, ?_⟩
      have hk := h.2.2.2.numbers_le
      omega

/-- The loop over the groups and the mask, by induction on the groups. -/
theorem prefixRest (hm : IsDigits m) (hne : m ≠ []) (hmask : ipv6Mask m = .exactMatch)
    (hgs : ∀ g ∈ gs, IsGroup g ∧ '/' ∉ groupText g) (hdot : DotAfter dot gs) :
    PrefixRest m dot gs := by
  have hnil := prefixRest_nil hm hne hmask dot
  -- As for addresses, by one group or two.
  induction gs using List.twoStepInduction with
  | nil => exact hnil
  | singleton g =>
    rcases eq_or_ne g [] with rfl | hne
    · obtain rfl := hdot.eq_false fun g hg => (Option.some.inj hg).symm
      exact prefixRest_singleton
    · obtain ⟨hg, hslash⟩ := hgs g List.mem_cons_self
      exact prefixRest_cons hg hne hslash hnil
  | cons_cons g h gs ih ih' =>
    obtain ⟨⟨hg, hslash⟩, hgs⟩ := List.forall_mem_cons.1 hgs
    obtain ⟨⟨hh, hslash'⟩, hgs'⟩ := List.forall_mem_cons.1 hgs
    have hdot' := hdot.of_cons fun _ => List.cons_ne_nil h gs
    rcases eq_or_ne g [] with rfl | hne'
    · refine prefixRest_double hh hslash' hne hmask hdot ?_
      rcases eq_or_ne gs [] with rfl | hne
      · exact hnil
      · exact ih hgs' (hdot'.of_cons fun _ => hne)
    · exact prefixRest_cons hg hne' hslash (ih' h hgs hdot')

/-- The checks before the loop leave its start to be chosen by the first character. -/
theorem cmdIpv6PrefixMatch_cons {c : Char} {str : CString}
    (hchars : ∀ d ∈ c :: str, d ∈ ipv6PrefixStr) (h : c = ':' → str.head? = some ':' ∨ str = []) :
    cmdIpv6PrefixMatch (some (c :: str)) = prefixVerdict (cmdIpv6PrefixLoop
      (if c = ':' then { state := .colon, colons := -1 } else { state := .addr }) (c :: str)) := by
  have hstart := ipv6Start_eq_ok h
  simp only [cmdIpv6PrefixMatch, if_neg (not_not.2 (strspn_eq_length.2 hchars)), hstart]
  rcases cmdIpv6PrefixLoop _ _ with ret | str <;> rfl

/-- A single colon at the start is rejected before the loop. -/
theorem cmdIpv6PrefixMatch_of_colon {str : CString} (hchars : ∀ d ∈ ':' :: str, d ∈ ipv6PrefixStr)
    (h : str.head? ≠ some ':') (hne : str ≠ []) :
    cmdIpv6PrefixMatch (some (':' :: str)) = .noMatch := by
  have hstart : ipv6Start ':' str = .error .noMatch := by
    rw [ipv6Start, if_pos rfl, if_pos ⟨h, hne⟩]
  simp only [cmdIpv6PrefixMatch, if_neg (not_not.2 (strspn_eq_length.2 hchars)), hstart]

/-- A number of at most 128 is a mask. -/
theorem ipv6Mask_eq_exactMatch (hm : IsDigits m) (hne : m ≠ []) (hval : decimal m ≤ 128) :
    ipv6Mask m = .exactMatch := by
  have hmod : ((decimal m : ℤ)).bmod (2 ^ 32) = decimal m :=
    Int.bmod_eq_of_le (by omega) (by omega)
  rw [ipv6Mask, strtol_eq_decimal hm hne (by omega)]
  simp only [hmod]
  rw [if_neg (by simp), if_neg (by omega)]

/-- The characters of a group are some of the text. -/
theorem Reading.groupText_subset (r : Reading) (hg : g ∈ r.head :: r.rest) :
    groupText g ⊆ r.text := by
  intro c hc
  rw [Reading.text, List.append_assoc]
  rcases List.mem_cons.1 hg with rfl | hg
  · exact List.mem_append_left _ hc
  · exact List.mem_append_right _ (List.mem_append_left _
      (List.mem_flatMap.2 ⟨g, hg, List.mem_cons_of_mem _ hc⟩))

/-- What is allowed in an address is allowed in a prefix. -/
theorem mem_ipv6PrefixStr {c : Char} (hc : c ∈ ipv6AddrStr) : c ∈ ipv6PrefixStr := by
  have hstr : ipv6PrefixStr = ipv6AddrStr ++ ['/'] := by decide
  rw [hstr]
  exact List.mem_append_left _ hc

/-- So is a digit. -/
theorem isdigit_mem {c : Char} (hc : isdigit c) : c ∈ ipv6PrefixStr := by
  have hstr : ipv6PrefixStr =
      (List.range 10).map (fun n => Char.ofNat (48 + n)) ++ "abcdefABCDEF:.%/".toList := by decide
  rw [isdigit, Bool.and_eq_true, decide_eq_true_eq, decide_eq_true_eq] at hc
  have hle : 48 ≤ c.toNat := hc.1
  have hge : c.toNat ≤ 57 := hc.2
  rw [hstr]
  refine List.mem_append_left _ (List.mem_map.2 ⟨c.toNat - 48, List.mem_range.2 (by omega), ?_⟩)
  rw [Nat.add_sub_cancel' hle, Char.ofNat_toNat]

/-- What the scanner finds before the slash of a prefix. -/
def Reading.IsPrefixed (r : Reading) : Prop :=
  r.IsShape ∧ r.IsComplete ∧ r.numbers ≤ 11 ∧ ∀ g ∈ r.head :: r.rest, ShortParts g

/-- A number at the beginning. -/
theorem Reading.isPrefixed_of_ne {r : Reading} (hne : r.head ≠ []) : r.IsPrefixed ↔
    r.dot = false ∧ ShortParts r.head ∧ IsPrefixRest 0 0 (0 + r.head.length) r.rest := by
  rw [IsPrefixed, IsShape, IsComplete, numbers, if_neg hne]
  constructor
  · rintro ⟨⟨-, hrest⟩, ⟨hdot, -, hends⟩, hk, hshort⟩
    obtain ⟨hhead, hshort⟩ := List.forall_mem_cons.1 hshort
    exact ⟨hdot, hhead, hrest, hends, by simpa using hk, hshort⟩
  · rintro ⟨hdot, hhead, hrest, hends, hk, hshort⟩
    exact ⟨⟨fun h => absurd h hne, hrest⟩, ⟨hdot, fun h => absurd h hne, hends⟩,
      by simpa using hk, List.forall_mem_cons.2 ⟨hhead, hshort⟩⟩

/-- A double colon at the beginning. -/
theorem Reading.isPrefixed_of_nil {r : Reading} {gs : List (List CString)} (hnil : r.head = [])
    (hgs : r.rest = [] :: gs) : r.IsPrefixed ↔ r.dot = false ∧ IsPrefixRest 0 (-1) 0 r.rest := by
  rw [IsPrefixed, IsShape, IsComplete, numbers, if_pos hnil, hnil]
  constructor
  · rintro ⟨⟨-, hrest⟩, ⟨hdot, -, hends⟩, hk, hshort⟩
    exact ⟨hdot, hrest, hends, by simpa using hk, (List.forall_mem_cons.1 hshort).2⟩
  · rintro ⟨hdot, hrest, hends, hk, hshort⟩
    refine ⟨⟨fun _ => ?_, hrest⟩, ⟨hdot, fun _ => ?_, hends⟩, by simpa using hk,
      List.forall_mem_cons.2 ⟨trivial, hshort⟩⟩
    · simp [hgs]
    · simp [hgs]

/-- Nothing, or a single colon, at the beginning. -/
theorem Reading.not_isPrefixed {r : Reading} (hnil : r.head = []) (h : r.rest.head? ≠ some []) :
    ¬r.IsPrefixed := by
  rintro ⟨⟨hhead, -⟩, ⟨-, hne, -⟩, -⟩
  obtain ⟨g, gs, hgs⟩ := List.exists_cons_of_ne_nil (hne hnil)
  rw [hgs, List.head?_cons] at h hhead
  exact h (congrArg some (hhead hnil g rfl))

/-- A number at the beginning of a prefix. -/
theorem cmdIpv6PrefixMatch_group {dot : Bool} (hg : IsGroup g) (hne : g ≠ [])
    (hslash : '/' ∉ groupText g) (hrest : PrefixRest m dot gs)
    (hchars : ∀ c ∈ groupText g ++ (restText gs ++ (dotText dot ++ '/' :: m)), c ∈ ipv6PrefixStr) :
    cmdIpv6PrefixMatch (some (groupText g ++ (restText gs ++ (dotText dot ++ '/' :: m)))) =
        .exactMatch ↔
      dot = false ∧ ShortParts g ∧ IsPrefixRest 0 0 (0 + g.length) gs := by
  obtain ⟨c, str, hstr, hc⟩ :=
    exists_cons_groupText hg hne (restText gs ++ (dotText dot ++ '/' :: m))
  have hcons := cmdIpv6PrefixLoop_cons (v := { state := .addr }) hg hne hslash rfl rfl
    (by simp) (by simp) (by simp) hrest
  rw [hstr] at hchars hcons ⊢
  rw [cmdIpv6PrefixMatch_cons hchars fun h => absurd h hc, if_neg hc, hcons]

/-- A double colon at the beginning of a prefix. -/
theorem cmdIpv6PrefixMatch_double {dot : Bool} (hne : gs ≠ [])
    (hrest : PrefixRest m dot ([] :: gs))
    (hchars : ∀ c ∈ ':' :: (restText gs ++ (dotText dot ++ '/' :: m)), c ∈ ipv6PrefixStr) :
    cmdIpv6PrefixMatch (some (':' :: (restText gs ++ (dotText dot ++ '/' :: m)))) = .exactMatch ↔
      dot = false ∧ IsPrefixRest 0 (-1) 0 ([] :: gs) := by
  have hstart : (restText gs ++ (dotText dot ++ '/' :: m)).head? = some ':' := by
    obtain ⟨k, gs, rfl⟩ := List.exists_cons_of_ne_nil hne
    rfl
  have hloop := hrest { state := .colon, colons := -1 } rfl (by simp) (by simp) (by simp)
  rw [restText_cons, groupText_nil, List.nil_append, List.cons_append] at hloop
  rw [cmdIpv6PrefixMatch_cons hchars fun _ => .inl hstart, if_pos rfl, hloop]

/-- The prefixes. -/
theorem cmdIpv6PrefixMatch_text (r : Reading) (hchars : ∀ c ∈ r.text, c ∈ ipv6AddrStr)
    (hm : IsDigits m) (hne : m ≠ []) (hmask : ipv6Mask m = .exactMatch) :
    cmdIpv6PrefixMatch (some (r.text ++ '/' :: m)) = .exactMatch ↔ r.IsPrefixed := by
  have hdot := r.dotAfter
  have hslash : ∀ g ∈ r.head :: r.rest, '/' ∉ groupText g := fun g hg h =>
    absurd (hchars _ (r.groupText_subset hg h)) (by decide)
  have hchars' : ∀ c ∈ r.text ++ '/' :: m, c ∈ ipv6PrefixStr := List.forall_mem_append.2
    ⟨fun c hc => mem_ipv6PrefixStr (hchars c hc),
      List.forall_mem_cons.2 ⟨by decide, fun c hc => isdigit_mem (hm c hc)⟩⟩
  obtain ⟨head, rest, dot, hhead, hrest, hdot'⟩ := r
  obtain ⟨hslash, hslash'⟩ := List.forall_mem_cons.1 hslash
  have hgs : ∀ g ∈ rest, IsGroup g ∧ '/' ∉ groupText g := fun g hg => ⟨hrest g hg, hslash' g hg⟩
  have hall (h : DotAfter dot rest) := prefixRest hm hne hmask hgs h
  clear hchars
  simp only [Reading.text, List.append_assoc] at hchars' hdot ⊢
  rcases eq_or_ne head [] with rfl | hne'
  · rcases rest with _ | ⟨h, gs⟩
    · obtain rfl := hdot.eq_false fun g hg => (Option.some.inj hg).symm
      refine iff_of_false ?_ (Reading.not_isPrefixed rfl (by simp))
      have htext : groupText [] ++ (restText [] ++ (dotText false ++ '/' :: m)) = '/' :: m := rfl
      rw [htext] at hchars' ⊢
      rw [cmdIpv6PrefixMatch_cons hchars' fun h => absurd h (by decide)]
      exact cmdIpv6PrefixLoop_slash hm hne rfl
    · rw [groupText_nil, List.nil_append, restText_cons, List.cons_append, List.append_assoc]
        at hchars' ⊢
      rcases eq_or_ne h [] with rfl | hne'
      · rw [groupText_nil, List.nil_append] at hchars' ⊢
        rcases eq_or_ne gs [] with rfl | hgs
        · -- The string is a colon, so the one before the slash is a single one.
          obtain rfl := hdot.eq_false fun g hg => (Option.some.inj hg).symm
          have hslash : (restText [] ++ (dotText false ++ '/' :: m)).head? ≠ some ':' := by
            change some '/' ≠ some ':'
            decide
          rw [cmdIpv6PrefixMatch_of_colon hchars' hslash (List.cons_ne_nil _ _),
            Reading.isPrefixed_of_nil rfl rfl]
          exact iff_of_false (by decide) fun h => not_isPrefixRest_singleton h.2
        · have hrest := hall (hdot.of_cons fun _ => List.cons_ne_nil _ _)
          rw [cmdIpv6PrefixMatch_double hgs hrest hchars', Reading.isPrefixed_of_nil rfl rfl]
      · obtain ⟨hh, hh'⟩ := hgs h List.mem_cons_self
        have hstart := head?_groupText_ne hh hne' (restText gs ++ (dotText dot ++ '/' :: m))
        have hnil := groupText_ne_nil hh hne' (restText gs ++ (dotText dot ++ '/' :: m))
        refine iff_of_false ?_ (Reading.not_isPrefixed rfl (by simpa using hne'))
        rw [cmdIpv6PrefixMatch_of_colon hchars' hstart hnil]
        decide
  · have hrest : PrefixRest m dot rest := by
      rcases eq_or_ne rest [] with rfl | hnil
      · exact prefixRest_nil hm hne hmask dot
      · exact hall (hdot.of_cons fun _ => hnil)
    rw [cmdIpv6PrefixMatch_group hhead hne' hslash hrest hchars', Reading.isPrefixed_of_ne hne']

/-! ## Agreement -/

/-- No part is longer than its group. -/
theorem length_le_groupText (hp : p ∈ g) : p.length ≤ (groupText g).length := by
  induction g with
  | nil => cases hp
  | cons q ps ih =>
    rcases ps with _ | ⟨q', ps⟩
    · rw [groupText, List.intercalate_singleton, List.mem_singleton.1 hp]
    · rw [groupText, Fields.intercalate_cons, ← groupText, List.length_append, List.length_cons]
      rcases List.mem_cons.1 hp with rfl | hp
      · omega
      · have hle := ih hp
        omega

/-- The parts of a short group are short. -/
theorem shortParts_of_length_le (hlen : (groupText g).length ≤ 4) : ShortParts g := by
  rcases g with _ | ⟨p, ps⟩
  · trivial
  · refine ⟨(length_le_groupText List.mem_cons_self).trans hlen, fun q hq => ?_⟩
    obtain ⟨q', ps, rfl⟩ := List.exists_cons_of_ne_nil (List.ne_nil_of_mem hq)
    have hle := length_le_groupText hq
    rw [groupText, Fields.intercalate_cons, ← groupText, List.length_append, List.length_cons]
      at hlen
    omega

/-- What the scanners find in a reading is the same, but for the readings of `Differs`. -/
theorem Reading.isPrefixed_iff_iff (r : Reading) :
    (r.IsPrefixed ↔
        r.IsShape ∧ ∀ g ∈ closedGroups r.dot (r.head :: r.rest), (groupText g).length ≤ 4) ↔
      ¬(r.IsShape ∧
        ((∀ g ∈ closedGroups r.dot (r.head :: r.rest), (groupText g).length ≤ 4) ∧
            (¬r.IsComplete ∨ 11 < r.numbers) ∨
          r.IsComplete ∧ r.numbers ≤ 11 ∧ (∀ g ∈ r.head :: r.rest, ShortParts g) ∧
            ∃ g ∈ r.head :: r.rest, 4 < (groupText g).length)) := by
  -- What is complete has no dot at the end, so that all groups are closed.
  have hclosed (h : r.IsComplete) : closedGroups r.dot (r.head :: r.rest) = r.head :: r.rest := by
    rw [closedGroups, h.1, if_neg Bool.false_ne_true]
  constructor
  · rintro hiff ⟨hshape, hcase⟩
    rcases hcase with ⟨hshort, hbad⟩ | ⟨hcomplete, hk, hparts, g, hg, hlong⟩
    · obtain ⟨-, hcomplete, hk, -⟩ := hiff.2 ⟨hshape, hshort⟩
      rcases hbad with hbad | hbad
      · exact hbad hcomplete
      · omega
    · have hshort := (hiff.1 ⟨hshape, hcomplete, hk, hparts⟩).2
      rw [hclosed hcomplete] at hshort
      have hle := hshort g hg
      omega
  · intro hnot
    constructor
    · rintro ⟨hshape, hcomplete, hk, hparts⟩
      refine ⟨hshape, fun g hg => not_lt.1 fun hlong => hnot ?_⟩
      rw [hclosed hcomplete] at hg
      exact ⟨hshape, .inr ⟨hcomplete, hk, hparts, g, hg, hlong⟩⟩
    · rintro ⟨hshape, hshort⟩
      have hgood : r.IsComplete ∧ r.numbers ≤ 11 := by
        by_contra hbad
        rw [not_and_or, not_le] at hbad
        exact hnot ⟨hshape, .inl ⟨hshort, hbad⟩⟩
      rw [hclosed hgood.1] at hshort
      exact ⟨hshape, hgood.1, hgood.2, fun g hg => shortParts_of_length_le (hshort g hg)⟩

/-- Neither scanner accepts other characters. -/
theorem cmdIpv6Match_ne_of_chars {a : CString} (hchars : ¬∀ c ∈ a, c ∈ ipv6AddrStr) :
    cmdIpv6Match (some a) ≠ .exactMatch := by
  have hspan : strspn a ipv6AddrStr ≠ a.length := by rwa [Ne, strspn_eq_length]
  simp only [cmdIpv6Match, if_pos hspan]
  decide

/-- With a foreign character in the address, the prefix is not found either. -/
theorem cmdIpv6PrefixMatch_ne_of_chars {a : CString} (ha : '/' ∉ a)
    (hchars : ¬∀ c ∈ a, c ∈ ipv6AddrStr) :
    cmdIpv6PrefixMatch (some (a ++ '/' :: m)) ≠ .exactMatch := by
  have hspan : strspn (a ++ '/' :: m) ipv6PrefixStr ≠ (a ++ '/' :: m).length := by
    rw [Ne, strspn_eq_length]
    refine fun h => hchars fun c hc => ?_
    have hmem := h c (List.mem_append_left _ hc)
    have hstr : ipv6PrefixStr = ipv6AddrStr ++ ['/'] := by decide
    rw [hstr, List.mem_append, List.mem_singleton] at hmem
    exact hmem.resolve_right fun heq => ha (heq ▸ hc)
  simp only [cmdIpv6PrefixMatch, if_pos hspan]
  decide

/-- When the two scanners judge an address and a prefix alike. -/
theorem scanners_agree_iff {a : CString} (ha : '/' ∉ a) (hne : m ≠ []) (hm : IsDigits m)
    (hval : decimal m ≤ 128) :
    (cmdIpv6PrefixMatch (some (a ++ '/' :: m)) = .exactMatch ↔
      cmdIpv6Match (some a) = .exactMatch) ↔ ¬Differs a := by
  by_cases hchars : ∀ c ∈ a, c ∈ ipv6AddrStr
  · have hboth (r : Reading) (hr : r.text = a) :
        (cmdIpv6PrefixMatch (some (a ++ '/' :: m)) = .exactMatch ↔ r.IsPrefixed) ∧
        (cmdIpv6Match (some a) = .exactMatch ↔ r.IsShape ∧
          ∀ g ∈ closedGroups r.dot (r.head :: r.rest), (groupText g).length ≤ 4) := by
      subst hr
      exact ⟨cmdIpv6PrefixMatch_text r hchars hm hne (ipv6Mask_eq_exactMatch hm hne hval),
        cmdIpv6Match_text r hchars⟩
    -- Both scanners are decided by one reading of the address, if its characters are allowed.
    -- Else, both reject it.
    constructor
    · rintro hiff ⟨r, hr, -, hdiffers⟩
      obtain ⟨hpre, hmatch⟩ := hboth r hr
      rw [hpre, hmatch] at hiff
      exact r.isPrefixed_iff_iff.1 hiff hdiffers
    · intro hnot
      obtain ⟨r, hr⟩ := exists_reading a
      obtain ⟨hpre, hmatch⟩ := hboth r hr
      rw [hpre, hmatch]
      exact r.isPrefixed_iff_iff.2 fun hdiffers => hnot ⟨r, hr, hchars, hdiffers⟩
  · refine iff_of_true (iff_of_false ?_ ?_) fun h => hchars h.choose_spec.2.1
    · exact cmdIpv6PrefixMatch_ne_of_chars ha hchars
    · exact cmdIpv6Match_ne_of_chars hchars

/-- The criterion for the loopback address. -/
theorem scanners_agree_iff_loopback :
    (cmdIpv6PrefixMatch (some ("::1".toList ++ '/' :: "128".toList)) = .exactMatch ↔
      cmdIpv6Match (some "::1".toList) = .exactMatch) ↔ ¬Differs "::1".toList :=
  scanners_agree_iff (by decide) (by decide) (by decide) (by decide)

/-- A prefix that is judged otherwise than its address. -/
theorem scanners_differ :
    ¬∀ a m : CString, '/' ∉ a → m ≠ [] → IsDigits m → decimal m ≤ 128 →
      (cmdIpv6PrefixMatch (some (a ++ '/' :: m)) = .exactMatch ↔
        cmdIpv6Match (some a) = .exactMatch) := by
  intro h
  have hiff := h "::ffff:1.2.3.4".toList "96".toList (by decide) (by decide) (by decide) (by decide)
  exact absurd (hiff.1 (by decide)) (by decide)

end Mksh.Ipv6
