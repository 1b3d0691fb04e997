import Mksh.Command.Ipv6.Reading

/-!
# The scanner for IPv6 addresses

`cmdIpv6Match`, followed along a reading: first through the characters of a part, then
through the parts of a group, and in the end through all the groups (`matchRest`). It finds a
complete address if and only if the groups have the shape of one, and are not too long, but
for one before a dot at the end (`cmdIpv6Match_text`).
-/

namespace Mksh.Ipv6

open CString

variable {v : Ipv6Vars} {p r : CString} {doubles : ℕ} {n : ℤ} {g h : List CString}
  {gs : List (List CString)}

/-- What follows a part, or a group. -/
def IsEnd (r : CString) : Prop := r = [] ∨ r.head? = some ':' ∨ r.head? = some '.'

/-- The loop, after the part or the group that ends the characters `group`. -/
def cmdIpv6End (v : Ipv6Vars) (group r : CString) : MatchType :=
  if r.head? = some '.' then cmdIpv6Loop { v with state := .dot, group } r
  else if group.length > 4 then .noMatch
  else cmdIpv6Loop { v with state := .colon, nums := v.nums + 1, group } r

/-- The characters of a part. -/
theorem cmdIpv6Loop_part (hp : IsPart p) (hr : IsEnd r) (hv : v.state = .addr) (hn : v.nums ≤ 7)
    (hc : v.colons ≤ 7) : cmdIpv6Loop v (p ++ r) = cmdIpv6End v (v.group ++ p) r := by
  induction p generalizing v with
  | nil => exact absurd rfl hp.1
  | cons c p ih =>
    have hnums : ¬v.nums + 1 > 8 := by omega
    have hnums' : ¬v.nums > 8 := by omega
    have hcolons : ¬v.colons > 7 := by omega
    rw [List.cons_append, cmdIpv6Loop, cmdIpv6Step, hv]
    rcases p with _ | ⟨d, p⟩
    · -- The length of the number is only checked at its last character, and before a colon.
      have hlength : (v.group ++ [c]).length > 4 ↔ v.group.length > 3 := by
        rw [List.length_append, List.length_singleton]
        omega
      rw [List.nil_append, cmdIpv6End]
      by_cases hdot : r.head? = some '.'
      · have hnot : ¬(r.head? = some ':' ∨ r = []) := by
          rintro (hcolon | rfl)
          · exact absurd (hdot.symm.trans hcolon) (by decide)
          · cases hdot
        simp only [hnot, false_and, if_false, if_pos hdot, hnums', hcolons]
      · have hcond : r.head? = some ':' ∨ r = [] := by
          rcases hr with rfl | hcolon | hdot'
          · exact .inr rfl
          · exact .inl hcolon
          · exact absurd hdot' hdot
        simp only [hcond, true_and, if_true, if_neg hdot, hlength]
        by_cases hlen : v.group.length > 3
        · simp only [if_pos hlen]
        · simp only [if_neg hlen, if_neg hnums, if_neg hcolons]
    · obtain ⟨hd, htail⟩ := List.forall_mem_cons.1 hp.2
      have hpart : IsPart (d :: p) := ⟨List.cons_ne_nil d p, htail⟩
      have hih := ih (v := { v with group := v.group ++ [c] }) hpart hv hn hc
      rw [List.append_assoc, List.singleton_append] at hih
      simpa [hd, hnums', hcolons, hv, cmdIpv6End] using hih

/-- A group does not start with a colon. -/
theorem head?_groupText_ne (hg : IsGroup g) (hne : g ≠ []) (r : CString) :
    (groupText g ++ r).head? ≠ some ':' := by
  obtain ⟨p, ps, rfl⟩ := List.exists_cons_of_ne_nil hne
  obtain ⟨c, p, rfl⟩ := List.exists_cons_of_ne_nil (hg.1 p List.mem_cons_self).1
  have hc : c ≠ ':' := by simpa using hg.2
  rcases ps with _ | ⟨q, ps⟩
  · simpa [groupText] using hc
  · rw [groupText, Fields.intercalate_cons]
    simpa using hc

/-- A group leaves something to read. -/
theorem groupText_ne_nil (hg : IsGroup g) (hne : g ≠ []) (r : CString) : groupText g ++ r ≠ [] := by
  obtain ⟨p, ps, rfl⟩ := List.exists_cons_of_ne_nil hne
  have hp := (hg.1 p List.mem_cons_self).1
  rcases ps with _ | ⟨q, ps⟩
  · rw [groupText, List.intercalate_singleton]
    simp [hp]
  · rw [groupText, Fields.intercalate_cons]
    simp

/-- The characters of a group. -/
theorem cmdIpv6Loop_group (hg : IsGroup g) (hne : g ≠ []) (hr : IsEnd r) (hv : v.state = .addr)
    (hn : v.nums ≤ 7) (hc : v.colons ≤ 7) :
    cmdIpv6Loop v (groupText g ++ r) = cmdIpv6End v (v.group ++ groupText g) r := by
  have hparts := hg.1
  clear hg
  induction g generalizing v with
  | nil => exact absurd rfl hne
  | cons p ps ih =>
    obtain ⟨hp, hps⟩ := List.forall_mem_cons.1 hparts
    rcases ps with _ | ⟨q, ps⟩
    · rw [groupText, List.intercalate_singleton]
      exact cmdIpv6Loop_part hp hr hv hn hc
    · have hend : IsEnd ('.' :: (groupText (q :: ps) ++ r)) := .inr (.inr rfl)
      have hnums : ¬v.nums > 8 := by omega
      have hcolons : ¬v.colons > 7 := by omega
      have hih := ih (v := { v with state := .addr, group := v.group ++ p ++ ['.'] })
        (List.cons_ne_nil q ps) rfl hn hc hps
      rw [groupText, Fields.intercalate_cons, List.append_assoc, List.cons_append, ← groupText,
        cmdIpv6Loop_part hp hend hv hn hc, cmdIpv6End, List.head?_cons, if_pos rfl, cmdIpv6Loop,
        cmdIpv6Step]
      simp only [hnums, hcolons, if_false]
      rw [hih, cmdIpv6End, cmdIpv6End]
      simp only [List.append_assoc, List.singleton_append]

/-- A colon after a group. -/
theorem cmdIpv6Loop_colon (hv : v.state = .colon) (hn : v.nums ≤ 8) (r : CString) :
    cmdIpv6Loop v (':' :: r) =
      if v.colons + 1 > 7 then .noMatch
      else if r.head? = some ':' then
        cmdIpv6Loop { v with state := .double, colons := v.colons + 1, group := v.group ++ [':'] } r
      else cmdIpv6Loop { v with state := .addr, colons := v.colons + 1, group := [] } r := by
  have hnums : ¬v.nums > 8 := by omega
  rw [cmdIpv6Loop, cmdIpv6Step, hv]
  by_cases hr : r.head? = some ':'
  · simp only [hr, if_true, hnums, if_false]
  · simp only [hr, if_false, hnums]

/-- The second one of two colons: it is the only one, and no third follows. -/
theorem cmdIpv6Loop_double (hv : v.state = .double) (hn : v.nums ≤ 7) (r : CString) :
    cmdIpv6Loop v (':' :: r) =
      if v.doubleColon ≠ 0 ∨ r.head? = some ':' then .noMatch
      else
        let colons := if r ≠ [] then v.colons + 1 else v.colons
        if colons > 7 then .noMatch
        else cmdIpv6Loop
          { state := .addr, colons, nums := v.nums + 1, doubleColon := v.doubleColon + 1 } r := by
  have hnums : ¬v.nums + 1 > 8 := by omega
  rw [cmdIpv6Loop, cmdIpv6Step, hv]
  by_cases hd : v.doubleColon = 0
  · by_cases hr : r.head? = some ':'
    · simp [hd, hr]
    · simp [hd, hr, hnums]
  · simp [hd]

/-- What is counted before a colon, or after one. -/
structure IsCounted (v : Ipv6Vars) (n : ℤ) : Prop where
  nums_le : v.nums ≤ n
  colons_le : v.colons ≤ 7
  doubleColon_le : v.doubleColon ≤ 1

/-- The string ends in a dot only after a number. -/
def DotAfter (dot : Bool) (gs : List (List CString)) : Prop :=
  dot → ∃ g, gs.getLast? = some g ∧ g ≠ []

/-- A dot at the end is after the last group. -/
theorem DotAfter.of_cons {dot : Bool} (hdot : DotAfter dot (g :: gs)) (hne : dot → gs ≠ []) :
    DotAfter dot gs := by
  intro htrue
  obtain ⟨f, hf, hf'⟩ := hdot htrue
  rw [List.getLast?_cons_of_ne_nil (hne htrue)] at hf
  exact ⟨f, hf, hf'⟩

/-- There is no dot after an empty group. -/
theorem DotAfter.eq_false {dot : Bool} (hdot : DotAfter dot gs)
    (hlast : ∀ g, gs.getLast? = some g → g = []) : dot = false := by
  refine Bool.eq_false_iff.2 fun htrue => ?_
  obtain ⟨g, hg, hne⟩ := hdot htrue
  exact hne (hlast g hg)

/-- What the scanner makes of the groups after a number. -/
def MatchRest (dot : Bool) (gs : List (List CString)) : Prop :=
  ∀ v : Ipv6Vars, v.state = .colon → IsCounted v (v.colons + 1) →
    (cmdIpv6Loop v (restText gs ++ dotText dot) = .exactMatch ↔
      IsRest v.doubleColon v.colons gs ∧ ∀ g ∈ closedGroups dot gs, (groupText g).length ≤ 4)

/-- A dot leaves the last group open only. -/
theorem closedGroups_cons {dot : Bool} (hgs : dot → gs ≠ []) (g : List CString) :
    closedGroups dot (g :: gs) = g :: closedGroups dot gs := by
  rcases dot with _ | _
  · rfl
  · exact List.dropLast_cons_of_ne_nil (hgs rfl)

/-- What follows a group that is not the last one starts with no dot. -/
theorem head?_restText {dot : Bool} (hgs : dot → gs ≠ []) :
    (restText gs ++ dotText dot).head? ≠ some '.' := by
  rcases gs with _ | ⟨h, gs⟩
  · rcases dot with _ | _
    · simp [restText, dotText]
    · exact absurd rfl (hgs rfl)
  · simp [restText]

/-- What follows a group starts with a separator, or is nothing. -/
theorem isEnd_restText (dot : Bool) (gs : List (List CString)) :
    IsEnd (restText gs ++ dotText dot) := by
  rcases gs with _ | ⟨h, gs⟩
  · rcases dot with _ | _
    · exact .inl rfl
    · exact .inr (.inr rfl)
  · exact .inr (.inl rfl)

/-- A number, with the groups after it. -/
theorem cmdIpv6Loop_cons {dot : Bool} (hg : IsGroup g) (hne : g ≠ []) (hv : v.state = .addr)
    (hempty : v.group = []) (hcount : IsCounted v v.colons)
    (hrest : (dot → gs ≠ []) → MatchRest dot gs) :
    cmdIpv6Loop v (groupText g ++ (restText gs ++ dotText dot)) = .exactMatch ↔
      IsRest v.doubleColon v.colons gs ∧
        ∀ f ∈ closedGroups dot (g :: gs), (groupText f).length ≤ 4 := by
  obtain ⟨hnums, hcolons, hdouble⟩ := hcount
  rw [cmdIpv6Loop_group hg hne (isEnd_restText dot gs) hv (by omega) hcolons, hempty,
    List.nil_append, cmdIpv6End]
  by_cases hgs : dot → gs ≠ []
  · rw [if_neg (head?_restText hgs), closedGroups_cons hgs, List.forall_mem_cons]
    by_cases hlen : (groupText g).length > 4
    · rw [if_pos hlen]
      exact iff_of_false (by decide) fun h => absurd h.2.1 (by omega)
    · have hcount : IsCounted
          { v with state := .colon, nums := v.nums + 1, group := groupText g } (v.colons + 1) :=
        ⟨by push_cast; omega, hcolons, hdouble⟩
      rw [if_neg hlen, hrest hgs _ rfl hcount]
      exact and_congr_right fun _ => (and_iff_right (by omega)).symm
  · -- The dot at the end.
    obtain ⟨rfl, rfl⟩ : dot ∧ gs = [] := by simpa using hgs
    have hnums : ¬v.nums > 8 := by omega
    have hcolons' : ¬v.colons > 7 := by omega
    refine iff_of_true ?_ ⟨isRest_nil.2 ⟨hdouble, hcolons⟩, List.forall_mem_nil _⟩
    simp [restText, dotText, cmdIpv6Loop, cmdIpv6Step, hnums, hcolons']

/-- With no groups left, only the counts are checked. -/
theorem matchRest_nil : MatchRest false [] := fun _ _ hcount =>
  iff_of_true rfl
    ⟨isRest_nil.2 ⟨hcount.doubleColon_le, hcount.colons_le⟩, List.forall_mem_nil _⟩

/-- A group is read, and the loop goes on with those that follow. -/
theorem matchRest_cons {dot : Bool} (hg : IsGroup g) (hne : g ≠ [])
    (hrest : (dot → gs ≠ []) → MatchRest dot gs) : MatchRest dot (g :: gs) := by
  intro v hv hcount
  obtain ⟨hnums, hcolons, hdouble⟩ := hcount
  rw [restText_cons, List.cons_append, List.append_assoc, cmdIpv6Loop_colon hv (by omega),
    isRest_cons hne]
  by_cases hc : v.colons + 1 > 7
  · rw [if_pos hc]
    exact iff_of_false (by decide) fun h => absurd h.1.le (by omega)
  · rw [if_neg hc, if_neg (head?_groupText_ne hg hne _)]
    exact cmdIpv6Loop_cons hg hne rfl rfl ⟨hnums, not_lt.1 hc, hdouble⟩ hrest

/-- A single colon at the end. -/
theorem matchRest_singleton : MatchRest false [[]] := by
  intro v hv hcount
  obtain ⟨hnums, hcolons, hdouble⟩ := hcount
  have hshort : ∀ g ∈ closedGroups false [[]], (groupText g).length ≤ 4 :=
    List.forall_mem_singleton.2 (Nat.zero_le 4)
  rw [isRest_singleton, and_iff_left hshort, and_iff_right hdouble]
  have htext : restText [[]] ++ dotText false = [':'] := rfl
  rw [htext, cmdIpv6Loop_colon hv (by omega)]
  by_cases hc : v.colons + 1 > 7
  · rw [if_pos hc]
    exact iff_of_false (by decide) (by omega)
  · rw [if_neg hc]
    exact iff_of_true rfl (by omega)

/-- A double colon. -/
theorem matchRest_double {dot : Bool} (hh : IsGroup h)
    (hdot : DotAfter dot ([] :: h :: gs)) (hrest : (dot → gs ≠ []) → MatchRest dot gs) :
    MatchRest dot ([] :: h :: gs) := by
  intro v hv hcount
  obtain ⟨hnums, hcolons, hdouble⟩ := hcount
  have hcolon : (restText (h :: gs) ++ dotText dot).head? = some ':' := rfl
  rw [restText_cons, List.cons_append, List.append_assoc, groupText_nil, List.nil_append,
    cmdIpv6Loop_colon hv (by omega), if_pos hcolon]
  by_cases hc : v.colons + 1 > 7
  · rw [if_pos hc]
    exact iff_of_false (by decide) fun h => absurd h.1.lt (by omega)
  rw [if_neg hc, restText_cons, List.cons_append, List.append_assoc,
    cmdIpv6Loop_double rfl (by dsimp only; omega)]
  rcases eq_or_ne h [] with rfl | hne
  · rcases eq_or_ne gs [] with rfl | hgs
    · obtain rfl := hdot.eq_false fun g hg => (Option.some.inj hg).symm
      have hshort : ∀ g ∈ closedGroups false [[], []], (groupText g).length ≤ 4 :=
        List.forall_mem_cons.2 ⟨Nat.zero_le 4, List.forall_mem_singleton.2 (Nat.zero_le 4)⟩
      have htext : groupText [] ++ (restText [] ++ dotText false) = [] := rfl
      rw [isRest_double, and_iff_left hshort, htext]
      by_cases hd : v.doubleColon = 0
      · simp [hd, hc, cmdIpv6Loop]
        omega
      · simp [hd]
    · -- The third colon.
      have hthird : (groupText [] ++ (restText gs ++ dotText dot)).head? = some ':' := by
        obtain ⟨k, gs, rfl⟩ := List.exists_cons_of_ne_nil hgs
        rfl
      rw [if_pos (.inr hthird)]
      exact iff_of_false (by decide) fun h => not_isRest hgs h.1
  · have hhead := head?_groupText_ne hh hne (restText gs ++ dotText dot)
    have hne' := groupText_ne_nil hh hne (restText gs ++ dotText dot)
    rw [isRest_nil_cons hne]
    by_cases hd : v.doubleColon = 0
    · rw [if_neg (show ¬(v.doubleColon ≠ 0 ∨ _) from not_or.2 ⟨not_not.2 hd, hhead⟩)]
      simp only [if_pos hne']
      rw [closedGroups_cons fun _ => List.cons_ne_nil h gs, List.forall_mem_cons]
      by_cases hc : v.colons + 1 + 1 > 7
      · rw [if_pos hc]
        exact iff_of_false (by decide) fun h => absurd h.1.2.le (by omega)
      · have hcount : IsCounted { v with
            state := .addr, colons := v.colons + 1 + 1, nums := v.nums + 1, doubleColon := 1,
            group := [] } (v.colons + 1 + 1) :=
          ⟨by push_cast; omega, not_lt.1 hc, le_rfl⟩
        have hshort : (groupText []).length ≤ 4 := Nat.zero_le 4
        rw [if_neg hc, hd, cmdIpv6Loop_cons hh hne rfl rfl hcount hrest, and_iff_right rfl,
          and_iff_right hshort, show v.colons + 2 = v.colons + 1 + 1 by omega]
    · rw [if_pos (.inl hd)]
      exact iff_of_false (by decide) fun h => hd h.1.1

/-- The loop over the groups, by induction on them. -/
theorem matchRest {dot : Bool} (hgs : ∀ g ∈ gs, IsGroup g) (hdot : DotAfter dot gs) :
    MatchRest dot gs := by
  -- A double colon is read together with the group after it.
  induction gs using List.twoStepInduction with
  | nil =>
    obtain rfl := hdot.eq_false fun g hg => by cases hg
    exact matchRest_nil
  | singleton g =>
    rcases eq_or_ne g [] with rfl | hne
    · obtain rfl := hdot.eq_false fun g hg => (Option.some.inj hg).symm
      exact matchRest_singleton
    · refine matchRest_cons (hgs g List.mem_cons_self) hne fun hfalse => ?_
      obtain rfl : dot = false := Bool.eq_false_iff.2 fun htrue => hfalse htrue rfl
      exact matchRest_nil
  | cons_cons g h gs ih ih' =>
    obtain ⟨hg, hgs⟩ := List.forall_mem_cons.1 hgs
    obtain ⟨hh, hgs'⟩ := List.forall_mem_cons.1 hgs
    rcases eq_or_ne g [] with rfl | hne
    · exact matchRest_double hh hdot fun h => ih hgs' ((hdot.of_cons fun _ => by simp).of_cons h)
    · exact matchRest_cons hg hne fun hne => ih' h hgs (hdot.of_cons hne)

/-- A reading has its dot after the last group. -/
theorem Reading.dotAfter (r : Reading) : DotAfter r.dot (r.head :: r.rest) := fun h =>
  ⟨_, List.getLast?_eq_some_getLast (List.cons_ne_nil _ _), r.dot_ne h⟩

/-- A group that is not empty starts with a character other than a colon. -/
theorem exists_cons_groupText (hg : IsGroup g) (hne : g ≠ []) (r : CString) :
    ∃ c str, groupText g ++ r = c :: str ∧ c ≠ ':' := by
  obtain ⟨c, str, hstr⟩ := List.exists_cons_of_ne_nil (groupText_ne_nil hg hne r)
  have hhead := head?_groupText_ne hg hne r
  rw [hstr, List.head?_cons] at hhead
  exact ⟨c, str, hstr, fun hc => hhead (congrArg some hc)⟩

/-- The first character of an address, which is not a single colon. -/
theorem ipv6Start_eq_ok {c : Char} {str : CString}
    (h : c = ':' → str.head? = some ':' ∨ str = []) :
    ipv6Start c str =
      .ok (if c = ':' then { state := .colon, colons := -1 } else { state := .addr }) := by
  rw [ipv6Start]
  by_cases hc : c = ':'
  · rw [if_pos hc, if_neg (not_and_not_right.2 fun hne => (h hc).resolve_left hne), if_pos hc]
  · rw [if_neg hc, if_neg hc]

/-- The checks before the loop leave its start to be chosen by the first character. -/
theorem cmdIpv6Match_cons {c : Char} {str : CString} (hchars : ∀ d ∈ c :: str, d ∈ ipv6AddrStr)
    (h : c = ':' → str.head? = some ':' ∨ str = []) :
    cmdIpv6Match (some (c :: str)) =
      cmdIpv6Loop (if c = ':' then { state := .colon, colons := -1 } else { state := .addr })
        (c :: str) := by
  have hstart := ipv6Start_eq_ok h
  simp only [cmdIpv6Match, if_neg (not_not.2 (strspn_eq_length.2 hchars)), hstart]

/-- A single colon at the start is rejected before the loop. -/
theorem cmdIpv6Match_of_colon {str : CString} (hchars : ∀ d ∈ ':' :: str, d ∈ ipv6AddrStr)
    (h : str.head? ≠ some ':') (hne : str ≠ []) :
    cmdIpv6Match (some (':' :: str)) = .noMatch := by
  have hstart : ipv6Start ':' str = .error .noMatch := by
    rw [ipv6Start, if_pos rfl, if_pos ⟨h, hne⟩]
  simp only [cmdIpv6Match, if_neg (not_not.2 (strspn_eq_length.2 hchars)), hstart]

/-- The addresses. -/
theorem cmdIpv6Match_text (r : Reading) (hchars : ∀ c ∈ r.text, c ∈ ipv6AddrStr) :
    cmdIpv6Match (some r.text) = .exactMatch ↔
      r.IsShape ∧ ∀ g ∈ closedGroups r.dot (r.head :: r.rest), (groupText g).length ≤ 4 := by
  have hdot := r.dotAfter
  obtain ⟨head, rest, dot, hhead, hrest, hdot'⟩ := r
  rw [Reading.IsShape]
  simp only [Reading.text, List.append_assoc] at hchars hdot ⊢
  rcases eq_or_ne head [] with rfl | hne
  · rcases rest with _ | ⟨h, gs⟩
    · obtain rfl := hdot.eq_false fun g hg => (Option.some.inj hg).symm
      refine iff_of_true rfl ⟨⟨by simp, isRest_nil.2 ⟨by simp, by simp⟩⟩, ?_⟩
      exact List.forall_mem_singleton.2 (Nat.zero_le 4)
    · rw [groupText_nil, List.nil_append, restText_cons, List.cons_append] at hchars ⊢
      rcases eq_or_ne h [] with rfl | hne
      · -- The colon is the first one of two, or all there is: the scanner starts after it.
        have hstart : (groupText [] ++ restText gs ++ dotText dot).head? = some ':' ∨
            groupText [] ++ restText gs ++ dotText dot = [] := by
          rcases gs with _ | ⟨k, gs⟩
          · obtain rfl := hdot.eq_false fun g hg => (Option.some.inj hg).symm
            exact .inr rfl
          · exact .inl rfl
        have hcount : IsCounted { state := .colon, colons := -1 } (-1 + 1) :=
          ⟨le_rfl, by simp, by simp⟩
        have hall := matchRest hrest (hdot.of_cons fun _ => List.cons_ne_nil _ _)
          { state := .colon, colons := -1 } rfl hcount
        rw [restText_cons, List.cons_append] at hall
        have hshort : (groupText []).length ≤ 4 := Nat.zero_le 4
        rw [cmdIpv6Match_cons hchars fun _ => hstart, if_pos rfl, hall, if_pos rfl,
          closedGroups_cons fun _ => List.cons_ne_nil _ _, List.forall_mem_cons,
          and_iff_right hshort]
        exact and_congr_left fun _ => (and_iff_right (by simp)).symm
      · have hhead := head?_groupText_ne (hrest h List.mem_cons_self) hne
          (restText gs ++ dotText dot)
        have hnil := groupText_ne_nil (hrest h List.mem_cons_self) hne
          (restText gs ++ dotText dot)
        rw [List.append_assoc] at hchars ⊢
        refine iff_of_false ?_ fun hshape => hne (hshape.1.1 rfl h rfl)
        rw [cmdIpv6Match_of_colon hchars hhead hnil]
        decide
  · obtain ⟨c, str, hstr, hc⟩ := exists_cons_groupText hhead hne (restText rest ++ dotText dot)
    have hcount : IsCounted { state := .addr } 0 := ⟨le_rfl, by simp, by simp⟩
    have hall := cmdIpv6Loop_cons hhead hne rfl rfl hcount fun hgs =>
      matchRest hrest (hdot.of_cons hgs)
    rw [hstr] at hchars hall ⊢
    rw [cmdIpv6Match_cons hchars fun h => absurd h hc, if_neg hc, hall, if_neg hne]
    exact and_congr_left fun _ => (and_iff_right fun h => absurd h hne).symm

end Mksh.Ipv6
