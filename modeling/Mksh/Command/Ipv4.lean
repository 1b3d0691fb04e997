import Mksh.Command.Match
import Mksh.Lib.Fields

/-!
# IPv4 addresses

The three scanners for IPv4 addresses take the same decision
(`ipv4_scanners_agree`): they are copies of one another, but for the slash and the
mask of a prefix.

An address is four numbers between dots (`IsIpv4`). The scanner is not quite a
recogniser of them: it does not look at the length of the first group, which may be
empty, nor at the number before a dot at the end. These are all its mistakes
(`cmdIpv4Match_class_iff`).
-/

namespace Mksh

open CString Fields

/-! ## Agreement -/

/-- The loops of `badIpAddress`, from `str` on. -/
def badIpAddressLoop (dots nums : ℕ) (buf : CString) : CString → ℤ
  | [] =>
    if buf.length > 3 then -1
    else if atoi buf > 255 then -1
    else if nums + 1 < 4 then -1
    else 0
  | c :: str =>
    if c = '.' then
      if dots ≥ 3 then -1
      else if str.head? = some '.' then -1
      else if str = [] then -1
      else if buf.length > 3 then -1
      else if atoi buf > 255 then -1
      else badIpAddressLoop (dots + 1) (nums + 1) [] str
    else if !isdigit c then -1
    else badIpAddressLoop dots nums (buf ++ [c]) str

/-- Checking whether the IPv4 address is valid: `-1` if it is not. -/
def badIpAddress : Option CString → ℤ
  | none => -1
  | some str => badIpAddressLoop 0 0 [] str

/-- The loop of `badIpAddress` accepts what the one of `cmd_ipv4_match` finds. -/
theorem badIpAddressLoop_eq (dots nums : ℕ) (buf str : CString) :
    badIpAddressLoop dots nums buf str =
      if cmdIpv4Loop dots nums buf str = .exactMatch then 0 else -1 := by
  induction str generalizing dots nums buf with
  | nil =>
    rw [badIpAddressLoop, cmdIpv4Loop]
    split_ifs <;> first | rfl | simp_all
  | cons c str ih =>
    rw [badIpAddressLoop, cmdIpv4Loop, ih, ih]
    split_ifs <;> first | rfl | simp_all

/-- A digit is neither a slash nor a dot. -/
theorem isdigit_ne {c : Char} (h : isdigit c) : c ≠ '/' ∧ c ≠ '.' := by
  constructor
  · rintro rfl
    exact absurd h (by decide)
  · rintro rfl
    exact absurd h (by decide)

/-- The loops over the address only return when there is no prefix. -/
theorem cmdIpv4PrefixLoop_ne_exactMatch (dots : ℕ) (buf str : CString) :
    cmdIpv4PrefixLoop dots buf str ≠ .error .exactMatch := by
  induction str generalizing dots buf with
  | nil =>
    rw [cmdIpv4PrefixLoop]
    split_ifs <;> simp
  | cons c str ih =>
    rw [cmdIpv4PrefixLoop]
    split_ifs <;> first | apply ih | simp

/-- There is no slash after the digits of a mask. -/
theorem cmdIpv4PrefixLoop_digits {m : CString} (hm : IsDigits m) (dots : ℕ) (buf sp : CString) :
    cmdIpv4PrefixLoop dots buf m ≠ .ok sp := by
  induction m generalizing buf with
  | nil =>
    rw [cmdIpv4PrefixLoop]
    split_ifs <;> simp
  | cons c m ih =>
    obtain ⟨hc, hm⟩ := List.forall_mem_cons.1 hm
    obtain ⟨hslash, hdot⟩ := isdigit_ne hc
    rw [cmdIpv4PrefixLoop, if_neg hslash, if_neg hdot, if_neg (by simp [hc])]
    exact ih hm _

/-- Over an address and a mask, the scanner for prefixes stops at the mask if the other one
    finds an address. -/
theorem cmdIpv4PrefixLoop_eq_ok {a m : CString} (ha : '/' ∉ a) (hm : IsDigits m) (hne : m ≠ [])
    {dots : ℕ} (hdots : dots ≤ 3) (buf sp : CString) :
    cmdIpv4PrefixLoop dots buf (a ++ '/' :: m) = .ok sp ↔
      cmdIpv4Loop dots dots buf a = .exactMatch ∧ sp = m := by
  induction a generalizing dots buf with
  | nil =>
    rw [List.nil_append, cmdIpv4PrefixLoop, if_pos rfl, cmdIpv4Loop]
    split_ifs with hlen hval hthree hfour
    · simp
    · simp
    · omega
    · simp [eq_comm]
    · -- The loop goes on after the slash, but there is nothing but digits.
      exact iff_of_false (cmdIpv4PrefixLoop_digits hm dots [] sp) (by simp)
    · omega
  | cons c a ih =>
    rw [List.mem_cons, not_or] at ha
    rw [List.cons_append, cmdIpv4PrefixLoop, cmdIpv4Loop, if_neg (Ne.symm ha.1)]
    by_cases hdot : c = '.'
    · rw [if_pos hdot, if_pos hdot]
      rcases a with _ | ⟨d, a⟩
      · -- The dot is the last character before the slash, or at the end.
        refine iff_of_false ?_ ?_
        · rw [List.nil_append, List.head?_cons]
          split_ifs <;> simp_all
        · rw [List.head?_nil]
          split_ifs <;> simp_all
      have hslash : d ≠ '/' := fun h => ha.2 (h ▸ List.mem_cons_self)
      rw [List.cons_append, List.head?_cons, List.head?_cons, if_neg (List.cons_ne_nil d _),
        if_neg (List.cons_ne_nil d _)]
      by_cases hthree : dots = 3
      · rw [if_pos hthree, if_pos hthree.ge]
        simp
      rw [if_neg hthree, if_neg (show ¬dots ≥ 3 by omega)]
      by_cases hd : d = '.'
      · rw [if_pos (.inl (congrArg some hd)), if_pos (congrArg some hd)]
        simp
      rw [if_neg (show ¬(some d = some '.' ∨ some d = some '/') by simp [hd, hslash]),
        if_neg (show ¬some d = some '.' by simp [hd])]
      split_ifs
      · simp
      · simp
      · exact ih ha.2 (by omega) []
    · rw [if_neg hdot, if_neg hdot]
      by_cases hdigit : isdigit c
      · rw [if_neg (by simp [hdigit]), if_neg (by simp [hdigit])]
        exact ih ha.2 hdots (buf ++ [c])
      · rw [if_pos (by simp [hdigit]), if_pos (by simp [hdigit])]
        simp

/-- The three scanners for addresses agree. -/
theorem ipv4_scanners_agree {a m : CString} (ha : '/' ∉ a) (hne : m ≠ []) (hm : IsDigits m)
    (hval : decimal m ≤ 32) :
    (badIpAddress (some a) = 0 ↔ cmdIpv4Match (some a) = .exactMatch) ∧
    (cmdIpv4Match (some a) = .exactMatch ↔
      cmdIpv4PrefixMatch (some (a ++ '/' :: m)) = .exactMatch) := by
  constructor
  · rw [badIpAddress, badIpAddressLoop_eq, cmdIpv4Match]
    split_ifs with h
    · exact iff_of_true rfl h
    · exact iff_of_false (by decide) h
  · have hatoi : atoi m = decimal m := atoi_eq_decimal hm (by omega)
    rw [cmdIpv4Match, cmdIpv4PrefixMatch]
    have hok := cmdIpv4PrefixLoop_eq_ok ha hm hne (Nat.zero_le 3) []
    -- The loop over the prefix returns before the mask, or stops at it.
    rcases hloop : cmdIpv4PrefixLoop 0 [] (a ++ '/' :: m) with ret | sp
    · rw [hloop] at hok
      have hnot : cmdIpv4Loop 0 0 [] a ≠ .exactMatch := fun h => by
        cases (hok m).2 ⟨h, rfl⟩
      refine iff_of_false hnot ?_
      rintro rfl
      exact cmdIpv4PrefixLoop_ne_exactMatch _ _ _ hloop
    · obtain ⟨hexact, rfl⟩ := (hok sp).1 hloop
      have hall : sp.all isdigit := List.all_eq_true.2 hm
      have hmask : ¬atoi sp > 32 := by omega
      simp only [hall, Bool.not_true, Bool.false_eq_true, if_false, if_neg hmask, hexact]

/-- Agreement on an address, with a mask that starts with zeros. -/
theorem ipv4_scanners_agree_on :
    (badIpAddress (some "10.0.0.1".toList) = 0 ↔
      cmdIpv4Match (some "10.0.0.1".toList) = .exactMatch) ∧
    (cmdIpv4Match (some "10.0.0.1".toList) = .exactMatch ↔
      cmdIpv4PrefixMatch (some ("10.0.0.1".toList ++ '/' :: "024".toList)) = .exactMatch) :=
  ipv4_scanners_agree (by decide) (by decide) (by decide) (by decide)

/-! ## Addresses -/

/-- The group is not too long, and its value not too large. -/
def IsShort (g : CString) : Prop := g.length ≤ 3 ∧ decimal g ≤ 255

/-- One to three digits, with a value of at most `255`. -/
def IsOctet (g : CString) : Prop := g ≠ [] ∧ IsDigits g ∧ IsShort g

/-- Four numbers, between single dots. -/
def IsIpv4 (s : CString) : Prop :=
  ∃ gs, gs.length = 4 ∧ (∀ g ∈ gs, IsOctet g) ∧ s = ['.'].intercalate gs

/-- How a string is to be classified. -/
def Ipv4Class (s : CString) : MatchType → Prop
  | .exactMatch => IsIpv4 s
  | .partlyMatch => ¬IsIpv4 s ∧ ∃ t, IsIpv4 t ∧ s <+: t ∧ s ≠ t
  | .noMatch => ¬IsIpv4 s ∧ ¬∃ t, IsIpv4 t ∧ s <+: t ∧ s ≠ t
  | _ => False

instance : DecidablePred IsShort := fun g =>
  inferInstanceAs (Decidable (g.length ≤ 3 ∧ decimal g ≤ 255))

variable {g h f : CString} {gs init : List CString} {dots : ℕ}

/-- There is no dot in a number. -/
theorem dot_notMem (hg : IsDigits g) : '.' ∉ g := fun hdot =>
  (isdigit_ne (hg '.' hdot)).2 rfl

/-- The checks of the scanner on a number, as bounds on its length and its value. -/
theorem isShort_iff (hg : IsDigits g) : IsShort g ↔ g.length ≤ 3 ∧ ¬atoi g > 255 := by
  refine and_congr_right fun hlen => ?_
  have hlt : decimal g < 10 ^ 3 :=
    (decimal_lt hg).trans_le (Nat.pow_le_pow_right (by decide) hlen)
  rw [atoi_eq_decimal hg (by omega)]
  omega

/-- What is typed of a number. -/
theorem IsOctet.typed (hg : IsOctet g) (hf : f <+: g) : f = [] ∨ IsOctet f := by
  obtain ⟨r, rfl⟩ := hf
  obtain ⟨-, hdigits, hlen, hval⟩ := hg
  rw [List.length_append] at hlen
  rcases eq_or_ne f [] with hnil | hne
  · exact .inl hnil
  · exact .inr ⟨hne, fun c hc => hdigits c (List.mem_append_left _ hc), by omega,
      (le_decimal_append f r).trans hval⟩

/-- What is typed of an address: numbers, of which the last one may be missing. -/
theorem exists_isIpv4_iff (hgs : ∀ x ∈ init ++ [f], '.' ∉ x) :
    (∃ t, IsIpv4 t ∧ ['.'].intercalate (init ++ [f]) <+: t) ↔
      init.length ≤ 3 ∧ (∀ x ∈ init, IsOctet x) ∧ (f = [] ∨ IsOctet f) := by
  have hne : init ++ [f] ≠ [] := List.append_ne_nil_of_right_ne_nil _ (List.cons_ne_nil f [])
  have hdots {l : List CString} (hl : ∀ x ∈ l, IsOctet x) : ∀ x ∈ l, '.' ∉ x := fun x hx =>
    dot_notMem (hl x hx).2.1
  constructor
  · rintro ⟨_, ⟨gs, hlen, hoctets, rfl⟩, hpre⟩
    have hne' : gs ≠ [] := fun h => by
      rw [h] at hlen
      cases hlen
    -- The address is cut within a number, of which a part is typed.
    obtain ⟨init', f', g, rest, heq, rfl, hfg⟩ :=
      (intercalate_prefix_iff hgs (hdots hoctets) hne hne').1 hpre
    obtain ⟨rfl, hlast⟩ := List.append_inj' heq rfl
    obtain rfl := (List.cons.inj hlast).1
    obtain ⟨hinit, hg⟩ := List.forall_mem_append.1 hoctets
    rw [List.length_append, List.length_cons] at hlen
    exact ⟨by omega, hinit, (hg g List.mem_cons_self).typed hfg⟩
  · rintro ⟨hlen, hinit, hf⟩
    -- The missing numbers are filled with zeros.
    have hzero : IsOctet ['0'] := ⟨by decide, by decide, by decide⟩
    obtain ⟨g, hg, hfg⟩ : ∃ g, IsOctet g ∧ f <+: g := by
      rcases hf with rfl | hf
      · exact ⟨['0'], hzero, List.nil_prefix⟩
      · exact ⟨f, hf, List.prefix_rfl⟩
    have hoctets : ∀ x ∈ init ++ g :: List.replicate (3 - init.length) ['0'], IsOctet x := by
      intro x hx
      rcases List.mem_append.1 hx with hx | hx
      · exact hinit x hx
      · rcases List.mem_cons.1 hx with rfl | hx
        · exact hg
        · rwa [List.eq_of_mem_replicate hx]
    refine ⟨_, ⟨_, ?_, hoctets, rfl⟩, (intercalate_prefix_iff hgs (hdots hoctets) hne ?_).2
      ⟨init, f, g, _, rfl, rfl, hfg⟩⟩
    · rw [List.length_append, List.length_cons, List.length_replicate]
      omega
    · exact List.append_ne_nil_of_right_ne_nil _ (List.cons_ne_nil _ _)

/-! ## The scanner, group by group -/

/-- What the scanner does with the group `g`, before other ones. -/
def groupsMatch : ℕ → CString → List CString → MatchType
  | dots, g, [] =>
    if IsDigits g ∧ IsShort g then
      if dots < 3 then .partlyMatch else .exactMatch
    else .noMatch
  | dots, g, h :: gs =>
    if IsDigits g ∧ dots < 3 then
      if h = [] then
        if gs = [] then .partlyMatch else .noMatch
      else if IsShort g then groupsMatch (dots + 1) h gs
      else .noMatch
    else .noMatch

/-- The characters of a group. -/
theorem cmdIpv4Loop_append (hg : '.' ∉ g) (dots nums : ℕ) (buf str : CString) :
    cmdIpv4Loop dots nums buf (g ++ str) =
      if IsDigits g then cmdIpv4Loop dots nums (buf ++ g) str else .noMatch := by
  induction g generalizing buf with
  | nil =>
    have hnil : IsDigits [] := List.forall_mem_nil _
    rw [if_pos hnil, List.nil_append, List.append_nil]
  | cons c g ih =>
    have hcons : IsDigits (c :: g) ↔ isdigit c ∧ IsDigits g := List.forall_mem_cons
    rw [List.mem_cons, not_or] at hg
    rw [List.cons_append, cmdIpv4Loop, if_neg (Ne.symm hg.1), ih hg.2, List.append_assoc,
      List.singleton_append]
    by_cases hc : isdigit c
    · simp [hcons, hc]
    · simp [hcons, hc]

/-- Nothing is left of the text iff there is one empty group left. -/
theorem intercalate_eq_nil_iff : ['.'].intercalate (h :: gs) = [] ↔ h = [] ∧ gs = [] := by
  rcases gs with _ | ⟨k, gs⟩
  · simp
  · simp

/-- After a dot, another dot is next iff the next group is empty and not the last one. -/
theorem head?_intercalate (hh : '.' ∉ h) (gs : List CString) :
    (['.'].intercalate (h :: gs)).head? = some '.' ↔ h = [] ∧ gs ≠ [] := by
  have hhead : h.head? ≠ some '.' := fun heq => hh (List.mem_of_mem_head? heq)
  rcases gs with _ | ⟨k, gs⟩
  · simp [hhead]
  · rw [intercalate_cons, List.head?_append]
    rcases h with _ | ⟨c, h⟩
    · simp
    · simpa using hhead

/-- The scanner works group by group. -/
theorem cmdIpv4Loop_eq_groupsMatch (hgs : ∀ x ∈ g :: gs, '.' ∉ x) (dots : ℕ) :
    cmdIpv4Loop dots dots [] (['.'].intercalate (g :: gs)) = groupsMatch dots g gs := by
  induction gs generalizing g dots with
  | nil =>
    obtain ⟨hg, -⟩ := List.forall_mem_cons.1 hgs
    rw [List.intercalate_singleton, ← List.append_nil g, cmdIpv4Loop_append hg, List.nil_append,
      List.append_nil, groupsMatch]
    by_cases hdigits : IsDigits g
    · simp only [hdigits, isShort_iff hdigits, if_true, true_and, cmdIpv4Loop]
      split_ifs <;> first | rfl | omega
    · simp only [hdigits, if_false, false_and]
  | cons h gs ih =>
    obtain ⟨hg, hgs⟩ := List.forall_mem_cons.1 hgs
    -- What the scanner sees after the dot is the start of the next group.
    have hhead := head?_intercalate (hgs h List.mem_cons_self) gs
    rw [intercalate_cons, cmdIpv4Loop_append hg, List.nil_append, groupsMatch]
    by_cases hdigits : IsDigits g
    · simp only [hdigits, isShort_iff hdigits, if_true, true_and, cmdIpv4Loop, ih hgs, hhead,
        intercalate_eq_nil_iff]
      by_cases hh : h = []
      · by_cases hgs : gs = []
        · simp only [hh, hgs, true_and, ne_eq, not_true, if_false, if_true]
          split_ifs <;> first | rfl | omega
        · simp only [hh, hgs, true_and, ne_eq, not_false_iff, if_false, if_true]
          split_ifs <;> rfl
      · simp only [hh, false_and, if_false]
        split_ifs <;> first | rfl | omega
    · simp only [hdigits, if_false, false_and]

/-- The groups that the scanner finds to be an address. -/
theorem groupsMatch_eq_exactMatch (hdots : dots ≤ 3) :
    groupsMatch dots g gs = .exactMatch ↔
      dots + gs.length = 3 ∧ IsDigits g ∧ IsShort g ∧ ∀ x ∈ gs, IsOctet x := by
  induction gs generalizing dots g with
  | nil =>
    rw [groupsMatch, List.length_nil]
    split_ifs with hg hthree
    · exact iff_of_false (by decide) (by omega)
    · exact iff_of_true rfl ⟨by omega, hg.1, hg.2, List.forall_mem_nil _⟩
    · exact iff_of_false (by decide) fun h => hg ⟨h.2.1, h.2.2.1⟩
  | cons h gs ih =>
    rw [groupsMatch, List.length_cons, List.forall_mem_cons]
    split_ifs with hg hh hgs hshort
    · exact iff_of_false (by decide) fun h => h.2.2.2.1.1 hh
    · exact iff_of_false (by decide) fun h => h.2.2.2.1.1 hh
    · rw [ih (by omega), IsOctet]
      constructor
      · rintro ⟨hlen, hdigits, hshort', hgs⟩
        exact ⟨by omega, hg.1, hshort, ⟨hh, hdigits, hshort'⟩, hgs⟩
      · rintro ⟨hlen, -, -, ⟨-, hdigits, hshort'⟩, hgs⟩
        exact ⟨by omega, hdigits, hshort', hgs⟩
    · exact iff_of_false (by decide) fun h => hshort h.2.2.1
    · exact iff_of_false (by decide) fun h => hg ⟨h.2.1, by omega⟩

/-- The groups before a dot at the end that the scanner accepts: it does not look at the value of
    the last one. -/
def DotAtEnd (dots : ℕ) (gs : List CString) : Prop :=
  ∃ init h, gs = init ++ [h, []] ∧ dots + init.length < 3 ∧ IsDigits h ∧
    (∀ x ∈ init, IsDigits x ∧ IsShort x) ∧ ∀ x ∈ (init ++ [h]).tail, x ≠ []

/-- A group is followed by one that is not empty, but for the dot at the end. -/
theorem dotAtEnd_cons : DotAtEnd dots (g :: h :: gs) ↔ IsDigits g ∧ dots < 3 ∧
    (h = [] ∧ gs = [] ∨ h ≠ [] ∧ IsShort g ∧ DotAtEnd (dots + 1) (h :: gs)) := by
  constructor
  · rintro ⟨init, f, heq, hlen, hdigits, hinit, hne⟩
    rcases init with _ | ⟨x, init⟩
    · cases heq
      exact ⟨hdigits, hlen, .inl ⟨rfl, rfl⟩⟩
    · obtain ⟨rfl, htail⟩ := List.cons.inj heq
      obtain ⟨hx, hinit⟩ := List.forall_mem_cons.1 hinit
      rw [List.length_cons] at hlen
      have hhead : h ∈ init ++ [f] := by
        have hh : (init ++ [f] ++ [[]]).head? = some h := by
          rw [List.append_assoc, List.singleton_append, ← List.append_eq, ← htail, List.head?_cons]
        rw [List.head?_append_of_ne_nil _ (by simp)] at hh
        exact List.mem_of_mem_head? hh
      exact ⟨hx.1, by omega, .inr ⟨hne h hhead, hx.2, init, f, htail, by omega, hdigits, hinit,
        fun y hy => hne y (List.mem_of_mem_tail hy)⟩⟩
  · rintro ⟨hdigits, hdots, ⟨rfl, rfl⟩ | ⟨hh, hshort, init, f, heq, hlen, hf, hinit, hne⟩⟩
    · exact ⟨[], g, rfl, hdots, hdigits, List.forall_mem_nil _, List.forall_mem_nil _⟩
    · refine ⟨g :: init, f, congrArg _ heq, ?_, hf,
        List.forall_mem_cons.2 ⟨⟨hdigits, hshort⟩, hinit⟩, ?_⟩
      · rw [List.length_cons]
        omega
      · rcases init with _ | ⟨x, init⟩
        · obtain ⟨rfl, -⟩ := List.cons.inj heq
          exact List.forall_mem_singleton.2 hh
        · obtain ⟨rfl, -⟩ := List.cons.inj heq
          exact List.forall_mem_cons.2 ⟨hh, hne⟩

/-- The groups that the scanner finds to be the start of an address. -/
theorem groupsMatch_eq_partlyMatch :
    groupsMatch dots g gs = .partlyMatch ↔
      (dots + gs.length < 3 ∧ IsDigits g ∧ IsShort g ∧ ∀ x ∈ gs, IsOctet x) ∨
        DotAtEnd dots (g :: gs) := by
  induction gs generalizing dots g with
  | nil =>
    have hone : ¬DotAtEnd dots [g] := by
      rintro ⟨init, h, heq, -⟩
      have hlen := congrArg List.length heq
      simp at hlen
    rw [groupsMatch, List.length_nil, or_iff_left hone]
    split_ifs with hg hthree
    · exact iff_of_true rfl ⟨hthree, hg.1, hg.2, List.forall_mem_nil _⟩
    · exact iff_of_false (by decide) fun h => hthree h.1
    · exact iff_of_false (by decide) fun h => hg ⟨h.2.1, h.2.2.1⟩
  | cons h gs ih =>
    -- The conditions on the first group apart from those on the others, as the scanner has them.
    have hoctets : dots + (gs.length + 1) < 3 ∧ IsDigits g ∧ IsShort g ∧
        (∀ x ∈ h :: gs, IsOctet x) ↔ IsDigits g ∧ dots < 3 ∧ h ≠ [] ∧ IsShort g ∧
          dots + 1 + gs.length < 3 ∧ IsDigits h ∧ IsShort h ∧ ∀ x ∈ gs, IsOctet x := by
      rw [List.forall_mem_cons, IsOctet]
      constructor
      · rintro ⟨hlen, hdigits, hshort, ⟨hh, hdigits', hshort'⟩, hgs⟩
        exact ⟨hdigits, by omega, hh, hshort, by omega, hdigits', hshort', hgs⟩
      · rintro ⟨hdigits, -, hh, hshort, hlen, hdigits', hshort', hgs⟩
        exact ⟨by omega, hdigits, hshort, ⟨hh, hdigits', hshort'⟩, hgs⟩
    rw [groupsMatch, List.length_cons, hoctets, dotAtEnd_cons]
    split_ifs with hg hh hgs hshort
    · simp [hg, hh, hgs]
    · simp [hg, hh, hgs]
    · rw [ih]
      simp [hg, hh, hshort]
    · simp [hh, hshort]
    · simp only [← and_assoc, hg]
      simp

/-! ## Classification -/

/-- What the scanner takes for an address, or for the start of one, and is none. -/
inductive Overlooks : CString → Prop
  /-- Two to four groups, of which the first one is empty. -/
  | leading (gs : List CString) : gs ≠ [] → gs.length ≤ 3 → (∀ g ∈ gs, IsOctet g) →
      Overlooks (['.'].intercalate ([] :: gs))
  /-- A number that is too large, before a dot at the end. -/
  | oversized (init : List CString) (h : CString) : init.length ≤ 2 →
      (∀ g ∈ init, IsOctet g) → h ≠ [] → IsDigits h → ¬IsShort h →
      Overlooks (['.'].intercalate (init ++ [h, []]))
  /-- A dot at the beginning, and one at the end. -/
  | dots (init : List CString) (h : CString) : init.length ≤ 1 → (∀ g ∈ init, IsOctet g) →
      h ≠ [] → IsDigits h → Overlooks (['.'].intercalate ([] :: init ++ [h, []]))
  /-- Nothing but a dot. -/
  | dot : Overlooks ['.']

/-- So does the function, from its first group. -/
theorem cmdIpv4Match_intercalate (hgs : ∀ x ∈ g :: gs, '.' ∉ x) :
    cmdIpv4Match (some (['.'].intercalate (g :: gs))) = groupsMatch 0 g gs :=
  cmdIpv4Loop_eq_groupsMatch hgs 0

/-- The scanner finds every address. -/
theorem cmdIpv4Match_of_isIpv4 {s : CString} (hs : IsIpv4 s) :
    cmdIpv4Match (some s) = .exactMatch := by
  obtain ⟨gs, hlen, hoctets, rfl⟩ := hs
  rcases gs with _ | ⟨g, gs⟩
  · cases hlen
  obtain ⟨⟨-, hdigits, hshort⟩, hgs⟩ := List.forall_mem_cons.1 hoctets
  rw [cmdIpv4Match_intercalate fun x hx => dot_notMem (hoctets x hx).2.1,
    groupsMatch_eq_exactMatch (Nat.zero_le 3)]
  rw [List.length_cons] at hlen
  exact ⟨by omega, hdigits, hshort, hgs⟩

/-- What the scanner does not reject. -/
theorem cmdIpv4Match_ne_noMatch_iff (hgs : ∀ x ∈ g :: gs, '.' ∉ x) :
    cmdIpv4Match (some (['.'].intercalate (g :: gs))) ≠ .noMatch ↔
      gs.length ≤ 3 ∧ IsDigits g ∧ IsShort g ∧ (∀ x ∈ gs, IsOctet x) ∨
        DotAtEnd 0 (g :: gs) := by
  have hexact : groupsMatch 0 g gs = .exactMatch ↔ _ := groupsMatch_eq_exactMatch (Nat.zero_le 3)
  have hpartly : groupsMatch 0 g gs = .partlyMatch ↔ _ := groupsMatch_eq_partlyMatch
  rw [← cmdIpv4Match_intercalate hgs, zero_add] at hexact hpartly
  constructor
  · intro hne
    rcases (cmdIpv4Match_isVerdict _).resolve_left hne with h | h
    · rcases hpartly.1 h with ⟨hlen, hg⟩ | hdot
      · exact .inl ⟨hlen.le, hg⟩
      · exact .inr hdot
    · obtain ⟨hlen, hg⟩ := hexact.1 h
      exact .inl ⟨hlen.le, hg⟩
  · rintro (⟨hlen, hg⟩ | hdot) hno
    · rcases hlen.lt_or_eq with hlt | heq
      · exact absurd (hno.symm.trans (hpartly.2 (.inl ⟨hlt, hg⟩))) (by decide)
      · exact absurd (hno.symm.trans (hexact.2 ⟨heq, hg⟩)) (by decide)
    · exact absurd (hno.symm.trans (hpartly.2 (.inr hdot))) (by decide)

/-- The scanner finds every start of an address. -/
theorem cmdIpv4Match_of_exists {s t : CString} (hs : ¬IsIpv4 s) (ht : IsIpv4 t) (hst : s <+: t) :
    cmdIpv4Match (some s) = .partlyMatch := by
  obtain ⟨g, gs, hgs, rfl⟩ := exists_intercalate '.' s
  rw [cmdIpv4Match_intercalate hgs, groupsMatch_eq_partlyMatch, zero_add]
  obtain ⟨init, f, hsplit⟩ := (g :: gs).eq_nil_or_concat'.resolve_left (List.cons_ne_nil g gs)
  have hex : ∃ t, IsIpv4 t ∧ ['.'].intercalate (init ++ [f]) <+: t := ⟨t, ht, hsplit ▸ hst⟩
  obtain ⟨hlen, hinit, hf⟩ := (exists_isIpv4_iff (hsplit ▸ hgs)).1 hex
  rcases hf with rfl | hf
  · rcases init.eq_nil_or_concat' with rfl | ⟨init, h, rfl⟩
    · -- There is nothing yet.
      cases hsplit
      exact .inl ⟨by decide, List.forall_mem_nil _, by decide, List.forall_mem_nil _⟩
    · obtain ⟨hinit, hh⟩ := List.forall_mem_append.1 hinit
      obtain ⟨hne, hdigits, -⟩ := List.forall_mem_singleton.1 hh
      rw [List.length_append, List.length_singleton] at hlen
      refine .inr ⟨init, h, ?_, by omega, hdigits, fun x hx => (hinit x hx).2, ?_⟩
      · rw [hsplit, List.append_assoc, List.singleton_append]
      · intro x hx
        rcases List.mem_append.1 (List.mem_of_mem_tail hx) with hx | hx
        · exact (hinit x hx).1
        · rwa [List.mem_singleton.1 hx]
  · have hoctets : ∀ x ∈ g :: gs, IsOctet x := by
      rw [hsplit]
      exact List.forall_mem_append.2 ⟨hinit, List.forall_mem_singleton.2 hf⟩
    have hfour : (g :: gs).length ≠ 4 := fun h => hs ⟨g :: gs, h, hoctets, rfl⟩
    have hlen' := congrArg List.length hsplit
    rw [List.length_append, List.length_singleton] at hlen'
    rw [List.length_cons] at hfour hlen'
    obtain ⟨⟨-, hdigits, hshort⟩, hgs⟩ := List.forall_mem_cons.1 hoctets
    exact .inl ⟨by omega, hdigits, hshort, hgs⟩

/-- A dot at the end makes the scanner forget the number before it. -/
theorem cmdIpv4Match_of_dotAtEnd (hgs : ∀ x ∈ init ++ [h, []], '.' ∉ x)
    (hlen : init.length ≤ 2) (hdigits : IsDigits h) (hinit : ∀ x ∈ init, IsDigits x ∧ IsShort x)
    (hne : ∀ x ∈ (init ++ [h]).tail, x ≠ []) :
    cmdIpv4Match (some (['.'].intercalate (init ++ [h, []]))) ≠ .noMatch := by
  have hdot : DotAtEnd 0 (init ++ [h, []]) := ⟨init, h, rfl, by omega, hdigits, hinit, hne⟩
  rcases hgroups : init ++ [h, []] with _ | ⟨g, gs⟩
  · exact absurd hgroups (List.append_ne_nil_of_right_ne_nil _ (List.cons_ne_nil h _))
  · rw [hgroups] at hgs hdot
    exact (cmdIpv4Match_ne_noMatch_iff hgs).2 (.inr hdot)

/-- An empty group is typed of an address only at the end, and a number that is too large never
    is. -/
theorem not_exists_isIpv4 (hgs : ∀ x ∈ init ++ [f], '.' ∉ x) (hg : g ∈ init)
    (hoctet : ¬IsOctet g) : ¬∃ t, IsIpv4 t ∧ ['.'].intercalate (init ++ [f]) <+: t := by
  rw [exists_isIpv4_iff hgs]
  exact fun h => hoctet (h.2.1 g hg)

/-- An empty group is no number. -/
theorem not_isOctet_nil : ¬IsOctet [] := fun h => h.1 rfl

/-- There are no dots in the numbers of an address. -/
theorem forall_dot_notMem (hgs : ∀ x ∈ gs, IsOctet x) : ∀ x ∈ gs, '.' ∉ x := fun x hx =>
  dot_notMem (hgs x hx).2.1

/-- What is overlooked starts no address, but is not rejected. -/
theorem Overlooks.spec {s : CString} (hs : Overlooks s) :
    cmdIpv4Match (some s) ≠ .noMatch ∧ ¬∃ t, IsIpv4 t ∧ s <+: t := by
  have hnil : '.' ∉ ([] : CString) := List.not_mem_nil
  have hempty : IsDigits [] ∧ IsShort [] := ⟨List.forall_mem_nil _, by decide⟩
  -- The scanner goes on in each case, though the first group, the one before the last dot, or
  -- both are no numbers.
  cases hs with
  | leading gs hne hlen hgs =>
    have hdots : ∀ x ∈ [] :: gs, '.' ∉ x := List.forall_mem_cons.2 ⟨hnil, forall_dot_notMem hgs⟩
    refine ⟨(cmdIpv4Match_ne_noMatch_iff hdots).2 (.inl ⟨hlen, hempty.1, hempty.2, hgs⟩), ?_⟩
    obtain ⟨init, f, rfl⟩ := gs.eq_nil_or_concat'.resolve_left hne
    rw [← List.cons_append] at hdots ⊢
    exact not_exists_isIpv4 hdots List.mem_cons_self not_isOctet_nil
  | oversized init h hlen hinit hne hdigits hshort =>
    have hdots : ∀ x ∈ init ++ [h, []], '.' ∉ x := List.forall_mem_append.2
      ⟨forall_dot_notMem hinit, List.forall_mem_cons.2
        ⟨dot_notMem hdigits, List.forall_mem_singleton.2 hnil⟩⟩
    constructor
    · refine cmdIpv4Match_of_dotAtEnd hdots hlen hdigits (fun x hx => (hinit x hx).2) ?_
      intro x hx
      rcases List.mem_append.1 (List.mem_of_mem_tail hx) with hx | hx
      · exact (hinit x hx).1
      · rwa [List.mem_singleton.1 hx]
    · rw [List.append_cons] at hdots ⊢
      exact not_exists_isIpv4 hdots (List.mem_append_right _ List.mem_cons_self)
        fun h => hshort h.2.2
  | dots init h hlen hinit hne hdigits =>
    have hdots : ∀ x ∈ [] :: init ++ [h, []], '.' ∉ x := List.forall_mem_append.2
      ⟨List.forall_mem_cons.2 ⟨hnil, forall_dot_notMem hinit⟩, List.forall_mem_cons.2
        ⟨dot_notMem hdigits, List.forall_mem_singleton.2 hnil⟩⟩
    constructor
    · refine cmdIpv4Match_of_dotAtEnd hdots (by rw [List.length_cons]; omega) hdigits
        (List.forall_mem_cons.2 ⟨hempty, fun x hx => (hinit x hx).2⟩) ?_
      exact List.forall_mem_append.2
        ⟨fun x hx => (hinit x hx).1, List.forall_mem_singleton.2 hne⟩
    · rw [List.append_cons] at hdots ⊢
      exact not_exists_isIpv4 hdots (List.mem_append_left _ List.mem_cons_self) not_isOctet_nil
  | dot =>
    have hdots : ∀ x ∈ [[]] ++ [[]], '.' ∉ x := List.forall_mem_cons.2
      ⟨hnil, List.forall_mem_singleton.2 hnil⟩
    exact ⟨by decide, not_exists_isIpv4 hdots List.mem_cons_self not_isOctet_nil⟩

/-- The scanner overlooks some mistakes, and makes no others. -/
theorem overlooks_iff (s : CString) : Overlooks s ↔
    cmdIpv4Match (some s) ≠ .noMatch ∧ ¬∃ t, IsIpv4 t ∧ s <+: t := by
  refine ⟨Overlooks.spec, ?_⟩
  rintro ⟨hmatch, hnot⟩
  obtain ⟨g, gs, hgs, rfl⟩ := exists_intercalate '.' s
  rcases (cmdIpv4Match_ne_noMatch_iff hgs).1 hmatch with
    ⟨hlen, hdigits, hshort, hoctets⟩ | ⟨init, h, heq, hlen, hdigits, hinit, hne⟩
  · rcases eq_or_ne g [] with rfl | hg
    · refine .leading gs ?_ hlen hoctets
      rintro rfl
      rw [← List.nil_append [[]]] at hgs hnot
      exact hnot ((exists_isIpv4_iff hgs).2 ⟨Nat.zero_le 3, List.forall_mem_nil _, .inl rfl⟩)
    · -- These are up to four numbers.
      have hall := List.forall_mem_cons.2 ⟨⟨hg, hdigits, hshort⟩, hoctets⟩
      obtain ⟨init, f, heq⟩ := (g :: gs).eq_nil_or_concat'.resolve_left (List.cons_ne_nil g gs)
      have hlen' := congrArg List.length heq
      rw [List.length_append, List.length_cons, List.length_singleton] at hlen'
      rw [heq] at hall hgs hnot
      obtain ⟨hinit, hf⟩ := List.forall_mem_append.1 hall
      exact absurd ((exists_isIpv4_iff hgs).2
        ⟨by omega, hinit, .inr (List.forall_mem_singleton.1 hf)⟩) hnot
  · rw [heq] at hgs hnot ⊢
    rw [zero_add] at hlen
    -- Some number before the last dot is none, since there are at most three of them.
    have hoctets : ¬∀ x ∈ init ++ [h], IsOctet x := by
      intro hall
      rw [List.append_cons] at hgs hnot
      refine hnot ((exists_isIpv4_iff hgs).2 ⟨?_, hall, .inl rfl⟩)
      rw [List.length_append, List.length_singleton]
      omega
    have hoversized (hall : ∀ x ∈ init, IsOctet x) (hh : h ≠ []) :
        Overlooks (['.'].intercalate (init ++ [h, []])) := by
      refine .oversized init h (by omega) hall hh hdigits fun hshort => hoctets ?_
      exact List.forall_mem_append.2
        ⟨hall, List.forall_mem_singleton.2 ⟨hh, hdigits, hshort⟩⟩
    rcases init with _ | ⟨x, init⟩
    · rcases eq_or_ne h [] with rfl | hh
      · exact .dot
      · exact hoversized (List.forall_mem_nil _) hh
    · rw [List.cons_append, List.tail_cons, List.forall_mem_append] at hne
      obtain ⟨hne, hh⟩ := hne
      obtain ⟨hx, hinit⟩ := List.forall_mem_cons.1 hinit
      have hall : ∀ y ∈ init, IsOctet y := fun y hy => ⟨hne y hy, hinit y hy⟩
      rw [List.forall_mem_singleton] at hh
      rcases eq_or_ne x [] with rfl | hx'
      · rw [List.length_cons] at hlen
        exact .dots init h (by omega) hall hh hdigits
      · exact hoversized (List.forall_mem_cons.2 ⟨⟨hx', hx⟩, hall⟩) hh

/-- When the scanner classifies a string correctly. -/
theorem cmdIpv4Match_class_iff (s : CString) :
    Ipv4Class s (cmdIpv4Match (some s)) ↔ ¬Overlooks s := by
  have hself (hs : IsIpv4 s) : ∃ t, IsIpv4 t ∧ s <+: t := ⟨s, hs, List.prefix_rfl⟩
  rw [overlooks_iff, not_and_not_right]
  constructor
  · intro hclass hne
    rcases (cmdIpv4Match_isVerdict (some s)).resolve_left hne with h | h
    · rw [h] at hclass
      obtain ⟨-, t, ht, hst, -⟩ := hclass
      exact ⟨t, ht, hst⟩
    · rw [h] at hclass
      exact hself hclass
  · intro himp
    by_cases hs : IsIpv4 s
    · rw [cmdIpv4Match_of_isIpv4 hs]
      exact hs
    · by_cases ht : ∃ t, IsIpv4 t ∧ s <+: t
      · obtain ⟨t, ht, hst⟩ := ht
        rw [cmdIpv4Match_of_exists hs ht hst]
        exact ⟨hs, t, ht, hst, fun h => hs (h ▸ ht)⟩
      · rw [not_not.1 (mt himp ht)]
        exact ⟨hs, fun ⟨t, h, hst, _⟩ => ht ⟨t, h, hst⟩⟩

/-- The scanner takes three numbers after a dot for an address. -/
theorem cmdIpv4Match_not_class : ¬∀ s, Ipv4Class s (cmdIpv4Match (some s)) := by
  intro hclass
  have hone (c : Char) (hc : isdigit c) (hle : digitVal c ≤ 255) : IsOctet [c] :=
    ⟨List.cons_ne_nil c _, List.forall_mem_singleton.2 hc, by simp, by simpa [decimal] using hle⟩
  have hnot := (Overlooks.leading [['1'], ['2'], ['3']] (List.cons_ne_nil _ _) le_rfl
    (List.forall_mem_cons.2 ⟨hone '1' (by decide) (by decide), List.forall_mem_cons.2
      ⟨hone '2' (by decide) (by decide),
        List.forall_mem_singleton.2 (hone '3' (by decide) (by decide))⟩⟩)).spec.2
  exact hnot ⟨_, hclass ".1.2.3".toList, List.prefix_rfl⟩

end Mksh
