import Mathlib.Algebra.Group.Int.Defs
import Mathlib.Algebra.Group.Nat.Defs
import Mathlib.Data.Int.Basic
import Mathlib.Data.List.Basic
import Mathlib.Data.List.Induction
import Mathlib.Data.List.TakeWhile

/-!
# C strings

The part of the C string library that a command interpreter leans on, over
strings given as the list of the characters before the terminating NUL. A
pointer into a string is the list of the characters from it on, so that `*str`
is the head of the list, and `NUL` its end.

* `strcmp` and `strncmp`: only the sign of their value is specified, and only
  whether it is `0` is characterised here (`strcmp_eq_zero`,
  `strncmp_length_eq_zero`);
* `strstr`: the position of the first occurrence (`strstr_isSome`);
* `strtoul` and `strtol`, in base `10`, with 64-bit `long`s: they skip white
  space, read a sign and the digits, saturate on overflow, and return the rest
  of the string (the `endptr`), all of it when there are no digits
  (`strtoul_eq_nil`, `strtoul_fst`);
* `atoi`, the value of `strtol` truncated to a 32-bit `int`, which is that of the
  digits if they fit (`atoi_eq_decimal`).
-/

/-- A string: the characters before the terminating NUL. -/
abbrev CString := List Char

namespace CString

/-! ## Characters -/

/-- White space in the C locale: space, and `\t`, `\n`, `\v`, `\f`, `\r`. -/
def isspace (c : Char) : Bool := c = ' ' || ('\t' ≤ c && c ≤ '\r')

/-- A decimal digit. -/
def isdigit (c : Char) : Bool := '0' ≤ c && c ≤ '9'

/-- A small letter. -/
def islower (c : Char) : Bool := 'a' ≤ c && c ≤ 'z'

/-- The upper case of a lower case letter. -/
def toupper (c : Char) : Char := if islower c then Char.ofNat (c.toNat - 32) else c

/-- A capital letter. -/
def isupper (c : Char) : Bool := 'A' ≤ c && c ≤ 'Z'

/-- A letter. -/
def isalpha (c : Char) : Bool := islower c || isupper c

/-- The lower case of an upper case letter. -/
def tolower (c : Char) : Char := if isupper c then Char.ofNat (c.toNat + 32) else c

/-- A hexadecimal digit. -/
def isxdigit (c : Char) : Bool := isdigit c || ('a' ≤ c && c ≤ 'f') || ('A' ≤ c && c ≤ 'F')

/-- The value of a digit. -/
def digitVal (c : Char) : ℕ := c.toNat - '0'.toNat

/-- The value of a hexadecimal digit. -/
def xdigitVal (c : Char) : ℕ :=
  if isdigit c then digitVal c
  else if islower c then c.toNat - 'a'.toNat + 10
  else c.toNat - 'A'.toNat + 10

/-- The codes of the digits. -/
theorem isdigit_iff {c : Char} : isdigit c ↔ 48 ≤ c.toNat ∧ c.toNat ≤ 57 := by
  rw [isdigit, Bool.and_eq_true, decide_eq_true_eq, decide_eq_true_eq]
  exact Iff.rfl

/-- The codes of the small letters. -/
theorem islower_iff {c : Char} : islower c ↔ 97 ≤ c.toNat ∧ c.toNat ≤ 122 := by
  rw [islower, Bool.and_eq_true, decide_eq_true_eq, decide_eq_true_eq]
  exact Iff.rfl

/-- The codes of the capital letters. -/
theorem isupper_iff {c : Char} : isupper c ↔ 65 ≤ c.toNat ∧ c.toNat ≤ 90 := by
  rw [isupper, Bool.and_eq_true, decide_eq_true_eq, decide_eq_true_eq]
  exact Iff.rfl

theorem isalpha_iff {c : Char} : isalpha c ↔
    97 ≤ c.toNat ∧ c.toNat ≤ 122 ∨ 65 ≤ c.toNat ∧ c.toNat ≤ 90 := by
  rw [isalpha, Bool.or_eq_true, islower_iff, isupper_iff]

/-- The codes of the hexadecimal digits. -/
theorem isxdigit_iff {c : Char} : isxdigit c ↔ 48 ≤ c.toNat ∧ c.toNat ≤ 57 ∨
    97 ≤ c.toNat ∧ c.toNat ≤ 102 ∨ 65 ≤ c.toNat ∧ c.toNat ≤ 70 := by
  rw [isxdigit, Bool.or_eq_true, Bool.or_eq_true, isdigit_iff, Bool.and_eq_true,
    Bool.and_eq_true, decide_eq_true_eq, decide_eq_true_eq, decide_eq_true_eq,
    decide_eq_true_eq, or_assoc]
  exact Iff.rfl

theorem toNat_ofNat {n : ℕ} (hn : n < 128) : (Char.ofNat n).toNat = n := by
  have hvalid : n.isValidChar := .inl (by omega)
  rw [Char.ofNat, dif_pos hvalid]
  rfl

/-- The code of a capital letter is 32 less than that of the small one. -/
theorem toNat_toupper (c : Char) :
    (toupper c).toNat = if islower c then c.toNat - 32 else c.toNat := by
  rw [toupper]
  split_ifs with h
  · rw [islower_iff] at h
    exact toNat_ofNat (by omega)
  · rfl

/-- The code of a small letter is 32 more than that of the capital one. -/
theorem toNat_tolower (c : Char) :
    (tolower c).toNat = if isupper c then c.toNat + 32 else c.toNat := by
  rw [tolower]
  split_ifs with h
  · rw [isupper_iff] at h
    exact toNat_ofNat (by omega)
  · rfl

/-! ## Comparison and search -/

/-- Comparing strings: the difference of the first characters in which they differ, the end of a
    string being before all characters. -/
def strcmp : CString → CString → ℤ
  | [], [] => 0
  | [], _ :: _ => -1
  | _ :: _, [] => 1
  | a :: s, b :: t => if a = b then strcmp s t else (a.toNat : ℤ) - b.toNat

/-- `strncmp` reads at most `n` characters of either string. -/
def strncmp (s t : CString) (n : ℕ) : ℤ := strcmp (s.take n) (t.take n)

/-- The position of the first `c` in `s`, if there is one. -/
def strchr (s : CString) (c : Char) : Option ℕ := s.findIdx? (· = c)

/-- The position of the first `t` in `s`, if there is one. -/
def strstr : CString → CString → Option ℕ
  | [], t => if t <+: [] then some 0 else none
  | a :: s, t => if t <+: a :: s then some 0 else (strstr s t).map (· + 1)

/-- The length of the longest prefix of `s` with characters in `accept`. -/
def strspn (s accept : CString) : ℕ := (s.takeWhile (· ∈ accept)).length

/-- All the characters are accepted. -/
theorem strspn_eq_length {s accept : CString} :
    strspn s accept = s.length ↔ ∀ c ∈ s, c ∈ accept := by
  rw [strspn]
  constructor
  · intro h
    have heq := (List.takeWhile_prefix _).eq_of_length h
    rw [List.takeWhile_eq_self_iff] at heq
    simpa using heq
  · intro h
    rw [List.takeWhile_eq_self_iff.2 (by simpa using h)]

/-- Strings that compare equal are equal. -/
@[simp]
theorem strcmp_eq_zero {s t : CString} : strcmp s t = 0 ↔ s = t := by
  induction s generalizing t with
  | nil => cases t <;> simp [strcmp]
  | cons a s ih =>
    cases t with
    | nil => simp [strcmp]
    | cons b t =>
      rw [strcmp]
      by_cases hab : a = b
      · rw [if_pos hab, ih, hab, List.cons_inj_right]
      · have hne : a.toNat ≠ b.toNat := fun h => hab (Char.toNat_inj.1 h)
        rw [if_neg hab, List.cons_eq_cons]
        exact ⟨fun h => absurd (by omega) hne, fun h => absurd h.1 hab⟩

/-- `strcmp` is a total order. -/
theorem strcmp_nonpos_total (s t : CString) : strcmp s t ≤ 0 ∨ strcmp t s ≤ 0 := by
  induction s generalizing t with
  | nil => exact .inl (by cases t <;> simp [strcmp])
  | cons a s ih =>
    cases t with
    | nil => exact .inr (by simp [strcmp])
    | cons b t =>
      simp only [strcmp, eq_comm (a := b)]
      split_ifs with hab
      · exact ih t
      · omega

/-- The order of strings is transitive. -/
theorem strcmp_nonpos_trans {s t u : CString} (h : strcmp s t ≤ 0) (h' : strcmp t u ≤ 0) :
    strcmp s u ≤ 0 := by
  induction s generalizing t u with
  | nil => cases u <;> simp [strcmp]
  | cons a s ih =>
    rcases t with _ | ⟨b, t⟩
    · exact absurd h (by simp [strcmp])
    rcases u with _ | ⟨c, u⟩
    · exact absurd h' (by simp [strcmp])
    have hne {x y : Char} (hxy : x ≠ y) : x.toNat ≠ y.toNat := fun h => hxy (Char.toNat_inj.1 h)
    rw [strcmp] at h h' ⊢
    -- The first difference of `s` and `t` decides, unless `t` and `u` differ earlier.
    by_cases hab : a = b
    · subst hab
      rw [if_pos rfl] at h
      split_ifs at h' ⊢ with hac
      · exact ih h h'
      · exact h'
    · rw [if_neg hab] at h
      have hlt := hne hab
      by_cases hbc : b = c
      · rw [← hbc, if_neg hab]
        exact h
      · rw [if_neg hbc] at h'
        have hac : a ≠ c := by
          rintro rfl
          omega
        rw [if_neg hac]
        omega

/-- Comparing as many characters as `s` has tests whether `s` is a prefix. -/
@[simp]
theorem strncmp_length_eq_zero {s t : CString} : strncmp s t s.length = 0 ↔ s <+: t := by
  rw [strncmp, strcmp_eq_zero, List.take_length, eq_comm, List.prefix_iff_eq_take, eq_comm]

/-- Searching for a character that comes after others. -/
theorem strchr_append {c : Char} {s : CString} (hs : c ∉ s) (t : CString) :
    strchr (s ++ c :: t) c = some s.length := by
  rw [strchr, List.findIdx?_append, List.findIdx?_eq_none_iff.2, List.findIdx?_cons]
  · simp
  · exact fun d hd => decide_eq_false fun h => hs (h ▸ hd)

/-- `strstr` finds what is there. -/
@[simp]
theorem strstr_isSome {s t : CString} : (strstr s t).isSome ↔ t <:+: s := by
  induction s with
  | nil => simp [strstr, List.infix_nil]
  | cons a s ih =>
    rw [strstr, List.infix_cons_iff, ← ih]
    split_ifs with h
    · simp [h]
    · simp [h]

/-- What is found lies within the string. -/
theorem add_length_le_of_strstr {s t : CString} {n : ℕ} (h : strstr s t = some n) :
    n + t.length ≤ s.length := by
  induction s generalizing n with
  | nil =>
    rw [strstr] at h
    split_ifs at h with ht
    obtain rfl := Option.some.inj h
    simpa using ht.length_le
  | cons a s ih =>
    rw [strstr] at h
    split_ifs at h with ht
    · obtain rfl := Option.some.inj h
      simpa using ht.length_le
    · obtain ⟨m, hm, rfl⟩ := Option.map_eq_some_iff.1 h
      rw [List.length_cons, Nat.add_right_comm]
      exact Nat.succ_le_succ (ih hm)

/-- Searching for a string that is appended, and that does not repeat its first
    character: an earlier one is found, or else the one appended. -/
theorem strstr_append_self {c : Char} {t : CString} (hc : c ∉ t) (s : CString) :
    strstr (s ++ c :: t) (c :: t) = some ((strstr s (c :: t)).getD s.length) := by
  induction s with
  | nil => simp [strstr]
  | cons a s ih =>
    -- An occurrence at the start is one in `a :: s`: it cannot straddle.
    have hpre : c :: t <+: a :: s ++ c :: t ↔ c :: t <+: a :: s := by
      refine ⟨fun h => ?_, fun h => h.trans (List.prefix_append _ _)⟩
      rcases List.prefix_or_prefix_of_prefix h (List.prefix_append (a :: s) (c :: t)) with h' | h'
      · exact h'
      · obtain ⟨r, hr⟩ := h'
        rcases r with _ | ⟨b, r⟩
        · exact ⟨[], by rw [List.append_nil, ← hr, List.append_nil]⟩
        · rw [← hr, List.prefix_append_right_inj] at h
          have hb : b = c := ((List.cons_prefix_cons.1 (hr ▸ h)).1)
          have ht : s ++ b :: r = t := (List.cons.inj hr).2
          exact absurd (ht ▸ hb ▸ List.mem_append_right s List.mem_cons_self) hc
    rw [List.cons_append, strstr, strstr, ih, ← List.cons_append]
    simp only [hpre]
    split_ifs
    · rfl
    · cases strstr s (c :: t) <;> rfl

/-! ## Numbers -/

/-- The value of a string of digits. -/
def decimal (s : CString) : ℕ := s.foldl (fun v c => 10 * v + digitVal c) 0

/-- The sign of a number, and what follows it: `true` for a minus sign. -/
def sign : CString → Bool × CString
  | '-' :: s => (true, s)
  | '+' :: s => (false, s)
  | s => (false, s)

/-- `strtoul` in base `10`: the value and the `endptr`. A minus sign negates
    the value modulo `2 ^ 64`. -/
def strtoul (s : CString) : ℕ × CString :=
  let (neg, body) := sign (s.dropWhile isspace)
  let digits := body.takeWhile isdigit
  let rest := body.dropWhile isdigit
  if digits = [] then (0, s)
  else if 2 ^ 64 ≤ decimal digits then (2 ^ 64 - 1, rest)
  else if neg then ((2 ^ 64 - decimal digits) % 2 ^ 64, rest)
  else (decimal digits, rest)

/-- `strtol` in base `10`: the value and the `endptr`. -/
def strtol (s : CString) : ℤ × CString :=
  let (neg, body) := sign (s.dropWhile isspace)
  let digits := body.takeWhile isdigit
  let rest := body.dropWhile isdigit
  if digits = [] then (0, s)
  else if neg then (max (-2 ^ 63) (-(decimal digits : ℤ)), rest)
  else (min (2 ^ 63 - 1) (decimal digits : ℤ), rest)

/-- `atoi`: the value of `strtol`, truncated to an `int`. -/
def atoi (s : CString) : ℤ := (strtol s).1.bmod (2 ^ 32)

/-- The string has nothing but digits. -/
def IsDigits (s : CString) : Prop := ∀ c ∈ s, isdigit c

instance : DecidablePred IsDigits := List.decidableBAll fun c => isdigit c

theorem digitVal_le {c : Char} (h : isdigit c) : digitVal c ≤ 9 :=
  Nat.sub_le_sub_right (isdigit_iff.1 h).2 48

theorem isspace_eq_false {c : Char} (h : isdigit c) : isspace c = false := by
  have hval := (isdigit_iff.1 h).1
  have hne : c ≠ ' ' := by
    rintro rfl
    exact absurd hval (by decide)
  have hr : ¬c ≤ '\r' := by
    intro hcr
    have hcr : c.toNat ≤ 13 := hcr
    omega
  simp [isspace, hne, hr]

/-- The digits that follow go on with the number. -/
theorem decimal_append (s t : CString) :
    decimal (s ++ t) = t.foldl (fun v c => 10 * v + digitVal c) (decimal s) := List.foldl_append

/-- More digits make no smaller number. -/
theorem le_decimal_append (s t : CString) : decimal s ≤ decimal (s ++ t) := by
  rw [decimal_append]
  induction t generalizing s with
  | nil => exact le_rfl
  | cons c t ih =>
    have hs : decimal (s ++ [c]) = 10 * decimal s + digitVal c := decimal_append s [c]
    have hle := ih (s ++ [c])
    rw [hs] at hle
    exact le_trans (by omega) hle

/-- The number of digits bounds the number. -/
theorem decimal_lt {s : CString} (h : IsDigits s) : decimal s < 10 ^ s.length := by
  induction s using List.reverseRecOn with
  | nil => exact Nat.one_pos
  | append_singleton s c ih =>
    obtain ⟨hs, hc⟩ := List.forall_mem_append.1 h
    have hdigit := digitVal_le (hc c (List.mem_singleton_self c))
    have hlt := ih hs
    have hsc : decimal (s ++ [c]) = 10 * decimal s + digitVal c := decimal_append s [c]
    rw [hsc, List.length_append, List.length_singleton, Nat.pow_succ]
    omega

theorem IsDigits.notMem {s : CString} (h : IsDigits s) {c : Char} (hc : ¬isdigit c) : c ∉ s :=
  fun hmem => hc (h c hmem)

theorem IsDigits.not_isspace {s : CString} (h : IsDigits s) : ∀ c ∈ s, ¬isspace c :=
  fun c hc => by
    rw [isspace_eq_false (h c hc)]
    exact Bool.false_ne_true

/-- The three kinds of signs. -/
theorem sign_cases (s : CString) : (∃ d, s = '-' :: d ∧ sign s = (true, d)) ∨
    (∃ d, s = '+' :: d ∧ sign s = (false, d)) ∨ s.head? ≠ some '-' ∧ s.head? ≠ some '+' ∧
      sign s = (false, s) := by
  rw [sign.eq_def]
  split
  · exact .inl ⟨_, rfl, rfl⟩
  · exact .inr (.inl ⟨_, rfl, rfl⟩)
  · rename_i h h'
    refine .inr (.inr ⟨fun h0 => ?_, fun h0 => ?_, rfl⟩)
    · obtain ⟨t, rfl⟩ := List.head?_eq_some_iff.1 h0
      exact h t rfl
    · obtain ⟨t, rfl⟩ := List.head?_eq_some_iff.1 h0
      exact h' t rfl

/-- Digits have no sign. -/
theorem IsDigits.sign_eq {s : CString} (h : IsDigits s) : sign s = (false, s) := by
  rcases sign_cases s with ⟨t, rfl, -⟩ | ⟨t, rfl, -⟩ | ⟨-, -, hsign⟩
  · exact absurd (h '-' List.mem_cons_self) (by decide)
  · exact absurd (h '+' List.mem_cons_self) (by decide)
  · exact hsign

/-- A number is read to its end. -/
theorem strtol_eq_min {s : CString} (h : IsDigits s) (hne : s ≠ []) :
    strtol s = (min (2 ^ 63 - 1) ↑(decimal s), []) := by
  have htake : s.takeWhile isdigit = s := List.takeWhile_eq_self_iff.2 h
  have hdrop : s.dropWhile isdigit = [] := List.dropWhile_eq_nil_iff.2 h
  have hspace : s.dropWhile isspace = s := by
    obtain ⟨c, s, rfl⟩ := List.exists_cons_of_ne_nil hne
    exact List.dropWhile_cons_of_neg (h.not_isspace c List.mem_cons_self)
  simp only [strtol, hspace, h.sign_eq, htake, hdrop, if_neg hne, Bool.false_eq_true, if_false]

/-- Of digits that are in range, `strtol` reads the number, and all of them. -/
theorem strtol_eq_decimal {s : CString} (h : IsDigits s) (hne : s ≠ []) (hlt : decimal s < 2 ^ 63) :
    strtol s = (↑(decimal s), []) := by
  have hmin : min (2 ^ 63 - 1) (↑(decimal s) : ℤ) = decimal s := by omega
  rw [strtol_eq_min h hne, hmin]

/-- What is read to its end, without a sign, is a number. -/
theorem isDigits_of_strtol {s : CString} (hspace : ∀ c ∈ s, ¬isspace c) (hminus : '-' ∉ s)
    (hplus : '+' ∉ s) (h : (strtol s).2 = []) : IsDigits s := by
  have hsign : sign s = (false, s) := by
    rcases sign_cases s with ⟨d, rfl, -⟩ | ⟨d, rfl, -⟩ | ⟨-, -, hsign⟩
    · exact absurd List.mem_cons_self hminus
    · exact absurd List.mem_cons_self hplus
    · exact hsign
  rcases s with _ | ⟨c, s⟩
  · exact List.forall_mem_nil _
  · have hdrop : (c :: s).dropWhile isspace = c :: s :=
      List.dropWhile_cons_of_neg (hspace c List.mem_cons_self)
    simp only [strtol, hdrop, hsign, Bool.false_eq_true, if_false] at h
    split_ifs at h
    exact List.dropWhile_eq_nil_iff.1 h

/-- A word is read to its end if it has nothing but digits after a sign. -/
theorem strtoul_eq_nil {s : CString} (hne : s ≠ []) (hspace : ∀ c ∈ s, ¬isspace c) :
    (strtoul s).2 = [] ↔ (sign s).2 ≠ [] ∧ IsDigits (sign s).2 := by
  have hdrop : s.dropWhile isspace = s := by
    obtain ⟨c, s, rfl⟩ := List.exists_cons_of_ne_nil hne
    exact List.dropWhile_cons_of_neg (hspace c List.mem_cons_self)
  have hsnd : (strtoul s).2 = if (sign s).2.takeWhile isdigit = [] then s
      else (sign s).2.dropWhile isdigit := by
    simp only [strtoul, hdrop]
    split_ifs <;> rfl
  rw [hsnd]
  split_ifs with hdigits
  · refine iff_of_false hne ?_
    rintro ⟨hbody, hall⟩
    rw [List.takeWhile_eq_self_iff.2 hall] at hdigits
    exact hbody hdigits
  · rw [List.dropWhile_eq_nil_iff]
    refine ⟨fun hall => ⟨?_, hall⟩, And.right⟩
    rintro hbody
    rw [hbody] at hdigits
    exact hdigits rfl

/-- The value of a word that is read to its end. -/
theorem strtoul_fst {s : CString} (hspace : ∀ c ∈ s, ¬isspace c) (hne : (sign s).2 ≠ [])
    (hall : IsDigits (sign s).2) : (strtoul s).1 =
      if 2 ^ 64 ≤ decimal (sign s).2 then 2 ^ 64 - 1
      else if (sign s).1 then (2 ^ 64 - decimal (sign s).2) % 2 ^ 64
      else decimal (sign s).2 := by
  have hdrop : s.dropWhile isspace = s := by
    rcases s with _ | ⟨c, s⟩
    · rfl
    · exact List.dropWhile_cons_of_neg (hspace c List.mem_cons_self)
  simp only [strtoul, hdrop, List.takeWhile_eq_self_iff.2 hall, if_neg hne]
  split_ifs <;> rfl

/-- The value of a number that fits in an `int`. -/
theorem atoi_eq_decimal {s : CString} (h : IsDigits s) (hlt : decimal s < 2 ^ 31) :
    atoi s = decimal s := by
  have hstrtol : (strtol s).1 = decimal s := by
    rcases eq_or_ne s [] with rfl | hne
    · rfl
    · rw [strtol_eq_decimal h hne (by omega)]
  rw [atoi, hstrtol]
  exact Int.bmod_eq_of_le (by omega) (by omega)

end CString
