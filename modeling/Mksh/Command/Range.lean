import Mathlib.Data.Bool.AllAny
import Mksh.Command.Match

/-!
# Ranges

A word in a range `<lo-hi>` is a number between the bounds, digits that may follow a plus
sign (`InRange`). The matcher reads the word with `strtoul`, which takes a minus sign as well,
and negates the number modulo `2 ^ 64`: a negative number close enough to a multiple of
`2 ^ 64` is taken for one in the range (`Wraps`). This is the only difference
(`cmdRangeMatch_iff`).
-/

namespace Mksh

open CString

variable {lo hi s d : CString}

/-- A number between the bounds, possibly after a plus sign. -/
def InRange (lo hi s : CString) : Prop :=
  ∃ d, (s = d ∨ s = '+' :: d) ∧ d ≠ [] ∧ IsDigits d ∧ decimal lo ≤ decimal d ∧
    decimal d ≤ decimal hi

/-- A number after a minus sign, less than `2 ^ 64`, that is negated to one between the bounds. -/
def Wraps (lo hi s : CString) : Prop :=
  ∃ d, s = '-' :: d ∧ d ≠ [] ∧ IsDigits d ∧ decimal d < 2 ^ 64 ∧
    decimal lo ≤ (2 ^ 64 - decimal d) % 2 ^ 64 ∧ (2 ^ 64 - decimal d) % 2 ^ 64 ≤ decimal hi

/-- A bound of one to ten digits. -/
structure IsBound (b : CString) : Prop where
  ne_nil : b ≠ []
  isDigits : IsDigits b
  length_le : b.length ≤ decimalStrlenMax

theorem IsBound.decimal_lt {b : CString} (hb : IsBound b) : decimal b < 2 ^ 64 - 1 := by
  have hlt := CString.decimal_lt hb.isDigits
  have hle : 10 ^ b.length ≤ 10 ^ 10 := Nat.pow_le_pow_right (by omega) hb.length_le
  omega

/-- A bound is read. -/
theorem rangeBound_append {b : CString} (hb : IsBound b) {stop : Char} (hstop : ¬isdigit stop)
    (range : CString) : rangeBound (b ++ stop :: range) stop = some (decimal b, range) := by
  have hlt := hb.decimal_lt
  have hsign := hb.isDigits.sign_eq
  have hspace := hb.isDigits.not_isspace
  have hsnd : (strtoul b).2 = [] := by
    rw [strtoul_eq_nil hb.ne_nil hspace, hsign]
    exact ⟨hb.ne_nil, hb.isDigits⟩
  have hfst : (strtoul b).1 = decimal b := by
    rw [strtoul_fst hspace (by rw [hsign]; exact hb.ne_nil) (by rw [hsign]; exact hb.isDigits),
      hsign]
    dsimp only
    rw [if_neg (by omega), if_neg Bool.false_ne_true]
  simp only [rangeBound, strchr_append (hb.isDigits.notMem hstop), if_neg hb.length_le.not_gt,
    List.take_left', hsnd, hfst, ne_eq, not_true_eq_false, if_false]
  rw [List.drop_append]
  simp

/-- What the matcher compares. -/
theorem cmdRangeMatch_eq (hlo : IsBound lo) (hhi : IsBound hi) (s : CString) :
    cmdRangeMatch ('<' :: (lo ++ '-' :: (hi ++ ['>']))) (some s) = true ↔
      (strtoul s).2 = [] ∧ decimal lo ≤ (strtoul s).1 ∧ (strtoul s).1 ≤ decimal hi := by
  have hmin := rangeBound_append hlo (show ¬isdigit '-' by decide) (hi ++ ['>'])
  have hmax := rangeBound_append hhi (show ¬isdigit '>' by decide) []
  simp only [cmdRangeMatch, List.tail_cons, hmin, hmax]
  by_cases hend : (strtoul s).2 = []
  · simp [hend]
  · simp [hend]

/-- Unsigned numbers in the range. -/
theorem cmdRangeMatch_unsigned (hlo : IsBound lo) (hhi : IsBound hi) (hne : s ≠ [])
    (hspace : ∀ c ∈ s, ¬isspace c) (hsign : sign s = (false, d)) :
    cmdRangeMatch ('<' :: (lo ++ '-' :: (hi ++ ['>']))) (some s) = true ↔
      d ≠ [] ∧ IsDigits d ∧ decimal lo ≤ decimal d ∧ decimal d ≤ decimal hi := by
  rw [cmdRangeMatch_eq hlo hhi, strtoul_eq_nil hne hspace, hsign, and_assoc]
  refine and_congr_right fun hd => and_congr_right fun hall => ?_
  have hlt := hhi.decimal_lt
  rw [strtoul_fst hspace (by rwa [hsign]) (by rwa [hsign]), hsign]
  dsimp only
  rw [if_neg Bool.false_ne_true]
  split_ifs with hbig
  · omega
  · rfl

/-- Numbers after a minus sign that are taken for numbers in the range. -/
theorem cmdRangeMatch_minus (hlo : IsBound lo) (hhi : IsBound hi)
    (hspace : ∀ c ∈ '-' :: d, ¬isspace c) :
    cmdRangeMatch ('<' :: (lo ++ '-' :: (hi ++ ['>']))) (some ('-' :: d)) = true ↔
      Wraps lo hi ('-' :: d) := by
  have hwraps : Wraps lo hi ('-' :: d) ↔ (d ≠ [] ∧ IsDigits d) ∧ decimal d < 2 ^ 64 ∧
      decimal lo ≤ (2 ^ 64 - decimal d) % 2 ^ 64 ∧ (2 ^ 64 - decimal d) % 2 ^ 64 ≤ decimal hi := by
    constructor
    · rintro ⟨_, ⟨⟩, hd, hall, h⟩
      exact ⟨⟨hd, hall⟩, h⟩
    · rintro ⟨⟨hd, hall⟩, h⟩
      exact ⟨d, rfl, hd, hall, h⟩
  have hsign : sign ('-' :: d) = (true, d) := rfl
  rw [cmdRangeMatch_eq hlo hhi, strtoul_eq_nil (List.cons_ne_nil _ _) hspace, hsign, hwraps]
  refine and_congr_right fun ⟨hd, hall⟩ => ?_
  have hlt := hhi.decimal_lt
  rw [strtoul_fst hspace (by rwa [hsign]) (by rwa [hsign]), hsign]
  dsimp only
  rw [if_pos rfl]
  split_ifs with hbig
  · omega
  · rw [and_iff_right (not_le.1 hbig)]

/-- Ranges are intervals, but for negative numbers that wrap around. -/
theorem cmdRangeMatch_iff (hlo : IsBound lo) (hhi : IsBound hi) (hne : s ≠ [])
    (hspace : ∀ c ∈ s, ¬isspace c) :
    (cmdRangeMatch ('<' :: (lo ++ '-' :: (hi ++ ['>']))) (some s) = true ↔ InRange lo hi s) ↔
      ¬Wraps lo hi s := by
  -- `strtoul` takes a sign: behind a minus it returns the negated value, which wraps.
  rcases sign_cases s with ⟨d, rfl, -⟩ | ⟨d, rfl, hsign⟩ | ⟨hminus, hplus, hsign⟩
  · have hnot : ¬InRange lo hi ('-' :: d) := by
      rintro ⟨d', rfl | h, -, hall, -⟩
      · exact absurd (hall '-' List.mem_cons_self) (by decide)
      · cases h
    rw [cmdRangeMatch_minus hlo hhi hspace, iff_false_right hnot]
  · have hnot : ¬Wraps lo hi ('+' :: d) := fun ⟨_, h, _⟩ => nomatch h
    refine iff_of_true ?_ hnot
    rw [cmdRangeMatch_unsigned hlo hhi hne hspace hsign]
    constructor
    · intro h
      exact ⟨d, .inr rfl, h⟩
    · rintro ⟨d', rfl | h, hd, hall, h'⟩
      · exact absurd (hall '+' List.mem_cons_self) (by decide)
      · obtain rfl := (List.cons.inj h).2
        exact ⟨hd, hall, h'⟩
  · have hnot : ¬Wraps lo hi s := by
      rintro ⟨d, rfl, -⟩
      exact hminus rfl
    refine iff_of_true ?_ hnot
    rw [cmdRangeMatch_unsigned hlo hhi hne hspace hsign]
    constructor
    · intro h
      exact ⟨s, .inl rfl, h⟩
    · rintro ⟨d, rfl | rfl, h⟩
      · exact h
      · exact absurd rfl hplus

/-- A range, and a number in it after a plus sign. -/
theorem cmdRangeMatch_iff_plus :
    (cmdRangeMatch ('<' :: ("1".toList ++ '-' :: ("4094".toList ++ ['>'])))
        (some "+100".toList) = true ↔
      InRange "1".toList "4094".toList "+100".toList) ↔
      ¬Wraps "1".toList "4094".toList "+100".toList :=
  cmdRangeMatch_iff ⟨by decide, by decide, by decide⟩ ⟨by decide, by decide, by decide⟩ (by decide)
    (List.all_iff_forall_prop.1 (by decide))

/-- A negative number that is taken for `1`. -/
theorem cmdRangeMatch_wraps : ¬∀ lo hi s : CString, IsBound lo → IsBound hi → s ≠ [] →
    (∀ c ∈ s, ¬isspace c) →
      (cmdRangeMatch ('<' :: (lo ++ '-' :: (hi ++ ['>']))) (some s) = true ↔ InRange lo hi s) := by
  intro h
  have hiff := h "1".toList "4094".toList "-18446744073709551615".toList
    ⟨by decide, by decide, by decide⟩ ⟨by decide, by decide, by decide⟩ (by decide)
    (List.all_iff_forall_prop.1 (by decide))
  obtain ⟨d, hd | hd, -, hall, -⟩ := hiff.1 (by decide)
  · rw [← hd] at hall
    exact absurd hall (by decide)
  · exact absurd hd (by simp)

end Mksh
