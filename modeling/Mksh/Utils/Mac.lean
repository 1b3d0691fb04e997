import Mksh.Lib.CString
import Mksh.Lib.Fields

/-!
# MAC addresses

Two functions for MAC addresses: one checks a string (`isMacValid`), the other one
converts it to bytes (`macstrToMacaddr`), and checks it on the way. The latter cuts the
string at the separators, from the last one to the first one, and looks at the characters
after each of them, but not closely: at the first group even less. So it accepts strings that
are no addresses (`IsLoose`), and reads past its buffer for others (`IsCut`). But for
these, it accepts the valid strings with colons, and returns their bytes
(`macstrToMacaddr_iff`).
-/

namespace Mksh

open CString

/-! ## Checking -/

/-- A separator of the bytes, `MAC_SEP_1`. -/
def macSep1 : Char := '-'

/-- The other separator, `MAC_SEP_2`. -/
def macSep2 : Char := ':'

/-- The length of an address of six bytes. -/
def macLength : ℕ := 17

/-- The loop of `isMacValid`, from `temp[i * 3]` on. -/
def isMacValidLoop : CString → ℤ
  | a :: b :: sep :: temp =>
    if !isdigit a && (toupper a < 'A' || toupper a > 'F') then -1
    else if !isdigit b && (toupper b < 'A' || toupper b > 'F') then -1
    else if sep ≠ macSep1 ∧ sep ≠ macSep2 then -1
    else isMacValidLoop temp
  | _ => 0

/-- Checking whether the MAC address is valid: `-1` if it is not. -/
def isMacValid (macAddr : CString) : ℤ :=
  -- The last byte is followed by a separator too, which is appended.
  if macAddr.length ≠ macLength then -1 else isMacValidLoop (macAddr ++ [':'])

/-! ## Conversion -/

/-- What a call returns, with the bytes at `addr`, unless it accesses memory that is neither in
    its buffer nor at `addr`. -/
inductive MacOutcome
  | returns (ret : ℤ) (addr : List UInt8)
  | overrun
  deriving DecidableEq

/-- The end of the buffer, and of what is cut off. -/
def nul : Char := '\x00'

/-- The value of a character; `none` if the function returns. -/
def macNibble (c : Char) : Option ℤ :=
  if isalpha c then
    -- Any other character is read as if it were a digit.
    if tolower c > 'f' then none else some ((tolower c).toNat - 'a'.toNat + 10)
  else some (c.toNat - '0'.toNat)

/-- The value of two characters; `none` if the function returns. -/
def macTotal (a b : Char) : Option ℤ := do
  let high ← macNibble a
  let low ← macNibble b
  return high * 16 + low

/-- Neither character is a letter or a digit. -/
def noAlnum (a b : Char) : Bool := !isdigit a && !isdigit b && !isalpha a && !isalpha b

/-- The value of the group after a separator, where `mac` is the buffer from there on: `none` if
    that is not long enough, `some none` if the function returns. -/
def macGroup : List Char → Option (Option ℤ)
  | a :: b :: c :: _ =>
    -- Both have to fail for the test to.
    if noAlnum a b then some none
    else if c ≠ nul ∨ b = nul then some none
    else some (macTotal a b)
  | [a, b] => if noAlnum a b then some none else none
  | _ => none

/-- The end of `macstrToMacaddr`, on the first group. -/
def macFirst (addr : List UInt8) (num : ℕ) : List Char → MacOutcome
  | a :: b :: c :: _ =>
    if noAlnum a b then .returns (-1) addr
    -- Here it is `&&` where the loop has `||`: a third character is let pass.
    else if c ≠ nul ∧ b = nul then .returns (-1) addr
    else match macTotal a b with
      | none => .returns (-1) addr
      -- The byte is stored before the number of the groups is tested.
      | some total => .returns (if num = 1 then 0 else -1) (addr.set 0 (UInt8.ofInt total))
  | _ => .overrun

/-- The loop of `macstrToMacaddr`: `strrchr` goes from the end of the string to the left, over
    the characters of `rev`; `mac` is the buffer from there on, cut at the separators. -/
def macLoop (addr : List UInt8) (num : ℕ) : List Char → List Char → MacOutcome
  | [], mac => macFirst addr num mac
  | c :: rev, mac =>
    if c = macSep2 then
      match macGroup mac with
      | none => .overrun
      | some none => .returns (-1) addr
      | some (some total) =>
        -- A seventh group would be stored before the address.
        if num = 0 then .overrun
        else macLoop (addr.set (num - 1) (UInt8.ofInt total)) (num - 1) rev (nul :: mac)
    else macLoop addr num rev (c :: mac)

/-- The size of the buffer. -/
def macSize : ℕ := 20

/-- Converting a MAC address to the bytes at `addr`. -/
def macstrToMacaddr (addr : List UInt8) (srcMac : CString) : MacOutcome :=
  -- `strncpy` leaves no terminator, and one is written past the buffer.
  if srcMac.length ≥ macSize then .overrun
  else macLoop addr 6 srcMac.reverse (List.replicate (macSize - srcMac.length) nul)

/-! ## Pairs of characters -/

/-- The first and the second character of a byte, which are found good enough: one of them is a
    hexadecimal digit, and neither is another letter. -/
def IsLoosePair (p : Char × Char) : Prop :=
  (isxdigit p.1 ∨ isxdigit p.2) ∧ (isalpha p.1 → isxdigit p.1) ∧ (isalpha p.2 → isxdigit p.2)

/-- Two hexadecimal digits. -/
def IsByte (p : Char × Char) : Prop := isxdigit p.1 ∧ isxdigit p.2

instance : DecidablePred IsLoosePair := fun p =>
  inferInstanceAs (Decidable ((isxdigit p.1 ∨ isxdigit p.2) ∧ (isalpha p.1 → isxdigit p.1) ∧
    (isalpha p.2 → isxdigit p.2)))

instance : DecidablePred IsByte := fun p =>
  inferInstanceAs (Decidable (isxdigit p.1 ∧ isxdigit p.2))

/-- What is stored for a pair of characters. -/
def macValue (p : Char × Char) : UInt8 := UInt8.ofInt ((macTotal p.1 p.2).getD 0)

/-- The value of a byte. -/
def byteVal (p : Char × Char) : UInt8 := UInt8.ofNat (16 * xdigitVal p.1 + xdigitVal p.2)

variable {a b c : Char} {p : Char × Char}

/-- Reading a character goes wrong for the letters that are no digits. -/
theorem macNibble_isSome : (macNibble c).isSome ↔ (isalpha c → isxdigit c) := by
  have hlt : tolower c > 'f' ↔ 102 < (tolower c).toNat := Iff.rfl
  have htolower := toNat_tolower c
  rw [macNibble]
  simp only [hlt, isupper_iff, isalpha_iff, isxdigit_iff] at htolower ⊢
  split_ifs at htolower ⊢ <;> simp <;> omega

/-- A digit is read as its value. -/
theorem macNibble_eq (hc : isxdigit c) : macNibble c = some ↑(xdigitVal c) := by
  have hlt : tolower c > 'f' ↔ 102 < (tolower c).toNat := Iff.rfl
  have htolower := toNat_tolower c
  have ha : 'a'.toNat = 97 := rfl
  have hA : 'A'.toNat = 65 := rfl
  have h0 : '0'.toNat = 48 := rfl
  rw [macNibble, xdigitVal, digitVal, ha, hA, h0]
  simp only [hlt, isupper_iff, islower_iff, isalpha_iff, isxdigit_iff, isdigit_iff] at htolower hc ⊢
  split_ifs at htolower ⊢ <;> first | (exfalso; omega) | (congr 1; omega)

theorem isxdigit_of_isdigit (hc : isdigit c) : isxdigit c := by
  rw [isxdigit_iff]
  exact .inl (isdigit_iff.1 hc)

/-- A pair for which the function goes on. -/
theorem isLoosePair_iff : IsLoosePair (a, b) ↔ noAlnum a b = false ∧ (macTotal a b).isSome := by
  have htotal : (macTotal a b).isSome ↔ (macNibble a).isSome ∧ (macNibble b).isSome := by
    rw [macTotal]
    cases macNibble a <;> cases macNibble b <;> simp
  rw [IsLoosePair, htotal, macNibble_isSome, macNibble_isSome]
  refine and_congr_left fun ⟨ha, hb⟩ => ?_
  have hxdigit {c : Char} (hc : isalpha c → isxdigit c) : isxdigit c ↔ isdigit c ∨ isalpha c := by
    refine ⟨?_, fun h => h.elim isxdigit_of_isdigit hc⟩
    rw [isxdigit_iff, isdigit_iff, isalpha_iff]
    omega
  have hnot : noAlnum a b = false ↔
      ((isdigit a ∨ isdigit b) ∨ isalpha a) ∨ isalpha b := by
    simp only [noAlnum, Bool.and_eq_false_iff, Bool.not_eq_false']
  rw [hxdigit ha, hxdigit hb, hnot, or_assoc, or_assoc, or_assoc]
  exact or_congr_right or_left_comm

/-- A loose pair is read as some byte. -/
theorem IsLoosePair.macTotal (h : IsLoosePair p) :
    ∃ total, Mksh.macTotal p.1 p.2 = some total ∧ macValue p = UInt8.ofInt total := by
  obtain ⟨total, htotal⟩ := Option.isSome_iff_exists.1 (isLoosePair_iff.1 h).2
  exact ⟨total, htotal, by rw [macValue, htotal, Option.getD_some]⟩

theorem IsByte.isLoosePair (h : IsByte p) : IsLoosePair p :=
  ⟨.inl h.1, fun _ => h.1, fun _ => h.2⟩

theorem ofInt_natCast (n : ℕ) : UInt8.ofInt n = UInt8.ofNat n := by
  have hmod : ((n : ℤ) % 2 ^ 8).toNat = n % 2 ^ 8 := by omega
  rw [UInt8.ofInt, hmod]
  exact UInt8.toNat_inj.1 (by simp)

/-- A pair of digits is read as the byte that it denotes. -/
theorem IsByte.macValue_eq (h : IsByte p) : macValue p = byteVal p := by
  have htotal : Mksh.macTotal p.1 p.2 = some ↑(16 * xdigitVal p.1 + xdigitVal p.2) := by
    rw [Mksh.macTotal, macNibble_eq h.1, macNibble_eq h.2]
    refine congrArg some ?_
    push_cast
    omega
  rw [macValue, htotal, Option.getD_some, byteVal, ofInt_natCast]

/-! ## Groups -/

variable {g h : CString} {gs : List CString} {ps : List (Char × Char)} {q : Char × Char}
  {t : List Char} {addr addr' : List UInt8} {num : ℕ}

/-- The text of a byte. -/
def pairText (p : Char × Char) : CString := [p.1, p.2]

/-- The two characters of the first group that are looked at, where `a` is the one after the
    separator. -/
def headPair (a : Char) : CString → Option (Char × Char)
  | [] => some (nul, a)
  | [_] => none
  | b :: c :: _ => some (b, c)

/-- The loop comes to a separator after the characters of a group. -/
theorem macLoop_append (hg : macSep2 ∉ g) (rev mac : List Char) :
    macLoop addr num (g.reverse ++ rev) mac = macLoop addr num rev (g ++ mac) := by
  -- `strrchr` starts at the end of the group.
  induction g using List.reverseRecOn generalizing mac with
  | nil => rfl
  | append_singleton g c ih =>
    rw [List.mem_append, List.mem_singleton, not_or] at hg
    rw [List.reverse_append, List.reverse_singleton, List.singleton_append, List.cons_append,
      macLoop, if_neg (Ne.symm hg.2), ih hg.1, List.append_assoc, List.singleton_append]

/-- The function returns at a pair that is not good enough. -/
theorem macTotal_eq_none (hloose : ¬IsLoosePair p) (hno : ¬noAlnum p.1 p.2) :
    macTotal p.1 p.2 = none :=
  Option.not_isSome_iff_eq_none.1 fun h =>
    hloose (isLoosePair_iff.2 ⟨Bool.eq_false_iff.2 hno, h⟩)

/-- A group of two characters. -/
theorem macGroup_pairText (hp : p.2 ≠ nul) (t : List Char) :
    macGroup (pairText p ++ nul :: t) =
      if IsLoosePair p then some (macTotal p.1 p.2) else some none := by
  have hgroup : macGroup (pairText p ++ nul :: t) =
      if noAlnum p.1 p.2 then some none else some (macTotal p.1 p.2) := by
    have hnot : ¬(nul ≠ nul ∨ p.2 = nul) := by simp [hp]
    rw [pairText, List.cons_append, List.cons_append, List.nil_append, macGroup, if_neg hnot]
  rw [hgroup]
  by_cases hloose : IsLoosePair p
  · rw [if_pos hloose, (isLoosePair_iff.1 hloose).1, if_neg Bool.false_ne_true]
  · rw [if_neg hloose]
    split_ifs with hno
    · rfl
    · rw [macTotal_eq_none hloose hno]

/-- A group of more than two characters is not read. -/
theorem macGroup_of_length (h : c ≠ nul ∨ b = nul) (t : List Char) :
    macGroup (a :: b :: c :: t) = some none := by
  rw [macGroup, if_pos h, ite_self]

/-- A group of another length. -/
theorem macGroup_of_ne (hh : nul ∉ h) (hne : ∀ p, h ≠ pairText p) (hb : b ≠ nul)
    (t : List Char) : macGroup (h ++ nul :: a :: b :: t) = some none := by
  rcases h with _ | ⟨c, _ | ⟨d, _ | ⟨e, h⟩⟩⟩
  · exact macGroup_of_length (.inl hb) t
  · exact macGroup_of_length (.inr rfl) (b :: t)
  · exact absurd rfl (hne (c, d))
  · exact macGroup_of_length (.inl fun he => hh (by simp [he])) _

/-- The last group is too short, and the buffer ends before it can be told. -/
def ReadsPast (h : CString) (n : ℕ) : Prop :=
  n = 1 ∧ (h = [] ∨ ∃ c, h = [c] ∧ (isdigit c ∨ isalpha c))

/-- The last group, if it has another length. -/
theorem macGroup_last {n : ℕ} (hh : nul ∉ h) (hne : ∀ p, h ≠ pairText p) (hn : n ≠ 0) :
    (ReadsPast h n → macGroup (h ++ List.replicate n nul) = none) ∧
      (¬ReadsPast h n → macGroup (h ++ List.replicate n nul) = some none) := by
  rcases h with _ | ⟨c, _ | ⟨d, _ | ⟨e, h⟩⟩⟩
  · rcases n with _ | _ | _ | n
    · exact absurd rfl hn
    · exact ⟨fun _ => rfl, fun h => absurd ⟨rfl, .inl rfl⟩ h⟩
    · exact ⟨fun h => absurd h.1 (by omega), fun _ => rfl⟩
    · exact ⟨fun h => absurd h.1 (by omega), fun _ => rfl⟩
  · rcases n with _ | _ | n
    · exact absurd rfl hn
    · have hno : noAlnum c nul ↔ ¬(isdigit c ∨ isalpha c) := by
        have hdigit : isdigit nul = false := by decide
        have halpha : isalpha nul = false := by decide
        simp [noAlnum, hdigit, halpha]
      have hgroup : macGroup ([c] ++ List.replicate 1 nul) =
          if noAlnum c nul then some none else none := rfl
      rw [hgroup, ReadsPast]
      constructor
      · rintro ⟨-, h | ⟨_, ⟨⟩, hc⟩⟩
        · cases h
        · exact if_neg fun h => hno.1 h hc
      · intro hnot
        exact if_pos (hno.2 fun hc => hnot ⟨rfl, .inr ⟨c, rfl, hc⟩⟩)
    · exact ⟨fun h => absurd h.1 (by omega), fun _ => macGroup_of_length (.inr rfl) _⟩
  · exact absurd rfl (hne (c, d))
  · -- The third character is seen.
    refine ⟨?_, fun _ => macGroup_of_length (.inl fun he => hh (by simp [he])) _⟩
    rintro ⟨-, h | ⟨_, h, -⟩⟩
    · cases h
    · cases h

/-- The end of the function on two characters. -/
theorem macFirst_pair (h : ¬(c ≠ nul ∧ p.2 = nul)) (t : List Char) :
    macFirst addr num (p.1 :: p.2 :: c :: t) =
      if IsLoosePair p then .returns (if num = 1 then 0 else -1) (addr.set 0 (macValue p))
      else .returns (-1) addr := by
  rw [macFirst, if_neg h]
  by_cases hloose : IsLoosePair p
  · obtain ⟨total, htotal, hvalue⟩ := hloose.macTotal
    rw [if_pos hloose, (isLoosePair_iff.1 hloose).1, if_neg Bool.false_ne_true, htotal, hvalue]
  · rw [if_neg hloose]
    by_cases hno : noAlnum p.1 p.2
    · rw [if_pos hno]
    · rw [if_neg hno, macTotal_eq_none hloose hno]

/-- The end of the function, before a group that has been cut off. -/
theorem macFirst_eq (hg : nul ∉ g) (ha : a ≠ nul) (t : List Char) :
    macFirst addr num (g ++ nul :: a :: b :: t) =
      match headPair a g with
      | none => .returns (-1) addr
      | some p =>
        if IsLoosePair p then .returns (if num = 1 then 0 else -1) (addr.set 0 (macValue p))
        else .returns (-1) addr := by
  rcases g with _ | ⟨c, _ | ⟨d, g⟩⟩
  · exact macFirst_pair (p := (nul, a)) (fun h => ha h.2) t
  · have hbad : a ≠ nul ∧ nul = nul := ⟨ha, rfl⟩
    rw [List.singleton_append, macFirst, if_pos hbad, ite_self]
    rfl
  · have hd : d ≠ nul := fun h => hg (by simp [h])
    rcases g with _ | ⟨e, g⟩
    · exact macFirst_pair (p := (c, d)) (fun h => hd h.2) _
    · exact macFirst_pair (p := (c, d)) (fun h => hd h.2) _

/-! ## The conversion -/

/-- The text of groups between colons. -/
def groupsText (g : CString) (gs : List CString) : CString := [macSep2].intercalate (g :: gs)

/-- The character after the first group, where `a` is the one after all of them. -/
def headChar (a : Char) (ps : List (Char × Char)) : Char := (ps.map Prod.fst).headD a

/-- What is accepted: loose pairs, and before them a group that starts with one. -/
structure Loose (a : Char) (g : CString) (gs : List CString) (ps : List (Char × Char))
    (q : Char × Char) : Prop where
  groups : gs = ps.map pairText
  pairs : ∀ p ∈ ps, IsLoosePair p
  head : headPair (headChar a ps) g = some q
  pair : IsLoosePair q

theorem groupsText_concat (g : CString) (gs : List CString) (h : CString) :
    groupsText g (gs ++ [h]) = groupsText g gs ++ macSep2 :: h := by
  rw [groupsText, ← List.cons_append, Fields.intercalate_concat (List.cons_ne_nil g gs),
    groupsText]

/-- The loop comes to no separator in a single group. -/
theorem macLoop_singleton (hg : macSep2 ∉ g) (mac : List Char) :
    macLoop addr num (groupsText g []).reverse mac = macFirst addr num (g ++ mac) := by
  have happend : macLoop addr num (g.reverse ++ []) mac = _ := macLoop_append hg [] mac
  rw [List.append_nil] at happend
  rw [groupsText, List.intercalate_singleton, happend, macLoop]

/-- The groups before the last one. -/
theorem forall_mem_of_concat {P : CString → Prop} (hgs : ∀ h' ∈ g :: (gs ++ [h]), P h') :
    ∀ h' ∈ g :: gs, P h' := fun h' hh' =>
  hgs h' (List.cons_append ▸ List.mem_append_left _ hh')

theorem ne_nul_of_pairText (hp : nul ∉ pairText p) : p.1 ≠ nul ∧ p.2 ≠ nul :=
  ⟨fun h => hp (by simp [pairText, h]), fun h => hp (by simp [pairText, h])⟩

/-- Behind one more group stands the start of that group. -/
theorem headChar_concat (a : Char) (ps : List (Char × Char)) (p : Char × Char) :
    headChar a (ps ++ [p]) = headChar p.1 ps := by
  cases ps <;> rfl

theorem pairText_injective : Function.Injective pairText := by
  rintro ⟨a, b⟩ ⟨c, d⟩ h
  simpa [pairText] using h

/-- The last group has been looked at. -/
theorem Loose.concat (hp : IsLoosePair p) (h : Loose p.1 g gs ps q) :
    Loose a g (gs ++ [pairText p]) (ps ++ [p]) q where
  groups := by rw [h.groups, List.map_append, List.map_singleton]
  pairs p' hp' := by
    rcases List.mem_append.1 hp' with hp' | hp'
    · exact h.pairs p' hp'
    · exact List.mem_singleton.1 hp' ▸ hp
  head := headChar_concat a ps p ▸ h.head
  pair := h.pair

/-- The last group of a loose text is a loose pair. -/
theorem Loose.of_concat (hloose : Loose a g (gs ++ [h]) ps q) :
    ∃ ps' p, ps = ps' ++ [p] ∧ h = pairText p ∧ IsLoosePair p ∧ Loose p.1 g gs ps' q := by
  rcases List.eq_nil_or_concat ps with rfl | ⟨ps', p, rfl⟩
  · exact absurd hloose.groups (by simp)
  · rw [List.concat_eq_append] at *
    have hgroups := hloose.groups
    rw [List.map_append, List.map_singleton] at hgroups
    obtain ⟨hgs, hh⟩ := List.append_inj' hgroups rfl
    have hhead := hloose.head
    rw [headChar_concat] at hhead
    exact ⟨ps', p, rfl, List.head_eq_of_cons_eq hh, hloose.pairs p (by simp), hgs,
      fun p' hp' => hloose.pairs p' (List.mem_append_left _ hp'), hhead, hloose.pair⟩

/-- A turn of the loop. -/
theorem macLoop_groupsText_concat (hh : macSep2 ∉ h) (g : CString) (gs : List CString)
    (mac : List Char) : macLoop addr num (groupsText g (gs ++ [h])).reverse mac =
      match macGroup (h ++ mac) with
      | none => .overrun
      | some none => .returns (-1) addr
      | some (some total) =>
        if num = 0 then .overrun
        else macLoop (addr.set (num - 1) (UInt8.ofInt total)) (num - 1) (groupsText g gs).reverse
          (nul :: (h ++ mac)) := by
  rw [groupsText_concat, List.reverse_append, List.reverse_cons, List.append_assoc,
    List.singleton_append, macLoop_append hh, macLoop, if_pos rfl]

/-- What the call should come to: it returns, `0` on what is accepted, with the values of the
    pairs. -/
def Converts (o : MacOutcome) (addr : List UInt8) (num : ℕ) (a : Char) (g : CString)
    (gs : List CString) : Prop :=
  ∃ ret addr', o = .returns ret addr' ∧
    (ret = 0 ↔ ∃ ps q, Loose a g gs ps q ∧ ps.length + 1 = num) ∧
    ∀ ps q, Loose a g gs ps q → ret = 0 →
      addr' = macValue q :: ps.map macValue ++ addr.drop num

/-- The function returns at a group that is not accepted. -/
theorem converts_of_not (hnot : ∀ ps q, ¬Loose a g gs ps q) :
    Converts (.returns (-1) addr') addr num a g gs :=
  ⟨-1, addr', rfl, ⟨fun h => absurd h (by decide), fun ⟨ps, q, h, _⟩ => absurd h (hnot ps q)⟩,
    fun ps q h => absurd h (hnot ps q)⟩

/-- The end of the function, if all groups but the first one have been cut off. -/
theorem macFirst_converts (hg : nul ∉ g) (ha : a ≠ nul) (hnum : num ≤ addr.length)
    (t : List Char) :
    Converts (macFirst addr num (g ++ nul :: a :: b :: t)) addr num a g [] := by
  have hnil {ps q} (h : Loose a g [] ps q) : ps = [] := by
    simpa using h.groups.symm
  rw [macFirst_eq hg ha]
  cases hhead : headPair a g with
  | none =>
    refine converts_of_not fun ps q h => ?_
    have h' := h.head
    rw [hnil h] at h'
    exact absurd (hhead.symm.trans h') (by simp)
  | some p =>
    -- Without a separator, the groups after the first are none, and the pair is the one before
    -- the null.
    have heq {ps q} (h : Loose a g [] ps q) : q = p := by
      have h' := h.head
      rw [hnil h] at h'
      exact Option.some.inj (h'.symm.trans hhead)
    by_cases hp : IsLoosePair p
    · have hloose : Loose a g [] [] p := ⟨rfl, by simp, hhead, hp⟩
      refine ⟨_, _, if_pos hp, ⟨fun h => ?_, ?_⟩, fun ps q h hret => ?_⟩
      · by_cases hone : num = 1
        · exact ⟨[], p, hloose, by simp [hone]⟩
        · simp [hone] at h
      · rintro ⟨ps, q, h, hlen⟩
        rw [hnil h] at hlen
        simp [← hlen]
      · have hone : num = 1 := by
          by_contra hone
          simp [hone] at hret
        subst hone
        obtain ⟨v, addr, rfl⟩ := List.exists_cons_of_length_pos hnum
        simp [hnil h, heq h]
    · change Converts (if IsLoosePair p then _ else _) addr num a g []
      rw [if_neg hp]
      exact converts_of_not fun ps q h => hp (heq h ▸ h.pair)

/-- A turn of the loop, on a group that is accepted. -/
theorem Converts.concat {o : MacOutcome} (hp : IsLoosePair p) (hnum : num + 1 ≤ addr.length)
    (hconv : Converts o (addr.set num (macValue p)) num p.1 g gs) :
    Converts o addr (num + 1) a g (gs ++ [pairText p]) := by
  obtain ⟨ret, addr', hret, hzero, hval⟩ := hconv
  refine ⟨ret, addr', hret, hzero.trans ⟨?_, ?_⟩, ?_⟩
  · rintro ⟨ps, q, h, hlen⟩
    exact ⟨ps ++ [p], q, h.concat hp, by simp [hlen]⟩
  · rintro ⟨ps, q, h, hlen⟩
    obtain ⟨ps', p', rfl, hp', -, h'⟩ := h.of_concat
    rw [← pairText_injective hp'] at h'
    exact ⟨ps', q, h', by simpa using hlen⟩
  · intro ps q h hret
    obtain ⟨ps', p', rfl, hp', -, h'⟩ := h.of_concat
    rw [← pairText_injective hp'] at h' ⊢
    have hlt : num < (addr.set num (macValue p)).length := by
      rw [List.length_set]
      omega
    have hdrop : (addr.set num (macValue p)).drop num = macValue p :: addr.drop (num + 1) := by
      rw [List.drop_eq_getElem_cons hlt, List.getElem_set_self,
        List.drop_set_of_lt num.lt_succ_self]
    rw [hval ps' q h' hret, hdrop, List.map_append, List.cons_append, List.cons_append,
      List.append_assoc]
    rfl

/-- The loop over groups, from what it does after the last one. -/
theorem macLoop_concat (hsep : macSep2 ∉ h) (hnul : nul ∉ h) (hnum : num + 1 ≤ addr.length)
    (hother : (∀ p, h ≠ pairText p) → macGroup (h ++ nul :: t) = some none)
    (hnext : ∀ p, h = pairText p → IsLoosePair p →
      Converts (macLoop (addr.set num (macValue p)) num (groupsText g gs).reverse
        (nul :: p.1 :: p.2 :: nul :: t)) (addr.set num (macValue p)) num p.1 g gs) :
    Converts (macLoop addr (num + 1) (groupsText g (gs ++ [h])).reverse (nul :: t)) addr (num + 1)
      a g (gs ++ [h]) := by
  rw [macLoop_groupsText_concat hsep]
  -- The last group is converted if it is a loose pair. Else, the function returns at it.
  by_cases hpair : ∃ p, h = pairText p
  · obtain ⟨p, rfl⟩ := hpair
    rw [macGroup_pairText (ne_nul_of_pairText hnul).2]
    by_cases hp : IsLoosePair p
    · obtain ⟨total, htotal, hvalue⟩ := hp.macTotal
      have hconv := hnext p rfl hp
      rw [if_pos hp, htotal]
      rw [hvalue] at hconv
      exact Converts.concat hp hnum (hvalue ▸ hconv)
    · rw [if_neg hp]
      refine converts_of_not fun ps q hloose => ?_
      obtain ⟨ps', p', -, hp', hloose', -⟩ := hloose.of_concat
      exact hp (pairText_injective hp' ▸ hloose')
  · rw [hother fun p hp => hpair ⟨p, hp⟩]
    refine converts_of_not fun ps q hloose => ?_
    obtain ⟨ps', p', -, hp', -⟩ := hloose.of_concat
    exact hpair ⟨p', hp'⟩

/-- The loop over groups, when others have been cut off. -/
theorem macLoop_groupsText (hgs : ∀ h ∈ g :: gs, macSep2 ∉ h ∧ nul ∉ h) (ha : a ≠ nul)
    (hb : b ≠ nul) (hlen : (groupsText g gs).length < 3 * (num + 1)) (hnum : num ≤ addr.length)
    (t : List Char) :
    Converts (macLoop addr num (groupsText g gs).reverse (nul :: a :: b :: t)) addr num a g gs := by
  induction gs using List.reverseRecOn generalizing a b t addr num with
  | nil =>
    obtain ⟨hsep, hnul⟩ := hgs g List.mem_cons_self
    rw [macLoop_singleton hsep]
    exact macFirst_converts hnul ha hnum t
  | append_singleton gs h ih =>
    obtain ⟨hsep, hnul⟩ := hgs h (by simp)
    rw [groupsText_concat, List.length_append, List.length_cons] at hlen
    rcases num with _ | num
    · -- After six bytes, not enough of the string is left for a pair and its separator.
      have hne (p) : h ≠ pairText p := by
        rintro rfl
        exact absurd hlen (by simp [pairText])
      rw [macLoop_groupsText_concat hsep, macGroup_of_ne hnul hne hb]
      refine converts_of_not fun ps q hloose => ?_
      obtain ⟨ps', p, -, hp, -⟩ := hloose.of_concat
      exact hne p hp
    · refine macLoop_concat hsep hnul hnum (fun hne => macGroup_of_ne hnul hne hb t) ?_
      rintro p rfl hp
      have hlen2 : (pairText p).length = 2 := rfl
      obtain ⟨hp1, hp2⟩ := ne_nul_of_pairText hnul
      exact ih (forall_mem_of_concat hgs) hp1 hp2 (by omega) (by rw [List.length_set]; omega) _

/-! ## Valid addresses -/

/-- The text of an address. -/
def macText (q : Char × Char) (ps : List (Char × Char)) : CString :=
  groupsText (pairText q) (ps.map pairText)

/-- The values of the bytes that are written in a string. -/
def macBytes : CString → List UInt8
  | a :: b :: _ :: s => byteVal (a, b) :: macBytes s
  | [a, b] => [byteVal (a, b)]
  | _ => []

/-- The text of an address, behind its first byte. -/
theorem macText_cons (q p : Char × Char) (ps : List (Char × Char)) :
    macText q (p :: ps) = q.1 :: q.2 :: macSep2 :: macText p ps := by
  rw [macText, List.map_cons, groupsText, Fields.intercalate_cons]
  rfl

/-- The bytes of that text are those of its pairs. -/
theorem macBytes_macText (q : Char × Char) (ps : List (Char × Char)) :
    macBytes (macText q ps) = (q :: ps).map byteVal := by
  induction ps generalizing q with
  | nil => rfl
  | cons p ps ih => exact macText_cons q p ps ▸ congrArg _ (ih p)

theorem toupper_iff : isdigit c = false ∧ (toupper c < 'A' ∨ toupper c > 'F') ↔ ¬isxdigit c := by
  have hlt : toupper c < 'A' ↔ (toupper c).toNat < 65 := Iff.rfl
  have hgt : toupper c > 'F' ↔ 70 < (toupper c).toNat := Iff.rfl
  have htoupper := toNat_toupper c
  rw [← Bool.not_eq_true]
  simp only [hlt, hgt, isdigit_iff, isxdigit_iff, islower_iff] at htoupper ⊢
  split_ifs at htoupper <;> omega

/-- A turn of the loop that checks. -/
theorem isMacValidLoop_cons (s : CString) : isMacValidLoop (a :: b :: c :: s) = 0 ↔
    IsByte (a, b) ∧ (c = macSep1 ∨ c = macSep2) ∧ isMacValidLoop s = 0 := by
  have hbad {c : Char} : (!isdigit c && (decide (toupper c < 'A') || decide (toupper c > 'F'))) ↔
      ¬isxdigit c := by
    rw [← toupper_iff]
    simp
  rw [isMacValidLoop]
  simp only [hbad]
  by_cases ha : isxdigit a
  · rw [if_neg (not_not.2 ha)]
    by_cases hb : isxdigit b
    · rw [if_neg (not_not.2 hb)]
      split_ifs with hc
      · exact iff_of_false (by decide) fun h => h.2.1.elim hc.1 hc.2
      · have hsep : c = macSep1 ∨ c = macSep2 := by
          by_contra hne
          exact hc (not_or.1 hne)
        exact ⟨fun h => ⟨⟨ha, hb⟩, hsep, h⟩, fun h => h.2.2⟩
    · rw [if_pos hb]
      exact iff_of_false (by decide) fun h => hb h.1.2
  · rw [if_pos ha]
    exact iff_of_false (by decide) fun h => ha h.1.1

theorem ne_of_isxdigit {c sep : Char} (hc : isxdigit c) (hsep : isxdigit sep = false) :
    c ≠ sep := by
  rintro rfl
  rw [hc] at hsep
  cases hsep

/-- What is found valid, with colons. -/
theorem isMacValidLoop_iff {n : ℕ} {s : CString} (hlen : s.length + 1 = 3 * (n + 1)) :
    isMacValidLoop (s ++ [macSep2]) = 0 ∧ macSep1 ∉ s ↔
      ∃ q ps, s = macText q ps ∧ ps.length = n ∧ ∀ p ∈ q :: ps, IsByte p := by
  have hsep1 {p} (hp : IsByte p) : macSep1 ≠ p.1 ∧ macSep1 ≠ p.2 :=
    ⟨(ne_of_isxdigit hp.1 (by decide)).symm, (ne_of_isxdigit hp.2 (by decide)).symm⟩
  -- A byte and its separator are read at a time; the one that is appended stands in for the last.
  induction n generalizing s with
  | zero =>
    obtain ⟨a, b, rfl⟩ := List.length_eq_two.1 (Nat.succ.inj hlen)
    have hloop : isMacValidLoop ([a, b] ++ [macSep2]) = 0 ↔
        IsByte (a, b) ∧ (macSep2 = macSep1 ∨ macSep2 = macSep2) ∧ isMacValidLoop [] = 0 :=
      isMacValidLoop_cons []
    rw [hloop]
    constructor
    · rintro ⟨⟨hbyte, -⟩, -⟩
      exact ⟨(a, b), [], rfl, rfl, List.forall_mem_singleton.2 hbyte⟩
    · rintro ⟨q, ps, hs, hps, hbytes⟩
      rw [List.length_eq_zero_iff.1 hps] at hs
      obtain rfl : (a, b) = q := pairText_injective hs
      have hbyte := hbytes _ List.mem_cons_self
      refine ⟨⟨hbyte, .inr rfl, rfl⟩, ?_⟩
      simp [(hsep1 hbyte).1, (hsep1 hbyte).2]
  | succ n ih =>
    obtain ⟨a, b, c, s, rfl⟩ : ∃ a b c s', s = a :: b :: c :: s' := by
      match s, hlen with
      | a :: b :: c :: s', _ => exact ⟨a, b, c, s', rfl⟩
    have hs := ih (show s.length + 1 = 3 * (n + 1) by simp at hlen; omega)
    have hloop : isMacValidLoop (a :: b :: c :: s ++ [macSep2]) = 0 ↔
        IsByte (a, b) ∧ (c = macSep1 ∨ c = macSep2) ∧ isMacValidLoop (s ++ [macSep2]) = 0 :=
      isMacValidLoop_cons _
    rw [hloop]
    constructor
    · rintro ⟨⟨hbyte, hc, hzero⟩, hnot⟩
      simp only [List.mem_cons, not_or] at hnot
      obtain ⟨q, ps, rfl, hps, hbytes⟩ := hs.1 ⟨hzero, hnot.2.2.2⟩
      obtain rfl := hc.resolve_left (Ne.symm hnot.2.2.1)
      exact ⟨(a, b), q :: ps, (macText_cons (a, b) q ps).symm, by simp [hps],
        List.forall_mem_cons.2 ⟨hbyte, hbytes⟩⟩
    · rintro ⟨q, ps, hps, hn, hbytes⟩
      obtain ⟨p, ps, rfl⟩ := List.exists_cons_of_length_eq_add_one hn
      rw [macText_cons] at hps
      simp only [List.cons.injEq] at hps
      obtain ⟨rfl, rfl, rfl, rfl⟩ := hps
      obtain ⟨hbyte, hbytes⟩ := List.forall_mem_cons.1 hbytes
      obtain ⟨hzero, hnot⟩ := hs.2 ⟨p, ps, rfl, Nat.succ.inj hn, hbytes⟩
      refine ⟨⟨hbyte, .inr rfl, hzero⟩, ?_⟩
      have hsep : macSep1 ≠ macSep2 := by decide
      simp [(hsep1 hbyte).1, (hsep1 hbyte).2, hsep, hnot]

/-- Three characters for each byte, but for the last separator. -/
theorem length_macText (q : Char × Char) (ps : List (Char × Char)) :
    (macText q ps).length + 1 = 3 * (ps.length + 1) := by
  induction ps generalizing q with
  | nil => rfl
  | cons p ps ih =>
    rw [macText_cons]
    simp only [List.length_cons]
    have := ih p
    omega

/-- What is valid without the other separator is the text of six bytes. -/
theorem isMacValid_iff {s : CString} : isMacValid s = 0 ∧ macSep1 ∉ s ↔
    ∃ q ps, s = macText q ps ∧ ps.length = 5 ∧ ∀ p ∈ q :: ps, IsByte p := by
  rw [isMacValid]
  by_cases hlen : s.length = macLength
  · rw [if_neg (not_not.2 hlen)]
    exact isMacValidLoop_iff (by rw [hlen]; rfl)
  · rw [if_pos hlen]
    refine iff_of_false (fun h => absurd h.1 (by decide)) ?_
    rintro ⟨q, ps, rfl, hps, -⟩
    have := length_macText q ps
    rw [hps] at this
    exact hlen (by rw [macLength]; omega)

/-! ## Agreement -/

/-- What is accepted, and more than an address: another group than two characters comes first,
    or some character is no hexadecimal digit. -/
def IsLoose (s : CString) : Prop :=
  ∃ g gs ps q, s = groupsText g gs ∧ (∀ h ∈ g :: gs, macSep2 ∉ h) ∧ Loose nul g gs ps q ∧
    ps.length = 5 ∧ ¬(g = pairText q ∧ ∀ p ∈ q :: ps, IsByte p)

/-- The buffer ends before the last group is found too short. -/
def IsCut (s : CString) : Prop :=
  ∃ t h, s = t ++ macSep2 :: h ∧ ReadsPast h (macSize - s.length)

/-- The conversion accepts the addresses that the check does, with colons, and returns their
    bytes. -/
def Agrees (s : CString) : Prop :=
  ∀ addr, addr.length = 6 → ∃ ret addr', macstrToMacaddr addr s = .returns ret addr' ∧
    (ret = 0 ↔ isMacValid s = 0 ∧ macSep1 ∉ s) ∧ (ret = 0 → addr' = macBytes s)

/-- A text that is cut overruns the buffer. -/
theorem macstrToMacaddr_eq_overrun {s : CString} (hcut : IsCut s) (addr : List UInt8) :
    macstrToMacaddr addr s = .overrun := by
  obtain ⟨t, h, rfl, hone, hh⟩ := hcut
  have hsep : macSep2 ∉ h := by
    rcases hh with rfl | ⟨c, rfl, hc⟩
    · exact List.not_mem_nil
    · rw [List.mem_singleton]
      rintro rfl
      exact absurd hc (by decide)
  have hgroup : macGroup (h ++ [nul]) = none := by
    rcases hh with rfl | ⟨c, rfl, hc⟩
    · rfl
    · have hno : noAlnum c nul = false := by
        rcases hc with hc | hc <;> simp [noAlnum, hc]
      change (if noAlnum c nul then _ else none) = none
      rw [hno, if_neg Bool.false_ne_true]
  rw [macstrToMacaddr]
  split_ifs with hlen
  · rfl
  · rw [hone, List.reverse_append, List.reverse_cons, List.append_assoc, List.singleton_append,
      macLoop_append hsep, macLoop, if_pos rfl, List.replicate_one, hgroup]

/-- The end of the function, if another number of groups is left. -/
theorem macFirst_ne_zero (hnum : num ≠ 1) (hlen : 3 ≤ t.length) :
    ∃ ret addr', macFirst addr num t = .returns ret addr' ∧ ret ≠ 0 := by
  match t, hlen with
  | a :: b :: c :: t, _ =>
    rw [macFirst]
    split_ifs
    · exact ⟨-1, addr, rfl, by decide⟩
    · exact ⟨-1, addr, rfl, by decide⟩
    · cases macTotal a b with
      | none => exact ⟨-1, addr, rfl, by decide⟩
      | some total => exact ⟨-1, _, rfl, by decide⟩

/-- The conversion of groups. -/
theorem macstrToMacaddr_groupsText (hgs : ∀ h ∈ g :: gs, macSep2 ∉ h ∧ nul ∉ h)
    (hlen : (groupsText g gs).length < macSize) (hcut : ¬IsCut (groupsText g gs))
    (haddr : addr.length = 6) :
    Converts (macstrToMacaddr addr (groupsText g gs)) addr 6 nul g gs := by
  rw [macstrToMacaddr, if_neg (by omega)]
  obtain ⟨n, hn⟩ : ∃ n, macSize - (groupsText g gs).length = n + 1 :=
    ⟨macSize - (groupsText g gs).length - 1, by omega⟩
  rw [hn, List.replicate_succ]
  rcases List.eq_nil_or_concat gs with rfl | ⟨gs, h, rfl⟩
  · -- Without a separator, no byte but the first one is stored.
    rw [macLoop_singleton (hgs g List.mem_cons_self).1]
    have hg : (groupsText g []).length = g.length := by
      rw [groupsText, List.intercalate_singleton]
    obtain ⟨ret, addr', hret, hne⟩ : ∃ ret addr', macFirst addr 6 (g ++ nul :: List.replicate n nul)
        = .returns ret addr' ∧ ret ≠ 0 :=
      macFirst_ne_zero (by decide) (by
        rw [macSize, hg] at hn
        simp only [List.length_append, List.length_cons, List.length_replicate]
        omega)
    refine ⟨ret, addr', hret, iff_of_false hne ?_, fun _ _ _ h => absurd h hne⟩
    rintro ⟨ps, q, hloose, hps⟩
    have hnil : ps = [] := by simpa using hloose.groups.symm
    rw [hnil] at hps
    exact absurd hps (by decide)
  · rw [List.concat_eq_append] at *
    obtain ⟨hsep, hnul⟩ := hgs h (by simp)
    have hfive : 5 + 1 ≤ addr.length := haddr.ge
    refine macLoop_concat hsep hnul hfive (fun hne => ?_) ?_
    · refine (macGroup_last hnul hne n.succ_ne_zero).2 fun hpast => hcut ?_
      exact ⟨groupsText g gs, h, groupsText_concat g gs h, hn ▸ hpast⟩
    · rintro p rfl hp
      have hlen2 : (pairText p).length = 2 := rfl
      obtain ⟨hp1, hp2⟩ := ne_nul_of_pairText hnul
      rw [groupsText_concat, List.length_append, List.length_cons, macSize] at hlen
      refine macLoop_groupsText (forall_mem_of_concat hgs) hp1 hp2 (by omega) ?_ _
      rw [List.length_set]
      omega

/-- The text of an address is loose. -/
theorem macText_loose {ps : List (Char × Char)} (hbytes : ∀ p ∈ q :: ps, IsByte p) :
    Loose nul (pairText q) (ps.map pairText) ps q where
  groups := rfl
  pairs p hp := (hbytes p (List.mem_cons_of_mem q hp)).isLoosePair
  head := rfl
  pair := (hbytes q List.mem_cons_self).isLoosePair

theorem IsByte.notMem (hp : IsByte p) : macSep2 ∉ pairText p := by
  have h1 : p.1 ≠ macSep2 := ne_of_isxdigit hp.1 (by decide)
  have h2 : p.2 ≠ macSep2 := ne_of_isxdigit hp.2 (by decide)
  simp [pairText, h1.symm, h2.symm]

/-- The groups of a text are determined by it. -/
theorem groupsText_inj {g' : CString} {gs' : List CString} (hgs : ∀ h ∈ g :: gs, macSep2 ∉ h)
    (hgs' : ∀ h ∈ g' :: gs', macSep2 ∉ h) :
    groupsText g gs = groupsText g' gs' ↔ g = g' ∧ gs = gs' := by
  rw [groupsText, groupsText, Fields.intercalate_inj hgs hgs' (List.cons_ne_nil _ _)
    (List.cons_ne_nil _ _), List.cons.injEq]

theorem macText_notMem {ps : List (Char × Char)} (hbytes : ∀ p ∈ q :: ps, IsByte p) :
    ∀ h ∈ pairText q :: ps.map pairText, macSep2 ∉ h := by
  intro h hh
  rw [← List.map_cons] at hh
  obtain ⟨p, hp, rfl⟩ := List.mem_map.1 hh
  exact (hbytes p hp).notMem

/-- The text of an address is not loose. -/
theorem not_isLoose_macText {ps : List (Char × Char)} (hbytes : ∀ p ∈ q :: ps, IsByte p) :
    ¬IsLoose (macText q ps) := by
  rintro ⟨g, gs, ps', q', heq, hgs, hloose, -, hnot⟩
  obtain ⟨rfl, rfl⟩ := (groupsText_inj (macText_notMem hbytes) hgs).1 heq
  obtain rfl : ps = ps' := List.map_injective_iff.2 pairText_injective hloose.groups
  obtain rfl : q = q' := Option.some.inj hloose.head
  exact hnot ⟨rfl, hbytes⟩

/-- The conversion agrees with the check unless it accepts more than an address, or the buffer
    ends too early. -/
theorem macstrToMacaddr_iff {s : CString} (hs : nul ∉ s) (hlen : s.length < macSize) :
    Agrees s ↔ ¬IsLoose s ∧ ¬IsCut s := by
  by_cases hcut : IsCut s
  · refine iff_of_false (fun h => ?_) fun h => h.2 hcut
    obtain ⟨ret, addr', hret, -⟩ := h (List.replicate 6 0) rfl
    rw [macstrToMacaddr_eq_overrun hcut] at hret
    cases hret
  rw [and_iff_left hcut]
  obtain ⟨g, gs, hgs, rfl⟩ := Fields.exists_intercalate macSep2 s
  have hconv (addr : List UInt8) (haddr : addr.length = 6) :
      Converts (macstrToMacaddr addr (groupsText g gs)) addr 6 nul g gs :=
    macstrToMacaddr_groupsText
      (fun h hh => ⟨hgs h hh, fun hn => hs (Fields.subset_intercalate hh hn)⟩) hlen hcut haddr
  constructor
  · intro h hmore
    have ⟨g', gs', ps, q, heq, hgs', hloose, hps, _⟩ := hmore
    obtain ⟨rfl, rfl⟩ := (groupsText_inj hgs hgs').1 heq
    obtain ⟨ret, addr', hret, hzero, -⟩ := h (List.replicate 6 0) rfl
    obtain ⟨ret', addr'', hret', hzero', -⟩ := hconv (List.replicate 6 0) rfl
    obtain ⟨rfl, -⟩ := MacOutcome.returns.inj (hret.symm.trans hret')
    obtain ⟨q', ps', htext, -, hbytes⟩ :=
      isMacValid_iff.1 (hzero.1 (hzero'.2 ⟨ps, q, hloose, by rw [hps]⟩))
    exact not_isLoose_macText hbytes (htext ▸ hmore)
  · intro hnot addr haddr
    obtain ⟨ret, addr', hret, hzero, hval⟩ := hconv addr haddr
    -- What is accepted, and not more than an address, is the text of six bytes.
    have hbytes (ps q) (hloose : Loose nul g gs ps q) (hps : ps.length + 1 = 6) :
        g = pairText q ∧ ∀ p ∈ q :: ps, IsByte p := by
      by_contra hnot'
      exact hnot ⟨g, gs, ps, q, rfl, hgs, hloose, Nat.succ.inj hps, hnot'⟩
    refine ⟨ret, addr', hret, ⟨fun h => ?_, fun h => ?_⟩, fun h => ?_⟩
    · obtain ⟨ps, q, hloose, hps⟩ := hzero.1 h
      obtain ⟨rfl, hall⟩ := hbytes ps q hloose hps
      obtain rfl := hloose.groups
      exact isMacValid_iff.2 ⟨q, ps, rfl, Nat.succ.inj hps, hall⟩
    · obtain ⟨q, ps, htext, hps, hall⟩ := isMacValid_iff.1 h
      obtain ⟨rfl, rfl⟩ := (groupsText_inj hgs (macText_notMem hall)).1 htext
      exact hzero.2 ⟨ps, q, macText_loose hall, by rw [hps]⟩
    · obtain ⟨ps, q, hloose, hps⟩ := hzero.1 h
      obtain ⟨rfl, hall⟩ := hbytes ps q hloose hps
      obtain rfl := hloose.groups
      have hmap : (q :: ps).map macValue = (q :: ps).map byteVal :=
        List.map_congr_left fun p hp => (hall p hp).macValue_eq
      have hdrop : addr.drop 6 = [] := List.drop_eq_nil_of_le haddr.le
      rw [hval ps q hloose h, hdrop, List.append_nil]
      exact hmap.trans (macBytes_macText q ps).symm

/-- A MAC address is converted. -/
theorem macstrToMacaddr_iff_upper : Agrees "00:1A:2b:3C:4d:Ff".toList :=
  (macstrToMacaddr_iff (by decide) (by decide)).2
    ⟨@not_isLoose_macText ('0', '0') [('1', 'A'), ('2', 'b'), ('3', 'C'), ('4', 'd'), ('F', 'f')]
      (by decide),
      fun ⟨_, _, _, hpast⟩ => absurd hpast.1 (by decide)⟩

/-- The first group may be longer. -/
theorem macstrToMacaddr_accepts : ¬Agrees "111:22:33:44:55:66".toList := by
  intro h
  obtain ⟨ret, addr', hret, hzero, -⟩ := h (List.replicate 6 0) rfl
  have hloop : macstrToMacaddr (List.replicate 6 0) "111:22:33:44:55:66".toList =
      .returns 0 [0x11, 0x22, 0x33, 0x44, 0x55, 0x66] := by decide
  obtain ⟨rfl, -⟩ := MacOutcome.returns.inj (hloop.symm.trans hret)
  exact absurd (hzero.1 rfl).1 (by decide)

end Mksh
