import Mathlib.Algebra.Order.Ring.Int
import Mksh.Cmd.Mk
import Mksh.Lib.Loop

/-!
# Stripping slashes

The loop by which `mk_fix_name` does what `mkFixName` says, in the memory around the name, with
all the positions that it reads and writes (`Cursor`). It goes back from the end of the name, and
does not look for its start: without any other character than slashes, it goes on before it
(`strips_iff`). This is what `mkFixName` logs as an underrun (`logs_mkFixName`).
-/

namespace Mksh

open CString Loop Process

/-! ## The loop -/

/-- The end of a string. -/
def terminator : Char := '\x00'

/-- The memory around a name, by the positions from the start of the name, the index into it, and
    the positions accessed so far. -/
structure Cursor where
  mem : ℤ → Char
  len : ℤ
  accessed : List ℤ

namespace Cursor

/-- Reading `name[--len]`. -/
def back (c : Cursor) : Cursor := ⟨c.mem, c.len - 1, (c.len - 1) :: c.accessed⟩

/-- Writing `name[len] = '\0'`. -/
def clear (c : Cursor) : Cursor :=
  ⟨Function.update c.mem c.len terminator, c.len, c.len :: c.accessed⟩

/-- The body of the loop, and reading the next character. -/
def turn (c : Cursor) : Cursor := c.clear.back

/-- The character that has been read is a slash. -/
def AtSlash (c : Cursor) : Prop := c.mem c.len = '/'

instance : DecidablePred AtSlash := fun c => inferInstanceAs (Decidable (c.mem c.len = '/'))

/-- Before the loop, and with the first character read: `strlen` has read the name and its end,
    and the length is stored in an `int`. -/
def atEnd (mem : ℤ → Char) (strlen : ℕ) : Cursor :=
  back ⟨mem, (strlen : ℤ).bmod (2 ^ 32), (List.range (strlen + 1)).map Int.ofNat⟩

/-- Where the loop starts: the length as an `int`, less one. -/
theorem atEnd_len (mem : ℤ → Char) (strlen : ℕ) :
    (atEnd mem strlen).len = (strlen : ℤ).bmod (2 ^ 32) - 1 := by
  rw [atEnd, back]

/-- `strlen` has read the name and its end, and then the last character has been read. -/
theorem mem_atEnd_accessed {mem : ℤ → Char} {strlen : ℕ} {i : ℤ}
    (h : i ∈ (atEnd mem strlen).accessed) :
    i = (atEnd mem strlen).len ∨ 0 ≤ i ∧ i ≤ strlen := by
  rw [atEnd_len]
  rw [atEnd, back] at h
  dsimp only at h
  rcases List.mem_cons.1 h with h | h
  · exact .inl h
  · obtain ⟨j, hj, rfl⟩ := List.mem_map.1 h
    have hj := List.mem_range.1 hj
    rw [Int.ofNat_eq_natCast]
    omega

theorem atEnd_mem (mem : ℤ → Char) (strlen : ℕ) : (atEnd mem strlen).mem = mem := rfl

variable {c c' : Cursor} {i : ℤ} {m : ℕ}

/-- What has been accessed stays so. -/
theorem mem_accessed (h : Exits AtSlash turn c c') (hi : i ∈ c.accessed) : i ∈ c'.accessed :=
  h.preserves (I := fun c => i ∈ c.accessed)
    (fun _ hx _ => List.mem_cons_of_mem _ (List.mem_cons_of_mem _ hx)) hi

/-- The loop clears the slashes, and stops at the character before them. -/
theorem exits_slashes (hslash : ∀ i, c.len - m < i → i ≤ c.len → c.mem i = '/')
    (hstop : c.mem (c.len - m) ≠ '/') :
    ∃ c', Exits AtSlash turn c c' ∧
      (∀ i, c'.mem i = if c.len - m < i ∧ i ≤ c.len then terminator else c.mem i) ∧
      ∀ i ∈ c'.accessed, i ∈ c.accessed ∨ c.len - m ≤ i ∧ i ≤ c.len := by
  -- The induction is on the number of slashes before the stop.
  induction m generalizing c with
  | zero =>
    rw [Nat.cast_zero, sub_zero] at hstop
    refine ⟨c, .done hstop, fun i => ?_, fun i hi => .inl hi⟩
    rw [if_neg (by omega)]
  | succ m ih =>
    have hlen : c.turn.len = c.len - 1 := rfl
    have hself : c.turn.mem c.len = terminator := Function.update_self ..
    have hmem (i : ℤ) (hi : i ≠ c.len) : c.turn.mem i = c.mem i := Function.update_of_ne hi ..
    have hpos : c.turn.len - m = c.len - (m + 1 : ℕ) := by omega
    rw [← hpos] at hslash hstop ⊢
    obtain ⟨c', hexits, hcleared, haccessed⟩ := ih (c := c.turn)
      (fun i hi hi' => (hmem i (by omega)).trans (hslash i hi (by omega)))
      (by rwa [hmem _ (by omega)])
    refine ⟨c', .turn (hslash c.len (by omega) le_rfl) hexits, fun i => ?_, fun i hi => ?_⟩
    · rw [hcleared]
      rcases eq_or_ne i c.len with rfl | hi
      · rw [if_neg (by omega), if_pos (by omega), hself]
      · rw [hmem i hi]
        exact if_congr (by omega) rfl rfl
    · rcases haccessed i hi with hi | hi
      · change i ∈ (c.len - 1) :: c.len :: c.accessed at hi
        rcases List.mem_cons.1 hi with rfl | hi
        · exact .inr (by omega)
        · rcases List.mem_cons.1 hi with rfl | hi
          · exact .inr (by omega)
          · exact .inl hi
      · exact .inr (by omega)

/-- Where there are only slashes, the loop comes to the position before the start. -/
theorem accessed_of_slashes (hlen : c.len = m - 1) (hread : c.len ∈ c.accessed)
    (hslash : ∀ i : ℤ, 0 ≤ i → i < m → c.mem i = '/') (h : Exits AtSlash turn c c') :
    -1 ∈ c'.accessed := by
  induction m generalizing c with
  | zero =>
    rw [hlen] at hread
    exact mem_accessed h hread
  | succ m ih =>
    have hat : AtSlash c := hslash c.len (by omega) (by omega)
    refine ih (c := c.turn) ?_ List.mem_cons_self (fun i hi hi' => ?_)
      ((exits_iff_of_cond hat).1 h)
    · change c.len - 1 = _
      omega
    · change Function.update c.mem c.len terminator i = '/'
      rw [Function.update_of_ne (by omega)]
      exact hslash i hi (by omega)

end Cursor

open Cursor

/-! ## Names -/

/-- The memory has a name, and its end, from position `0` on. -/
structure HoldsName (mem : ℤ → Char) (name : CString) : Prop where
  char (i : ℕ) (hi : i < name.length) : mem i = name[i]
  mem_length : mem name.length = terminator
  ne_terminator : terminator ∉ name

/-- From a memory with a string of some length, `mk_fix_name` returns in another state. -/
abbrev MkFixName (mem : ℤ → Char) (strlen : ℕ) : Cursor → Prop :=
  Exits AtSlash turn (atEnd mem strlen)

variable {mem mem' : ℤ → Char} {name name' l₁ l₂ l₃ : CString} {i : ℤ}

/-- The end of a name is the first terminator. -/
theorem HoldsName.length_le (h : HoldsName mem name) (h' : HoldsName mem name') :
    name'.length ≤ name.length := by
  by_contra hlt
  refine h'.ne_terminator ?_
  rw [← h.mem_length, h'.char name.length (by omega)]
  exact List.getElem_mem _

/-- A memory has one name. -/
theorem HoldsName.unique (h : HoldsName mem name) (h' : HoldsName mem name') : name = name' := by
  refine List.ext_getElem (le_antisymm (h'.length_le h) (h.length_le h')) fun i hi hi' => ?_
  rw [← h.char i hi, h'.char i hi']

/-- A character of the part `l₂` of a name. -/
theorem HoldsName.mem_part (h : HoldsName mem (l₁ ++ l₂ ++ l₃)) (hi : l₁.length ≤ i)
    (hi' : i < l₁.length + l₂.length) : mem i ∈ l₂ := by
  obtain ⟨i, rfl⟩ := Int.eq_ofNat_of_zero_le (show 0 ≤ i by omega)
  have hlt : i < (l₁ ++ l₂).length := by
    rw [List.length_append]
    omega
  rw [h.char i (by rw [List.length_append]; omega), List.getElem_append_left hlt,
    List.getElem_append_right (by omega)]
  exact List.getElem_mem _

/-- A name is cut off where its end is written. -/
theorem HoldsName.cut (h : HoldsName mem (l₁ ++ l₂)) (hend : mem' l₁.length = terminator)
    (hmem : ∀ i : ℤ, i < l₁.length → mem' i = mem i) : HoldsName mem' l₁ where
  char i hi := by
    rw [hmem i (by omega), h.char i (by rw [List.length_append]; omega),
      List.getElem_append_left hi]
  mem_length := hend
  ne_terminator hmem := h.ne_terminator (List.mem_append_left _ hmem)

/-- A name without its slashes at the end, as `mkFixName` has it. -/
def stripped (name : CString) : CString := name.rdropWhile (· = '/')

/-- The name ends in a slash. -/
def EndsInSlash (name : CString) : Prop := name.getLast? = some '/'

/-- Only slashes at the end are stripped. -/
theorem stripped_concat (name : CString) (c : Char) :
    stripped (name ++ [c]) = if c = '/' then stripped name else name ++ [c] := by
  rw [stripped, List.rdropWhile_concat, stripped]
  exact if_congr decide_eq_true_iff rfl rfl

/-- The last character says whether a name ends in a slash. -/
theorem endsInSlash_concat (name : CString) (c : Char) :
    EndsInSlash (name ++ [c]) ↔ c = '/' := by
  rw [EndsInSlash, List.getLast?_concat, Option.some_inj]

/-- What is stripped are all the slashes at the end. -/
theorem stripped_append {x : Char} (hx : x ≠ '/') (h : ∀ c ∈ l₂, c = '/') :
    stripped (l₁ ++ [x] ++ l₂) = l₁ ++ [x] := by
  induction l₂ using List.reverseRecOn with
  | nil => rw [List.append_nil, stripped_concat, if_neg hx]
  | append_singleton l₂ c ih =>
    obtain ⟨h, hc⟩ := List.forall_mem_append.1 h
    rw [← List.append_assoc, stripped_concat, if_pos (hc c List.mem_cons_self)]
    exact ih h

/-- What is left is the start of the name. -/
theorem stripped_isPrefix (name : CString) : stripped name <+: name := List.rdropWhile_prefix _ _

/-- A name that does not end in a slash stays as it is. -/
theorem stripped_eq_self_iff : stripped name = name ↔ ¬EndsInSlash name := by
  rcases List.eq_nil_or_concat' name with rfl | ⟨name, c, rfl⟩
  · exact iff_of_true rfl (Option.some_ne_none '/').symm
  · rw [stripped_concat, endsInSlash_concat]
    split_ifs with hc
    · refine iff_of_false (fun h => ?_) (not_not.2 hc)
      have hle := (stripped_isPrefix name).length_le
      rw [h, List.length_append, List.length_singleton] at hle
      omega
    · exact iff_of_true rfl hc

/-- A name that ends in a slash gets shorter. -/
theorem length_stripped_lt (h : EndsInSlash name) : (stripped name).length < name.length :=
  (stripped_isPrefix name).length_le.lt_of_ne fun heq =>
    stripped_eq_self_iff.1 ((stripped_isPrefix name).eq_of_length heq) h

/-- The last character that is no slash, and the slashes after it. -/
theorem exists_slashes (h : ∃ c ∈ name, c ≠ '/') :
    ∃ body x slashes, name = body ++ [x] ++ slashes ∧ x ≠ '/' ∧ ∀ c ∈ slashes, c = '/' := by
  induction name using List.reverseRecOn with
  | nil =>
    obtain ⟨c, hc, -⟩ := h
    cases hc
  | append_singleton name c ih =>
    by_cases hc : c = '/'
    · have hother : ∃ c ∈ name, c ≠ '/' := by
        obtain ⟨x, hx, hslash⟩ := h
        rcases List.mem_append.1 hx with hx | hx
        · exact ⟨x, hx, hslash⟩
        · exact absurd ((List.mem_singleton.1 hx).trans hc) hslash
      obtain ⟨body, x, slashes, rfl, hx, hslashes⟩ := ih hother
      refine ⟨body, x, slashes ++ [c], List.append_assoc _ _ _, hx, ?_⟩
      rw [List.forall_mem_append, List.forall_mem_singleton]
      exact ⟨hslashes, hc⟩
    · exact ⟨name, c, [], (List.append_nil _).symm, hc, fun _ h => absurd h List.not_mem_nil⟩

/-! ## The characters that are counted -/

/-- The characters that `len` counts: all of them, if there are fewer than `2 ^ 31`. -/
def counted (name : CString) : CString := name.take ((name.length : ℤ).bmod (2 ^ 32)).toNat

/-- Among the characters that are counted there is one that is no slash. If some are not
    counted, the name and the part that is counted both end in none, or the slashes at the end
    of the part go on to the end of the name. -/
structure Strippable (name : CString) : Prop where
  other : ∃ c ∈ counted name, c ≠ '/'
  rest : EndsInSlash (counted name) → ∀ c ∈ name.drop (counted name).length, c = '/'
  last : ¬EndsInSlash (counted name) → ¬EndsInSlash name

/-- The length as an `int` is no greater than the length. -/
theorem bmod_length_le (n : ℕ) : (n : ℤ).bmod (2 ^ 32) ≤ n ∧ (n : ℤ).bmod (2 ^ 32) < 2 ^ 31 := by
  rw [Int.bmod_def]
  push_cast
  split_ifs
  · omega
  · omega

/-- A length below 2³¹ is an `int`. -/
theorem bmod_length_of_lt {n : ℕ} (h : n < 2 ^ 31) : (n : ℤ).bmod (2 ^ 32) = n :=
  Int.bmod_eq_of_le (by omega) (by omega)

/-- How much of the name an `int` counts. -/
theorem length_counted (name : CString) :
    (counted name).length = ((name.length : ℤ).bmod (2 ^ 32)).toNat := by
  rw [counted, List.length_take]
  have hle := (bmod_length_le name.length).1
  omega

/-- Of a name that is not too long, all is counted. -/
theorem counted_of_lt (h : name.length < 2 ^ 31) : counted name = name := by
  rw [counted, bmod_length_of_lt h, Int.toNat_natCast, List.take_length]

/-- The name is what is counted, and the rest. -/
theorem counted_append_drop (name : CString) :
    counted name ++ name.drop (counted name).length = name := by
  rw [length_counted]
  exact List.take_append_drop _ _

/-- Stripping the part that is counted is stripping the name if there are only slashes after
    it. -/
theorem stripped_eq_stripped_counted_iff (h : ∃ c ∈ counted name, c ≠ '/') :
    stripped name = stripped (counted name) ↔
      ∀ c ∈ name.drop (counted name).length, c = '/' := by
  obtain ⟨body, x, slashes, hcounted, hx, hslashes⟩ := exists_slashes h
  have hname := counted_append_drop name
  have hkept : stripped (counted name) = body ++ [x] := by
    rw [hcounted, stripped_append hx hslashes]
  generalize name.drop (counted name).length = tail at hname ⊢
  rw [hcounted, List.append_assoc] at hname
  rw [hkept]
  constructor
  · intro heq c hc
    -- What is stripped of the whole name are the slashes that are counted, and the rest.
    have hrest : name.rtakeWhile (· = '/') = slashes ++ tail := by
      have happ : (body ++ [x]) ++ name.rtakeWhile (· = '/') =
          (body ++ [x]) ++ (slashes ++ tail) := by
        rw [hname, ← heq]
        exact List.rdropWhile_append_rtakeWhile
      exact List.append_cancel_left happ
    have hmem : c ∈ name.rtakeWhile (· = '/') := hrest ▸ List.mem_append_right _ hc
    have hslash := List.mem_rtakeWhile_imp hmem
    exact of_decide_eq_true hslash
  · intro htail
    rw [← hname]
    exact stripped_append hx (List.forall_mem_append.2 ⟨hslashes, htail⟩)

/-- A name that is not too long has to have another character than slashes. -/
theorem strippable_iff_of_lt (h : name.length < 2 ^ 31) :
    Strippable name ↔ ∃ c ∈ name, c ≠ '/' := by
  constructor
  · intro hname
    have hother := hname.other
    rwa [counted_of_lt h] at hother
  · intro hother
    refine ⟨?_, ?_, ?_⟩
    · rwa [counted_of_lt h]
    · rw [counted_of_lt h, List.drop_length]
      exact fun _ _ hc => absurd hc List.not_mem_nil
    · rw [counted_of_lt h]
      exact id

/-! ## What the loop does -/

/-- The loop comes to an end, having read and written only between the start of the name and its
    end. The name has lost the slashes at its end, nothing else has changed, and doing this again
    changes nothing. -/
def Strips (mem : ℤ → Char) (name : CString) : Prop :=
  ∃ c, MkFixName mem name.length c ∧
    (∀ i ∈ c.accessed, 0 ≤ i ∧ i ≤ name.length) ∧
    HoldsName c.mem (stripped name) ∧
    (∀ i, c.mem i ≠ mem i → (stripped name).length ≤ i ∧ i < name.length) ∧
    ∃ c', MkFixName c.mem (stripped name).length c' ∧ c'.mem = c.mem

/-- Where `len` counts slashes only, or is not positive, the loop leaves the name. -/
theorem not_strips (h : HoldsName mem name) (hslash : ∀ c ∈ counted name, c = '/') :
    ¬Strips mem name := by
  rintro ⟨c, hexits, haccessed, -⟩
  have hlen := length_counted name
  have hread : (atEnd mem name.length).len ∈ (atEnd mem name.length).accessed :=
    List.mem_cons_self
  have hatEnd := atEnd_len mem name.length
  by_cases hpos : 0 ≤ (name.length : ℤ).bmod (2 ^ 32)
  · have hneg := accessed_of_slashes (m := (counted name).length) (by omega) hread
      (fun i hi hi' => ?_) hexits
    · have hbounds := haccessed _ hneg
      omega
    · have hname := counted_append_drop name
      rw [← List.nil_append (counted name)] at hname
      rw [← hname] at h
      exact hslash _ (h.mem_part hi (by rw [List.length_nil]; omega))
  · have hbounds := haccessed _ (mem_accessed hexits hread)
    omega

/-- In memory, the slashes at the end of the part that is counted come after a character that is
    none. -/
theorem HoldsName.slashes (h : HoldsName mem name) (hother : ∃ c ∈ counted name, c ≠ '/') :
    0 < (stripped (counted name)).length ∧ mem ((stripped (counted name)).length - 1) ≠ '/' ∧
      ∀ i : ℤ, (stripped (counted name)).length ≤ i → i < (counted name).length → mem i = '/' := by
  obtain ⟨body, x, slashes, hcounted, hx, hslashes⟩ := exists_slashes hother
  have hname : body ++ [x] ++ slashes ++ name.drop (counted name).length = name := by
    rw [← hcounted]
    exact counted_append_drop name
  have hlen : (body ++ [x]).length = body.length + 1 := by
    rw [List.length_append, List.length_singleton]
  rw [hcounted, stripped_append hx hslashes, hlen]
  refine ⟨Nat.succ_pos _, ?_, fun i hi hi' => ?_⟩
  · have hpart : HoldsName mem (body ++ [x] ++ (slashes ++ name.drop (counted name).length)) := by
      rwa [← List.append_assoc, hname]
    have hbefore := List.mem_singleton.1 (hpart.mem_part le_rfl (by simp))
    have hlast : ((body.length + 1 : ℕ) : ℤ) - 1 = body.length := by omega
    rw [hlast, hbefore]
    exact hx
  · rw [List.length_append, hlen] at hi'
    rw [← hname] at h
    exact hslashes _ (h.mem_part (by omega) (by omega))

/-- The loop stops within the name if `len` counts a character that is no slash. -/
theorem exists_exits (h : HoldsName mem name) (hother : ∃ c ∈ counted name, c ≠ '/') :
    ∃ c, MkFixName mem name.length c ∧
      (∀ i ∈ c.accessed, 0 ≤ i ∧ i ≤ name.length) ∧
      (∀ i, c.mem i = if (stripped (counted name)).length ≤ i ∧ i < (counted name).length then
        terminator else mem i) ∧
      c.mem ((stripped (counted name)).length - 1) ≠ '/' := by
  obtain ⟨hpos, hstop, hslash⟩ := h.slashes hother
  have hatEnd := atEnd_len mem name.length
  have hlen := length_counted name
  have hle := (bmod_length_le name.length).1
  have hle' := (stripped_isPrefix (counted name)).length_le
  -- So many slashes are cleared.
  obtain ⟨m, hm⟩ := Nat.exists_eq_add_of_le hle'
  have hbefore : (atEnd mem name.length).len - m = (stripped (counted name)).length - 1 := by omega
  obtain ⟨c, hexits, hmem, haccessed⟩ := exits_slashes (c := atEnd mem name.length) (m := m)
    (fun i hi hi' => hslash i (by omega) (by omega)) (by rwa [hbefore])
  refine ⟨c, hexits, fun i hi => ?_, fun i => ?_, ?_⟩
  · rcases haccessed i hi with hi | hi
    · have hi := mem_atEnd_accessed hi
      omega
    · omega
  · rw [hmem, atEnd_mem]
    exact if_congr (by omega) rfl rfl
  · rw [hmem, if_neg (by omega)]
    exact hstop

/-- Where the part that is counted ends in slashes, the name is cut off before them. -/
theorem strips_iff_of_endsInSlash (h : HoldsName mem name)
    (hother : ∃ c ∈ counted name, c ≠ '/') (hend : EndsInSlash (counted name)) :
    Strips mem name ↔ stripped name = stripped (counted name) := by
  obtain ⟨c, hexits, haccessed, hmem, hlast⟩ := exists_exits h hother
  have hlt := length_stripped_lt hend
  have hlen := length_counted name
  obtain ⟨hle, hbound⟩ := bmod_length_le name.length
  have hkept : HoldsName c.mem (stripped (counted name)) := by
    obtain ⟨rest, hrest⟩ := (stripped_isPrefix (counted name)).trans (List.take_prefix _ name)
    rw [← hrest] at h
    refine h.cut ?_ fun i hi => ?_
    · rw [hmem, if_pos (by omega)]
    · rw [hmem, if_neg (by omega)]
  constructor
  · rintro ⟨c', hexits', -, hholds, -⟩
    obtain rfl := hexits.unique hexits'
    exact hholds.unique hkept
  · intro heq
    rw [Strips, heq]
    refine ⟨c, hexits, haccessed, hkept, fun i hi => ?_, ?_⟩
    · rw [hmem] at hi
      by_contra hout
      exact hi (if_neg (by omega))
    · -- There is no slash at the end any more.
      have hcount := bmod_length_of_lt (show (stripped (counted name)).length < 2 ^ 31 by omega)
      refine ⟨atEnd c.mem (stripped (counted name)).length, .done ?_, atEnd_mem _ _⟩
      rw [AtSlash, atEnd_mem, atEnd_len, hcount]
      exact hlast

/-- Where the part that is counted ends in another character, nothing is written. -/
theorem strips_iff_of_not_endsInSlash (h : HoldsName mem name)
    (hother : ∃ c ∈ counted name, c ≠ '/') (hend : ¬EndsInSlash (counted name)) :
    Strips mem name ↔ stripped name = name := by
  obtain ⟨c, hexits, haccessed, hmem, -⟩ := exists_exits h hother
  have hsame : c.mem = mem := by
    funext i
    rw [hmem, stripped_eq_self_iff.2 hend, if_neg (by omega)]
  constructor
  · rintro ⟨c', hexits', -, hholds, -⟩
    obtain rfl := hexits.unique hexits'
    rw [hsame] at hholds
    exact hholds.unique h
  · intro heq
    rw [Strips, heq]
    refine ⟨c, hexits, haccessed, ?_, fun i hi => absurd (congrFun hsame i) hi, c, ?_, rfl⟩
    · rw [hsame]
      exact h
    · rw [hsame]
      exact hexits

/-- Exactly for these names, stripping their slashes stays inside them, and does what it is to
    do. -/
theorem strips_iff (h : HoldsName mem name) : Strips mem name ↔ Strippable name := by
  by_cases hother : ∃ c ∈ counted name, c ≠ '/'
  swap
  · refine iff_of_false (not_strips h fun c hc => ?_) fun hname => hother hname.other
    by_contra hslash
    exact hother ⟨c, hc, hslash⟩
  by_cases hend : EndsInSlash (counted name)
  · rw [strips_iff_of_endsInSlash h hother hend, stripped_eq_stripped_counted_iff hother]
    exact ⟨fun hrest => ⟨hother, fun _ => hrest, absurd hend⟩, fun hname => hname.rest hend⟩
  · rw [strips_iff_of_not_endsInSlash h hother hend, stripped_eq_self_iff]
    exact ⟨fun hlast => ⟨hother, fun h => absurd h hend, fun _ => hlast⟩,
      fun hname => hname.last hend⟩

/-- `mkFixName` logs an underrun exactly if the loop goes on before the name. -/
theorem logs_mkFixName {σ : Type} {s : σ} (h : HoldsName mem name) (hlt : name.length < 2 ^ 31) :
    Logs (· ≠ .underrun) (mkFixName name) s ↔ Strips mem name := by
  have hnil : stripped name = [] ↔ ¬∃ c ∈ name, c ≠ '/' := by
    rw [stripped, List.rdropWhile_eq_nil_iff, not_exists]
    exact forall_congr' fun c => by rw [not_and, not_not, decide_eq_true_iff]
  rw [strips_iff h, strippable_iff_of_lt hlt, mkFixName]
  change Logs _ (if stripped name = [] then _ else _) s ↔ _
  split_ifs with hempty
  · refine iff_of_false (fun hlogs => ?_) (hnil.1 hempty)
    exact logs_emit.1 (logs_bind.1 hlogs).1 rfl
  · exact iff_of_true (logs_pure.2 trivial) (not_not.1 (mt hnil.2 hempty))

/-- Stripping the slashes of a name is safe and right for the names that have another character,
    if an `int` counts theirs; for the others, the `mkFixName` of the handlers logs an underrun. -/
theorem mkFixName_strips_iff (h : HoldsName mem name) :
    (Strips mem name ↔ Strippable name) ∧
    (name.length < 2 ^ 31 → (Strippable name ↔ ∃ c ∈ name, c ≠ '/')) ∧
    (name.length < 2 ^ 31 → ∀ (σ : Type) (s : σ),
      (Logs (· ≠ .underrun) (mkFixName name) s ↔ Strips mem name)) :=
  ⟨strips_iff h, strippable_iff_of_lt, fun hlt _ _ => logs_mkFixName h hlt⟩

/-- A memory that has a name. -/
def nameMemory (name : CString) (i : ℤ) : Char :=
  if i < 0 then terminator else name[i.toNat]?.getD terminator

/-- This memory has the name. -/
theorem holdsName_nameMemory (h : terminator ∉ name) : HoldsName (nameMemory name) name where
  char i hi := by
    rw [nameMemory, if_neg (by omega), Int.toNat_natCast, List.getElem?_eq_getElem hi,
      Option.getD_some]
  mem_length := by
    rw [nameMemory, if_neg (by omega), Int.toNat_natCast, List.getElem?_eq_none le_rfl,
      Option.getD_none]
  ne_terminator := h

example : (run AtSlash turn 3 (atEnd (nameMemory "a//".toList) 3)).map Cursor.accessed =
    some [0, 1, 1, 2, 2, 0, 1, 2, 3] := by decide

/-- The slashes after `trunk` are stripped. -/
theorem mkFixName_strips_trunk : Strips (nameMemory "trunk//".toList) "trunk//".toList := by
  have hholds : HoldsName (nameMemory "trunk//".toList) "trunk//".toList :=
    holdsName_nameMemory (by decide)
  obtain ⟨hiff, hlt, -⟩ := mkFixName_strips_iff hholds
  exact hiff.2 ((hlt (by decide)).2 ⟨'t', by decide, by decide⟩)

/-- The name `/`, after another slash. -/
def slashMemory (i : ℤ) : Char := if i = -1 ∨ i = 0 then '/' else terminator

/-- Of the name `/`, the character before it is read, and even written if it is a slash. -/
theorem mkFixName_slash : HoldsName (nameMemory ['/']) ['/'] ∧ ¬Strips (nameMemory ['/']) ['/'] ∧
    HoldsName slashMemory ['/'] ∧
    ∃ c, MkFixName slashMemory 1 c ∧ -1 ∈ c.accessed ∧
      slashMemory (-1) = '/' ∧ c.mem (-1) = terminator := by
  have hholds : HoldsName (nameMemory ['/']) ['/'] := holdsName_nameMemory (by decide)
  refine ⟨hholds, not_strips hholds ?_, ⟨fun i hi => ?_, by decide, by decide⟩, ?_⟩
  · rw [counted_of_lt (by decide)]
    exact fun c hc => List.mem_singleton.1 hc
  · obtain rfl := Nat.lt_one_iff.1 hi
    rfl
  · exact ⟨_, exits_iff_run.2 ⟨3, rfl⟩, by decide, by decide, by decide⟩

end Mksh
