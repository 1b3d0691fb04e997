import Mksh.Command.Complete
import Mksh.Lib.Prefixes

/-!
# The candidates of Tab

The candidates are the keywords at the current word, of the elements left by the preceding
words, that start with the current word, each of them where it occurs first (`candidates`,
`completeVector_eq`). What `Tab` shows of them only depends on their longest common prefix
(`IsCompletion`): `cmdLcd` compares each candidate with the next one, and gives its length
(`exists_cmdLcd`, `isCompletion_cmdCompleteCommand`).
-/

namespace Mksh

open CString Prefixes

variable {F : Type*} {table : List (CmdElement F)} {ws : List CString} {command : Option CString}

/-- The keywords of an item that start with the current word, if there is one. -/
def completions (command : Option CString) (item : List Desc) : List CString :=
  (keywords item).filter fun s => command.all fun w => w <+: s

/-- The distinct candidates at `index`, in order of first occurrence. -/
def candidates (command : Option CString) (index : ℕ) (l : List (CmdElement F)) : List CString :=
  (l.flatMap fun e => completions command (e.item index)).eraseDups

/-- What `Tab` ends with for the candidates `c`: the status, and what it shows of them. -/
structure IsCompletion (command : Option CString) (c : List CString)
    (r : ℤ × Option (List CString)) : Prop where
  empty : c = [] → r = (if command = none then cmdErrNothingTodo else cmdErrNoMatch, none)
  single : ∀ s, c = [s] → r = (cmdCompleteFullMatch, some [s])
  /-- The longest common prefix alone, if it is longer than the current word. -/
  several : 2 ≤ c.length → ∃ q, IsLongestCommonPrefix c q ∧ r =
    if command.any fun w => w.length < q.length then (cmdCompleteMatch, some [q])
    else (cmdCompleteListMatch, some c)

/-! ## Collecting -/

/-- A keyword is a candidate when the command is empty or starts it. -/
theorem cmdEntryFunction_eq (src : Option CString) (dst : CString) : cmdEntryFunction src dst =
    if IsKeyword dst ∧ src.all fun w => w <+: dst then some dst else none := by
  by_cases h : IsKeyword dst
  · rcases src with _ | w
    · obtain ⟨hr, -, -, h4, h4p⟩ := h.not_address
      simp [cmdEntryFunction, h, h.1, h.2.1, h.2.2, hr, h4, h4p]
    · simp [cmdEntryFunction_some h, h]
  · rw [cmdEntryFunction_eq_none h, if_neg fun hk => h hk.1]

/-- The completions of an item, one alternative at a time. -/
theorem completions_cons (d : Desc) (item : List Desc) : completions command (d :: item) =
    (cmdEntryFunction command d.cmd).toList ++ completions command item := by
  rw [cmdEntryFunction_eq, completions, keywords, List.map_cons, List.filter_cons]
  by_cases hk : IsKeyword d.cmd
  · by_cases hw : command.all fun w => w <+: d.cmd
    · simp [hk, hw, completions, keywords]
    · simp [hk, hw, completions, keywords]
  · simp [hk, completions, keywords]

/-- The linear search of the source is membership. -/
theorem cmdUniqueString_iff {v : List CString} {str : CString} :
    cmdUniqueString v str ↔ str ∉ v := by
  simp only [cmdUniqueString, List.all_eq_true, decide_eq_true_eq, ne_eq, strcmp_eq_zero]
  exact ⟨fun h hs => h str hs rfl, fun h s hs heq => h (heq ▸ hs)⟩

/-- A candidate is added where it first occurs. -/
theorem eraseDups_concat (m : List CString) (s : CString) : (m ++ [s]).eraseDups =
    if cmdUniqueString m.eraseDups s then m.eraseDups ++ [s] else m.eraseDups := by
  have hunique : cmdUniqueString m.eraseDups s ↔ s ∉ m := by
    rw [cmdUniqueString_iff, List.mem_eraseDups]
  rw [List.eraseDups_append]
  by_cases hs : s ∈ m
  · rw [if_neg fun h => hunique.1 h hs]
    simp [List.removeAll, hs]
  · rw [if_pos (hunique.2 hs)]
    simp [List.removeAll, hs, List.eraseDups_cons]

/-- The completions are added behind those there are, each once. -/
theorem completeDescvec_eq (descvec : List Desc) (m : List CString) :
    completeDescvec command descvec m.eraseDups =
      (m ++ completions command descvec).eraseDups := by
  induction descvec generalizing m with
  | nil => simp [completeDescvec, completions, keywords]
  | cons d descvec ih =>
    rw [completeDescvec, completions_cons]
    rcases cmdEntryFunction command d.cmd with _ | s
    · exact ih m
    · dsimp only
      rw [← eraseDups_concat, ih, List.append_assoc]
      rfl

/-- The same over all elements of the vector. -/
theorem completeVector_eq (index : ℕ) (v : CmdVector F) (m : List CString) :
    completeVector command index v m.eraseDups =
      (m ++ v.reduceOption.flatMap fun e => completions command (e.item index)).eraseDups := by
  induction v generalizing m with
  | nil => simp [completeVector]
  | cons slot v ih =>
    rcases slot with _ | e
    · rw [completeVector, List.reduceOption_cons_of_none, ih]
    · rw [completeVector, List.reduceOption_cons_of_some, List.flatMap_cons, CmdElement.item]
      rcases e.strvec[index]? with _ | descvec
      · exact ih m
      · dsimp only
        rw [completeDescvec_eq, ih, List.append_assoc, Option.getD_some]

/-- From the empty vector the loop collects the candidates. -/
theorem completeVector_nil_eq (index : ℕ) (v : CmdVector F) :
    completeVector command index v [] = candidates command index v.reduceOption :=
  completeVector_eq index v []

/-! ## The common prefix -/

/-- The universal property of the length of the common prefix. -/
theorem le_commonLength_iff {s t : CString} {n : ℕ} :
    n ≤ commonLength s t ↔ n ≤ s.length ∧ s.take n <+: t := by
  induction s generalizing t n with
  | nil => simp +contextual [commonLength]
  | cons c s ih =>
    rcases n with _ | n
    · simp
    · rcases t with _ | ⟨d, t⟩
      · simp [commonLength]
      · rw [commonLength, List.take_succ_cons, List.cons_prefix_cons, List.length_cons]
        split_ifs with hcd
        · rw [Nat.add_le_add_iff_right, ih, Nat.add_le_add_iff_right]
          tauto
        · simp [hcd]

/-- The loop, after it has compared `s` with others, up to `k` characters. -/
theorem exists_cmdLcdLoop {s : CString} {k : ℕ} (hk : k ≤ s.length) (matched : List CString) :
    ∃ n : ℕ, cmdLcdLoop s matched k = n ∧
      ∀ i, i ≤ n ↔ i ≤ k ∧ IsCommonPrefix matched (s.take i) := by
  induction matched generalizing s k with
  | nil => exact ⟨k, rfl, fun i => (and_iff_left isCommonPrefix_nil).symm⟩
  | cons t matched ih =>
    have hlen : commonLength s t ≤ t.length := by
      have hle := le_commonLength_iff.1 (le_refl (commonLength s t))
      have hpre := hle.2.length_le
      rwa [List.length_take_of_le hle.1] at hpre
    -- What `s` and `t` have in common, up to `k`, is compared with the rest.
    obtain ⟨n, hn, hiff⟩ := ih ((min_le_right k _).trans hlen)
    refine ⟨n, ?_, fun i => ?_⟩
    · rw [← hn, cmdLcdLoop]
      congr 1
      split_ifs <;> omega
    · rw [hiff, le_min_iff, le_commonLength_iff]
      constructor
      · rintro ⟨⟨hik, his, hpre⟩, hall⟩
        exact ⟨hik, (isCommonPrefix_cons_iff his).2 ⟨hpre, hall⟩⟩
      · rintro ⟨hik, hall⟩
        have his := hik.trans hk
        obtain ⟨hpre, hrest⟩ := (isCommonPrefix_cons_iff his).1 hall
        exact ⟨⟨hik, his, hpre⟩, hrest⟩

/-- `cmdLcd` is the length of the longest common prefix of two strings or more. -/
theorem exists_cmdLcd (s t : CString) (matched : List CString) :
    ∃ n : ℕ, n ≤ s.length ∧ cmdLcd (s :: t :: matched) = n ∧
      IsLongestCommonPrefix (s :: t :: matched) (s.take n) := by
  obtain ⟨n, hn, hiff⟩ := exists_cmdLcdLoop (le_refl s.length) (t :: matched)
  refine ⟨n, ((hiff n).1 le_rfl).1, ?_, isLongestCommonPrefix_take hiff⟩
  -- To start with, `lcd` is as good as the length of the first string.
  have hle : commonLength s t ≤ s.length := (le_commonLength_iff.1 le_rfl).1
  have hlcd : cmdLcd (s :: t :: matched) = cmdLcdLoop s (t :: matched) (-1) := rfl
  rw [← hn, hlcd, cmdLcdLoop, cmdLcdLoop]
  congr 1
  split_ifs <;> omega

/-! ## Completing -/

/-- After the rounds, the completion of the command is one of the four cases. -/
theorem isCompletion_cmdCompleteCommand {v : CmdVector F}
    (hv : cmdCompleteLoop ws 0 (vectorCopy table) = .ok v) :
    IsCompletion command (candidates command ws.length v.reduceOption)
      (cmdCompleteCommand table ws command) := by
  rw [cmdCompleteCommand, completeCandidates, hv]
  dsimp only
  rw [completeVector_nil_eq]
  generalize candidates command ws.length v.reduceOption = c
  rcases c with _ | ⟨s, _ | ⟨t, c⟩⟩
  · exact ⟨fun _ => rfl, fun s h => absurd h (List.cons_ne_nil s []).symm,
      fun h => absurd h (by simp)⟩
  · refine ⟨fun h => absurd h (List.cons_ne_nil s []), fun s' h => ?_, fun h => absurd h (by simp)⟩
    rw [h]
  · refine ⟨fun h => absurd h (List.cons_ne_nil s _), fun s' h => absurd h (by simp), fun _ => ?_⟩
    obtain ⟨n, hle, hlcd, hn⟩ := exists_cmdLcd s t c
    refine ⟨s.take n, hn, ?_⟩
    rcases command with _ | w
    · rfl
    · -- If the common prefix is longer than the word, it is not empty.
      have hlong : cmdLcd (s :: t :: c) ≠ 0 ∧ (w.length : ℤ) < cmdLcd (s :: t :: c) ↔
          (some w).any fun w => w.length < (s.take n).length := by
        rw [hlcd, List.length_take_of_le hle, Option.any_some, decide_eq_true_iff]
        omega
      dsimp only
      rw [if_congr hlong rfl rfl, hlcd, Int.toNat_natCast]

end Mksh
